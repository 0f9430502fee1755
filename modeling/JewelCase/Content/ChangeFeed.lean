import JewelCase.Content.Transactions
import JewelCase.Library.Coalesced

/-!
# The change feed

What a library's feed says of its tracks, albums, artists and tags. Within a transaction the rows
touched may be untold still; once it is done the feed tells what there is, and what a client reads past
a position is the net effect of every transaction since.
-/
namespace JewelCase.Content

set_option autoImplicit false

open Library

def Change.key (row : Change) : Entity × Id := (row.entity, row.id)

namespace Catalog

variable {c c' c'' : Catalog} {rules : Rules} {now : Int} {track : Id} {touched : Touched}
  {owing owing' : Entity → Id → Prop}

/-- Whether an entity has a row. -/
def has (c : Catalog) : Entity → Id → Prop
  | .library, id => id = c.library
  | .track, id => id ∈ c.tracks.map Track.id
  | .album, id => id ∈ c.albums.map Album.id
  | .artist, id => id ∈ c.artists.map Artist.id
  | .tag, id => id ∈ c.tags.map Tag.id

/-- The feed's latest change of an entity is that it is there. -/
def Told (c : Catalog) (entity : Entity) (id : Id) : Prop :=
  ∃ row ∈ c.feed, row.key = (entity, id) ∧ row.op = .upsert

/-- A feed that tells only of what there is, and of all that is but what is owed. -/
structure Telling (c : Catalog) (owing : Entity → Id → Prop) : Prop where
  kept : Coalesced.Kept Change.key Change.seq c.feed c.lastSeq
  sound : ∀ entity id, entity ≠ .library → c.Told entity id → c.has entity id
  owed : ∀ entity id, entity ≠ .library → c.has entity id → c.Told entity id ∨ owing entity id

/-- What the catalog's feed became. -/
def Feeds (c c' : Catalog) : Prop :=
  Coalesced.Since Change.key Change.seq c.feed c.lastSeq c'.feed c'.lastSeq

theorem Feeds.of_eq (hfeed : c'.feed = c.feed) (hlast : c'.lastSeq = c.lastSeq) : Feeds c c' := by
  unfold Feeds
  rw [hfeed, hlast]
  exact .refl _ _

/-- Recording a change puts it at the end and takes the entity's older row away. -/
theorem feed_record (entity : Entity) (id : Id) (op : Op) :
    (c.record entity id op now).feed =
      Coalesced.put Change.key c.feed ⟨c.lastSeq + 1, entity, id, op, now⟩ := by
  unfold record Coalesced.put Keyed.without Change.key
  dsimp only
  congr 1
  apply List.filter_congr
  intro row _
  rw [← Bool.decide_and, ← decide_not]
  exact decide_eq_decide.mpr (not_congr Prod.mk_inj.symm)

theorem Feeds.trans (h : Feeds c c') (h' : Feeds c' c'') : Feeds c c'' := Coalesced.Since.trans h h'

theorem Feeds.record (h : Feeds c c') (entity : Entity) (id : Id) (op : Op) :
    Feeds c (c'.record entity id op now) := by
  refine h.trans ?_
  unfold Feeds
  rw [feed_record]
  exact Coalesced.since_put c'.feed c'.lastSeq rfl

/-- Something was recorded since. -/
def Loud (c c' : Catalog) : Prop := ∃ row ∈ c'.feed, c.lastSeq < row.seq

theorem Loud.after (h : Loud c' c'') (hf : Feeds c c') : Loud c c'' := by
  obtain ⟨row, hrow, hlt⟩ := h
  exact ⟨row, hrow, Nat.lt_of_le_of_lt hf.le hlt⟩

/-- What is recorded stays recorded. -/
theorem Loud.until (h : Loud c c') (hkept : Coalesced.Kept Change.key Change.seq c'.feed c'.lastSeq)
    (hf : Feeds c' c'') : Loud c c'' := by
  obtain ⟨row, hrow, hlt⟩ := h
  obtain ⟨row', hrow', hkey⟩ := hf.keys row hrow
  refine ⟨row', hrow', ?_⟩
  by_cases hle : row'.seq ≤ c'.lastSeq
  · have hold := hf.old row' hrow' hle
    exact List.inj_on_of_nodup_map hkept.nodup hold hrow hkey ▸ hlt
  · have hbefore := hkept.le row hrow
    omega

/-- A change recorded stands past every row there was. -/
theorem loud_record (hf : Feeds c c') (entity : Entity) (id : Id) (op : Op) :
    Loud c (c'.record entity id op now) := by
  refine ⟨⟨c'.lastSeq + 1, entity, id, op, now⟩, ?_, Nat.lt_succ_of_le hf.le⟩
  rw [feed_record]
  exact Coalesced.mem_put.mpr (Or.inr rfl)

/-- The feed's word of an entity is the change just recorded, and of any other what it was. -/
theorem told_record {entity entity' : Entity} {id id' : Id} {op : Op} :
    (c.record entity id op now).Told entity' id' ↔
      ((entity', id') ≠ (entity, id) ∧ c.Told entity' id') ∨
        ((entity', id') = (entity, id) ∧ op = .upsert) := by
  unfold Told
  rw [feed_record]
  constructor
  · rintro ⟨row, hrow, hkey, hop⟩
    rcases Coalesced.mem_put.mp hrow with ⟨hrow, hne⟩ | rfl
    · exact Or.inl ⟨hkey ▸ hne, row, hrow, hkey, hop⟩
    · exact Or.inr ⟨hkey.symm, hop⟩
  · rintro (⟨hne, row, hrow, hkey, hop⟩ | ⟨heq, hop⟩)
    · exact ⟨row, Coalesced.mem_put.mpr (Or.inl ⟨hrow, hkey ▸ hne⟩), hkey, hop⟩
    · exact ⟨_, Coalesced.mem_put.mpr (Or.inr rfl), heq.symm, hop⟩

/-- What has a row when a change is recorded. -/
theorem has_record (entity : Entity) (id : Id) (op : Op) (entity' : Entity) (id' : Id) :
    (c.record entity id op now).has entity' id' ↔ c.has entity' id' := by
  cases entity' <;> exact Iff.rfl

theorem told_of_feed (h : c'.feed = c.feed) (entity : Entity) (id : Id) :
    c'.Told entity id ↔ c.Told entity id := by
  unfold Told
  rw [h]

/-- Rows that come, untold, are owed. -/
theorem Telling.grow (h : Telling c owing) (hfeed : c'.feed = c.feed) (hlast : c'.lastSeq = c.lastSeq)
    (hkept : ∀ entity id, entity ≠ .library → c.has entity id → c'.has entity id)
    (hadded : ∀ entity id, entity ≠ .library → c'.has entity id →
      c.has entity id ∨ owing' entity id)
    (howing : ∀ entity id, owing entity id → owing' entity id) : Telling c' owing' where
  kept := by
    rw [hfeed, hlast]
    exact h.kept
  sound := fun entity id hne htold =>
    hkept entity id hne (h.sound entity id hne ((told_of_feed hfeed entity id).mp htold))
  owed := fun entity id hne hhas => by
    rw [told_of_feed hfeed]
    rcases hadded entity id hne hhas with hhas | howes
    · exact (h.owed entity id hne hhas).imp_right (howing entity id)
    · exact Or.inr howes

/-- What one entity became is recorded, and the others have the rows they had. -/
theorem Telling.note (h : Telling c owing) (hfeed : c'.feed = c.feed) (hlast : c'.lastSeq = c.lastSeq)
    {entity : Entity} {id : Id} {op : Op}
    (hkept : ∀ entity' id', entity' ≠ .library → (entity', id') ≠ (entity, id) →
      c.has entity' id' → c'.has entity' id')
    (hadded : ∀ entity' id', entity' ≠ .library → (entity', id') ≠ (entity, id) →
      c'.has entity' id' → c.has entity' id' ∨ owing' entity' id')
    (howing : ∀ entity' id', (entity', id') ≠ (entity, id) → owing entity' id' → owing' entity' id')
    (hop : entity ≠ .library → (op = .upsert ↔ c'.has entity id)) :
    Telling (c'.record entity id op now) owing' where
  kept := by
    rw [feed_record]
    change Coalesced.Kept _ _ _ (c'.lastSeq + 1)
    rw [hfeed, hlast]
    exact h.kept.put rfl
  sound := fun entity' id' hne htold => by
    rw [has_record]
    rcases told_record.mp htold with ⟨hother, htold⟩ | ⟨hsame, hupsert⟩
    · exact hkept entity' id' hne hother
        (h.sound entity' id' hne ((told_of_feed hfeed entity' id').mp htold))
    · obtain ⟨rfl, rfl⟩ := Prod.mk_inj.mp hsame
      exact (hop hne).mp hupsert
  owed := fun entity' id' hne hhas => by
    rw [has_record] at hhas
    rw [told_record, told_of_feed hfeed]
    by_cases hsame : (entity', id') = (entity, id)
    · obtain ⟨rfl, rfl⟩ := Prod.mk_inj.mp hsame
      exact Or.inl (Or.inr ⟨rfl, (hop hne).mpr hhas⟩)
    · rcases hadded entity' id' hne hsame hhas with hhas | howes
      · exact (h.owed entity' id' hne hhas).imp (fun htold => Or.inl ⟨hsame, htold⟩)
          (howing entity' id' hsame)
      · exact Or.inr howes

/-! ### Tracks written -/

end Catalog

/-- What a transaction has still to bring up to date. -/
def Touched.owing (touched : Touched) : Entity → Id → Prop
  | .album, id => id ∈ touched.albums
  | .artist, id => id ∈ touched.artists
  | .tag, id => id ∈ touched.tags
  | _, _ => False

theorem Touched.Within.owing {touched more : Touched} (h : touched.Within more) (entity : Entity)
    (id : Id) : touched.owing entity id → more.owing entity id := by
  cases entity with
  | library => exact fun h => h
  | track => exact fun h => h
  | album => exact h.albums id
  | artist => exact h.artists id
  | tag => exact h.tags id

namespace Catalog

variable {c c' c'' : Catalog} {rules : Rules} {now : Int} {track : Id} {touched : Touched}
  {owing owing' : Entity → Id → Prop}

theorem mem_without_id {α : Type} {key : α → Id} {rows : List α} {id id' : Id} :
    id' ∈ (Keyed.without key rows id).map key ↔ id' ∈ rows.map key ∧ id' ≠ id := by
  rw [List.mem_map, List.mem_map]
  constructor
  · rintro ⟨x, hx, rfl⟩
    obtain ⟨hx, hne⟩ := Keyed.mem_without.mp hx
    exact ⟨⟨x, hx, rfl⟩, hne⟩
  · rintro ⟨⟨x, hx, rfl⟩, hne⟩
    exact ⟨x, Keyed.mem_without.mpr ⟨hx, hne⟩, rfl⟩

/-- A file's write takes no row of another entity away, and adds none that it does not touch. -/
theorem Writes.has (h : Writes track touched c c') (entity : Entity) (id : Id)
    (hne : entity ≠ .library) (hother : (entity, id) ≠ (.track, track)) :
    (c.has entity id → c'.has entity id) ∧
      (c'.has entity id → c.has entity id ∨ touched.owing entity id) := by
  cases entity with
  | library => exact absurd rfl hne
  | track =>
    have hid : id ≠ track := fun heq => hother (by rw [heq])
    have hmem : id ∈ c'.tracks.map Track.id ∧ id ≠ track ↔ id ∈ c.tracks.map Track.id ∧ id ≠ track := by
      rw [← mem_without_id, ← mem_without_id, h.tracks]
    exact ⟨fun hhas => (hmem.mpr ⟨hhas, hid⟩).1, fun hhas => Or.inl (hmem.mp ⟨hhas, hid⟩).1⟩
  | album => exact ⟨h.albums.kept id, h.albums.added id⟩
  | artist => exact ⟨h.artists.kept id, h.artists.added id⟩
  | tag => exact ⟨h.tags.kept id, h.tags.added id⟩

/-- What is done of one track leaves the feed behind only on what it touched. -/
theorem Outcome.telling {s s' : Catalog × Touched} (ho : Outcome now s s')
    (h : Telling s.1 s.2.owing) : Telling s'.1 s'.2.owing ∧ Feeds s.1 s'.1 := by
  cases ho with
  | same => exact ⟨h, .of_eq rfl rfl⟩
  | @unrecorded track c' touched wrote tracks =>
    refine ⟨h.grow wrote.writes.feed wrote.writes.lastSeq (fun entity id hne hhas => ?_)
      (fun entity id hne hhas => ?_) wrote.within.owing,
      .of_eq wrote.writes.feed wrote.writes.lastSeq⟩
    · by_cases hsame : (entity, id) = (.track, track)
      · obtain ⟨rfl, rfl⟩ := Prod.mk_inj.mp hsame
        unfold has at hhas ⊢
        rw [tracks]
        exact hhas
      · exact (wrote.writes.has entity id hne hsame).1 hhas
    · by_cases hsame : (entity, id) = (.track, track)
      · obtain ⟨rfl, rfl⟩ := Prod.mk_inj.mp hsame
        unfold has at hhas ⊢
        rw [tracks] at hhas
        exact Or.inl hhas
      · exact (wrote.writes.has entity id hne hsame).2 hhas
  | @recorded track c' touched op wrote there =>
    refine ⟨h.note wrote.writes.feed wrote.writes.lastSeq
      (fun entity id hne hother => (wrote.writes.has entity id hne hother).1)
      (fun entity id hne hother => (wrote.writes.has entity id hne hother).2)
      (fun entity id _ => wrote.within.owing entity id) fun _ => there, ?_⟩
    exact (Feeds.of_eq wrote.writes.feed wrote.writes.lastSeq).record .track track op

/-! ### What a transaction touched -/

/-- What is owed may be less, if the feed has told of the rest. -/
theorem Telling.mono (h : Telling c owing)
    (howing : ∀ entity id, entity ≠ .library → c.has entity id → owing entity id →
      c.Told entity id ∨ owing' entity id) : Telling c owing' :=
  ⟨h.kept, h.sound, fun entity id hne hhas =>
    (h.owed entity id hne hhas).elim Or.inl (howing entity id hne hhas)⟩

/-- The IDs of the rows there are, and the feed. -/
def heard (c : Catalog) : (List Id × List Id × List Id × List Id) × List Change × Nat :=
  ((c.tracks.map Track.id, c.albums.map Album.id, c.artists.map Artist.id, c.tags.map Tag.id),
    c.feed, c.lastSeq)

theorem heard_bare (c : Catalog) : c.bare.heard = c.heard := by
  have hartists : c.bare.artists.map Artist.id = c.artists.map Artist.id := List.map_map
  have htags : c.bare.tags.map Tag.id = c.tags.map Tag.id := List.map_map
  unfold heard
  rw [hartists, htags]
  rfl

theorem heard_foldl {α : Type} {f : Catalog → α → Catalog} (h : ∀ c x, (f c x).heard = c.heard)
    (xs : List α) : (xs.foldl f c).heard = c.heard := by
  induction xs generalizing c with
  | nil => rfl
  | cons x xs ih => rw [List.foldl_cons, ih, h]

theorem has_of_heard (h : c'.heard = c.heard) (entity : Entity) (hne : entity ≠ .library) (id : Id) :
    c'.has entity id ↔ c.has entity id := by
  have hids := (Prod.ext_iff.mp h).1
  cases entity with
  | library => exact absurd rfl hne
  | track =>
    have htracks : c'.tracks.map Track.id = c.tracks.map Track.id := congrArg Prod.fst hids
    unfold has
    rw [htracks]
  | album =>
    have halbums : c'.albums.map Album.id = c.albums.map Album.id :=
      congrArg (fun ids => ids.2.1) hids
    unfold has
    rw [halbums]
  | artist =>
    have hartists : c'.artists.map Artist.id = c.artists.map Artist.id :=
      congrArg (fun ids => ids.2.2.1) hids
    unfold has
    rw [hartists]
  | tag =>
    have htags : c'.tags.map Tag.id = c.tags.map Tag.id := congrArg (fun ids => ids.2.2.2) hids
    unfold has
    rw [htags]

/-- A catalog whose feed tells of it but for what is owed, since another stood. -/
structure Tells (c c' : Catalog) (owing : Entity → Id → Prop) : Prop where
  telling : Telling c' owing
  feeds : Feeds c c'

theorem Telling.tells (h : Telling c owing) : Tells c c owing := ⟨h, .of_eq rfl rfl⟩

/-- A write of nothing that the feed speaks of leaves what it tells. -/
theorem Tells.heard (h : Tells c c' owing) (heq : c''.heard = c'.heard) : Tells c c'' owing := by
  have hfeed : c''.feed = c'.feed := congrArg (fun heard => heard.2.1) heq
  have hlast : c''.lastSeq = c'.lastSeq := congrArg (fun heard => heard.2.2) heq
  have hhas := has_of_heard heq
  exact ⟨h.telling.grow hfeed hlast (fun entity id hne => (hhas entity hne id).mpr)
    (fun entity id hne hmem => Or.inl ((hhas entity hne id).mp hmem)) fun _ _ howes => howes,
    h.feeds.trans (.of_eq hfeed hlast)⟩

theorem Tells.trans (h : Tells c c' owing) (h' : Tells c' c'' owing') : Tells c c'' owing' :=
  ⟨h'.telling, h.feeds.trans h'.feeds⟩

/-- What an entity is now is recorded, and is owed no more. -/
theorem Tells.note (h : Tells c c' owing) {entity : Entity} {id : Id} {op : Op}
    (hop : entity ≠ .library → (op = .upsert ↔ c'.has entity id))
    (howing : ∀ entity' id', (entity', id') ≠ (entity, id) → owing entity' id' → owing' entity' id') :
    Tells c (c'.record entity id op now) owing' :=
  ⟨h.telling.note rfl rfl (fun _ _ _ _ hhas => hhas) (fun _ _ _ _ => Or.inl) howing hop,
    h.feeds.record entity id op⟩

/-- What is there is recorded once more. -/
theorem Tells.again (h : Tells c c' owing) {entity : Entity} {ids : List Id}
    (hhas : ∀ id ∈ ids, c'.has entity id) :
    Tells c (ids.foldl (fun c id => c.record entity id .upsert now) c') owing := by
  induction ids generalizing c' with
  | nil => exact h
  | cons id ids ih =>
    have hfirst := hhas id List.mem_cons_self
    exact ih (h.note (fun _ => ⟨fun _ => hfirst, fun _ => rfl⟩) fun _ _ _ howes => howes)
      fun other hother => hhas other (List.mem_cons_of_mem id hother)

/-- A row goes, and that is recorded. -/
theorem Tells.goes (h : Tells c c' owing) (c'' : Catalog) (hfeed : c''.feed = c'.feed)
    (hlast : c''.lastSeq = c'.lastSeq) {entity : Entity} {id : Id}
    (hothers : ∀ entity' id', entity' ≠ .library → (entity', id') ≠ (entity, id) →
      (c''.has entity' id' ↔ c'.has entity' id'))
    (hgone : ¬ c''.has entity id)
    (howing : ∀ entity' id', (entity', id') ≠ (entity, id) → owing entity' id' → owing' entity' id') :
    Tells c (c''.record entity id .delete now) owing' := by
  refine ⟨h.telling.note hfeed hlast (fun entity' id' hne hother => (hothers entity' id' hne hother).mpr)
    (fun entity' id' hne hother hhas => Or.inl ((hothers entity' id' hne hother).mp hhas)) howing
    fun _ => ⟨fun hop => absurd hop delete_ne_upsert, fun hhas => absurd hhas hgone⟩, ?_⟩
  exact (h.feeds.trans (.of_eq hfeed hlast)).record entity id .delete

end Catalog

end JewelCase.Content
