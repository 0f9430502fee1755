import JewelCase.Content.ChangeFeed

/-!
# The feed agrees with the data

Bringing up to date what a transaction touched records it, so that after each transaction nothing is
owed: the feed says of each track, album, artist and tag whether it is there.
-/
namespace JewelCase.Content

set_option autoImplicit false

open Library

namespace Catalog

variable {c c' c'' : Catalog} {rules : Rules} {now : Int} {touched : Touched}
  {owing owing' : Entity → Id → Prop}

/-! ### Bringing up to date -/

theorem heard_insertAlbumArtist (r : AlbumArtist) : (c.insertAlbumArtist r).heard = c.heard := by
  unfold insertAlbumArtist
  split
  · rfl
  · have hbare := bare_countArtistAlbums (c := { c with albumArtists := c.albumArtists ++ [r] })
      r.artist 1
    rw [← heard_bare, hbare, heard_bare]
    rfl

theorem heard_deleteAlbumArtist (r : AlbumArtist) : (c.deleteAlbumArtist r).heard = c.heard := by
  rw [← heard_bare, bare_deleteAlbumArtist]
  exact heard_bare c

theorem heard_relink (changed : List Id) (album : Id) :
    (Catalog.relink (c, changed) album).1.heard = c.heard := by
  have hlinked : (c.refreshAlbumLinks album).heard = c.heard := by
    unfold refreshAlbumLinks
    exact (heard_foldl (fun _ r => heard_insertAlbumArtist r) _).trans
      (heard_foldl (fun _ r => heard_deleteAlbumArtist r) _)
  have hids : ((c.refreshAlbumLinks album).artAlbum album).albums.map Album.id =
      (c.refreshAlbumLinks album).albums.map Album.id := map_map_same fun a => by split <;> rfl
  refine Eq.trans ?_ hlinked
  unfold relink heard
  rw [hids]
  rfl

theorem heard_updateArtist (hl : c.Linked) {old new : Artist} (hold : old ∈ c.artists)
    (hid : new.id = old.id) : (c.updateArtist old new).heard = c.heard := by
  have hids := map_replace_of_mem hl.artists hold hid hid
  unfold updateArtist heard
  split <;> (dsimp only [named]; rw [hids])

theorem heard_updateAlbum (hl : c.Linked) {old new : Album} (hold : old ∈ c.albums)
    (hid : new.id = old.id) : (c.updateAlbum old new).heard = c.heard := by
  have hids := map_replace_of_mem hl.albums hold hid hid
  have htracks : (if new.sortKey = old.sortKey then c.tracks
      else c.tracks.map fun t =>
        if t.albumId = new.id then { t with albumSortKey := new.sortKey } else t).map Track.id =
      c.tracks.map Track.id := by
    split
    · rfl
    · exact map_map_same fun t => by split <;> rfl
  have hupdated : Catalog.heard { c with
      albums := c.albums.map fun a => if a.id = new.id then new else a
      tracks := if new.sortKey = old.sortKey then c.tracks
        else c.tracks.map fun t =>
          if t.albumId = new.id then { t with albumSortKey := new.sortKey } else t } = c.heard := by
    unfold heard
    dsimp only
    rw [hids, htracks]
  unfold updateAlbum
  dsimp only
  by_cases htitle : new.title = old.title
  · rw [if_pos htitle]
    exact hupdated
  · rw [if_neg htitle]
    exact hupdated

theorem heard_artArtist (artist : Id) (isNamed : Bool) :
    (c.artArtist artist isNamed).heard = c.heard := by
  have hids : (c.artArtist artist isNamed).artists.map Artist.id = c.artists.map Artist.id :=
    map_map_same fun a => by split <;> rfl
  unfold heard
  rw [hids]
  rfl

theorem Tells.followArtistSortKey (h : Tells c c' owing) (hl : c'.Linked) (artist : Id)
    (key : SortKey) : Tells c (c'.followArtistSortKey artist key now) owing := by
  unfold Catalog.followArtistSortKey
  have htracks : ∀ firsts : List Id, (c'.tracks.map fun t =>
      if firsts.contains t.id then { t with artistSortKey := key } else t).map Track.id =
        c'.tracks.map Track.id := fun firsts => map_map_same fun t => by split <;> rfl
  have halbums : ∀ heads : List Id, (c'.albums.map fun a =>
      if heads.contains a.id then { a with artistSortKey := key } else a).map Album.id =
        c'.albums.map Album.id := fun heads => map_map_same fun a => by split <;> rfl
  refine Tells.again (h.heard ?_) fun album hmem => ?_
  · unfold Catalog.heard
    dsimp only
    rw [htracks, halbums]
  · obtain ⟨r, hr, rfl⟩ := List.mem_map.mp hmem
    unfold has
    dsimp only
    rw [halbums]
    exact List.mem_map.mpr (hl.artistAlbums r (List.mem_filter.mp hr).1)

/-- An artist brought up to date is recorded, and owed no longer. -/
theorem Tells.refreshArtist (h : Tells c c' owing) (hw : c'.Whole) (rules : Rules) {artist : Id}
    (howing : ∀ entity id, (entity, id) ≠ (.artist, artist) → owing entity id → owing' entity id) :
    Tells c (c'.refreshArtist rules now artist) owing' := by
  unfold Catalog.refreshArtist
  cases hfind : Keyed.find Artist.id c'.artists artist with
  | none =>
    refine ⟨h.telling.mono fun entity id _ hhas howes => Or.inr (howing entity id ?_ howes), h.feeds⟩
    rintro heq
    obtain ⟨rfl, rfl⟩ := Prod.mk_inj.mp heq
    exact find_none hfind hhas
  | some old =>
    obtain ⟨hold, rfl⟩ := find_mem hfind
    dsimp only
    split
    · obtain ⟨new, hnew⟩ : ∃ new : Artist, new = { old with
          name := c'.artistName old.id, sortKey := c'.artistSort rules old.id } := ⟨_, rfl⟩
      have hid : new.id = old.id := by rw [hnew]
      rw [← hnew]
      have halike : Alike c' (c'.updateArtist old new) :=
        alike_updateArtist hw.consistent.linked hold (by rw [hnew]; rfl)
      have hupdated := h.heard (heard_updateArtist hw.consistent.linked hold hid)
      obtain ⟨hfollowed, halike⟩ : Tells c (if c'.artistSort rules old.id = old.sortKey then
            c'.updateArtist old new
          else (c'.updateArtist old new).followArtistSortKey old.id (c'.artistSort rules old.id) now)
          owing ∧ Alike c' (if c'.artistSort rules old.id = old.sortKey then c'.updateArtist old new
          else (c'.updateArtist old new).followArtistSortKey old.id (c'.artistSort rules old.id) now) := by
        split
        · exact ⟨hupdated, halike⟩
        · exact ⟨hupdated.followArtistSortKey (hw.consistent.linked.fewer halike.fewer) old.id _,
            halike.trans (alike_followArtistSortKey _ _ _)⟩
      refine (hfollowed.heard (heard_artArtist _ _)).note (fun _ => ⟨fun _ => ?_, fun _ => rfl⟩) howing
      have hids := map_comp_eq (halike.trans (alike_artArtist old.id (c'.artistName old.id).isSome)).artists
        Prod.fst
      have hmem : old.id ∈ c'.artists.map (Prod.fst ∘ Artist.counts) := List.mem_map_of_mem hold
      rw [← hids] at hmem
      exact hmem
    · rename_i hcredited
      have hheld : (c'.artists.any fun a => decide (a.id = old.id)) = true :=
        List.any_eq_true.mpr ⟨old, hold, decide_eq_true rfl⟩
      rw [deleteArtist_eq hw.consistent.tallied (hw.uncredited hcredited) hheld]
      refine h.goes (c'.withoutArtist old.id) rfl rfl (fun entity id _ hother => ?_) (fun hmem => ?_) howing
      · cases entity with
        | artist => exact mem_without_id.trans (and_iff_left fun heq => hother (by rw [heq]))
        | _ => exact Iff.rfl
      · exact (mem_without_id.mp hmem).2 rfl

theorem Tells.refreshTag (h : Tells c c' owing) (hw : c'.Whole) (rules : Rules) {tag : Id}
    (howing : ∀ entity id, (entity, id) ≠ (.tag, tag) → owing entity id → owing' entity id) :
    Tells c (c'.refreshTag rules now tag) owing' := by
  unfold Catalog.refreshTag
  cases hfind : Keyed.find Tag.id c'.tags tag with
  | none =>
    refine ⟨h.telling.mono fun entity id _ hhas howes => Or.inr (howing entity id ?_ howes), h.feeds⟩
    rintro heq
    obtain ⟨rfl, rfl⟩ := Prod.mk_inj.mp heq
    exact find_none hfind hhas
  | some old =>
    obtain ⟨hold, rfl⟩ := find_mem hfind
    dsimp only
    split
    · obtain ⟨new, hnew⟩ : ∃ new : Tag, new = { old with
          name := (c'.tagName old.id).getD []
          sortKey := rules.tagSortKey ((c'.tagName old.id).getD []) } := ⟨_, rfl⟩
      have hid : new.id = old.id := by rw [hnew]
      rw [← hnew]
      have hids := map_replace_of_mem hw.consistent.linked.tags hold hid hid
      refine Tells.note (h.heard ?_) (fun _ => ⟨fun _ => ?_, fun _ => rfl⟩) howing
      · unfold updateTag Catalog.heard
        dsimp only
        rw [hids]
      · unfold updateTag has
        dsimp only
        rw [hids]
        exact List.mem_map_of_mem hold
    · rename_i hcarried
      have hheld : (c'.tags.any fun t => decide (t.id = old.id)) = true :=
        List.any_eq_true.mpr ⟨old, hold, decide_eq_true rfl⟩
      have hu : ∀ r ∈ c'.trackTags, r.tag ≠ old.id := fun r hr hid =>
        hcarried (List.any_eq_true.mpr ⟨r, hr, decide_eq_true hid⟩)
      rw [deleteTag_eq hw.consistent.tallied hu hheld]
      refine h.goes { c' with tags := Keyed.without Tag.id c'.tags old.id } rfl rfl
        (fun entity id _ hother => ?_) (fun hmem => ?_) howing
      · cases entity with
        | tag => exact mem_without_id.trans (and_iff_left fun heq => hother (by rw [heq]))
        | _ => exact Iff.rfl
      · exact (mem_without_id.mp hmem).2 rfl

/-- An album brought up to date is recorded, and owed no longer. -/
theorem Tells.recomputeAlbum (h : Tells c c' owing) (hw : c'.Whole) {album : Id}
    (hc'' : c'.recomputeAlbum rules now album = some c'')
    (howing : ∀ entity id, (entity, id) ≠ (.album, album) → owing entity id → owing' entity id) :
    Tells c c'' owing' := by
  have hcount := hw.consistent.tallied.count_eq_zero album
  unfold Catalog.recomputeAlbum at hc''
  split at hc''
  · rename_i hsum
    have hu : ∀ t ∈ c'.tracks, t.albumId ≠ album := fun t ht hid => hcount.mp hsum ⟨t, ht, hid⟩
    by_cases hheld : (c'.albums.any fun a => decide (a.id = album)) = true
    · rw [deleteAlbum_eq hw.consistent.tallied hu hheld] at hc''
      rw [← Option.some.inj hc'']
      have hartists : (c'.withoutAlbum album).artists.map Artist.id = c'.artists.map Artist.id :=
        List.map_map
      refine h.goes (c'.withoutAlbum album) rfl rfl (fun entity id _ hother => ?_) (fun hmem => ?_)
        howing
      · cases entity with
        | album => exact mem_without_id.trans (and_iff_left fun heq => hother (by rw [heq]))
        | artist =>
          unfold has
          rw [hartists]
        | _ => exact Iff.rfl
      · exact (mem_without_id.mp hmem).2 rfl
    · unfold Catalog.deleteAlbum at hc''
      rw [if_neg hheld] at hc''
      rw [← Option.some.inj hc'']
      refine h.goes c' rfl rfl (fun _ _ _ _ => Iff.rfl) (fun hmem => hheld ?_) howing
      obtain ⟨a, ha, hid⟩ := List.mem_map.mp hmem
      exact List.any_eq_true.mpr ⟨a, ha, decide_eq_true hid⟩
  · rename_i hsum
    obtain ⟨t, ht, rfl⟩ := not_not.mp (mt hcount.mpr hsum)
    have hhas := List.mem_map.mpr (hw.consistent.linked.albumRows t ht)
    rw [← Option.some.inj hc'']
    cases hfind : Keyed.find Album.id c'.albums t.albumId with
    | none => exact absurd hhas (find_none hfind)
    | some old =>
      obtain ⟨hold, hid⟩ := find_mem hfind
      have hheard : (c'.updateAlbum old (c'.resolvedAlbum rules old)).heard = c'.heard :=
        heard_updateAlbum hw.consistent.linked hold rfl
      refine (h.heard hheard).note (fun hne => ⟨fun _ => ?_, fun _ => rfl⟩) howing
      exact (has_of_heard hheard .album hne t.albumId).mpr hhas

/-- What each step does to what is owed, over the steps. -/
theorem tells_each {σ : Type} (catalog : σ → Catalog) {f : σ → Id → Option σ}
    (owes : List Id → Entity → Id → Prop)
    (hstep : ∀ {s s' : σ} {id : Id} {rest : List Id}, (catalog s).Whole →
      Tells c (catalog s) (owes (id :: rest)) → f s id = some s' →
        (catalog s').Whole ∧ Tells c (catalog s') (owes rest))
    {ids : List Id} {s s' : σ} (hw : (catalog s).Whole) (h : Tells c (catalog s) (owes ids))
    (hs' : ids.foldlM f s = some s') : (catalog s').Whole ∧ Tells c (catalog s') (owes []) := by
  induction ids generalizing s with
  | nil =>
    rw [← Option.some.inj hs']
    exact ⟨hw, h⟩
  | cons id ids ih =>
    rw [List.foldlM_cons] at hs'
    obtain ⟨mid, hmid, hrest⟩ := Option.bind_eq_some_iff.mp hs'
    obtain ⟨hwhole, htells⟩ := hstep hw h hmid
    exact ih hwhole htells hrest

theorem heard_artPlaylists (moved albums : List Id) : (c.artPlaylists moved albums).heard = c.heard :=
  heard_foldl (f := artPlaylist) (fun _ _ => rfl) _

/-- Once what was touched is brought up to date, the feed owes nothing, and it spoke if that was
anything. -/
theorem Whole.tells_recompute (hw : c.Whole) (h : Telling c touched.owing)
    (hc' : c.recompute rules touched now = some c') :
    Tells c c' Touched.none.owing ∧ (touched.tags = [] ∧ c' = c ∨ Loud c c') := by
  unfold Catalog.recompute at hc'
  split at hc'
  · rename_i hnone
    obtain ⟨halbums, hartists, htags⟩ := hnone
    rw [← Option.some.inj hc']
    refine ⟨⟨h.mono fun entity id _ _ howes => Or.inr ?_, .of_eq rfl rfl⟩, Or.inl ⟨htags, rfl⟩⟩
    unfold Touched.owing at howes
    rw [halbums, hartists, htags] at howes
    exact howes
  obtain ⟨resolved, hresolved, hrest⟩ := Option.bind_eq_some_iff.mp hc'
  obtain ⟨hlinked, hlinks⟩ := tells_each (fun s : Catalog × List Id => s.1)
    (fun _ => touched.owing) (fun hs ht hx => by
      rw [← Option.some.inj hx]
      exact ⟨(hs.relink _ _).1, ht.heard (heard_relink _ _)⟩) hw h.tells
    (foldlM_some Catalog.relink touched.albums (c, []))
  obtain ⟨hnamed, hnames⟩ := tells_each (fun c => c)
    (fun rest => Touched.owing { touched with artists := rest }) (fun hs ht hx => by
      rw [← Option.some.inj hx]
      exact ⟨(hs.refreshArtist rules now _).1, ht.refreshArtist hs rules fun entity id hne howes => by
        cases entity with
        | artist => exact (List.mem_cons.mp howes).resolve_left fun heq => hne (by rw [heq])
        | _ => exact howes⟩) hlinked hlinks
    (foldlM_some (fun c artist => c.refreshArtist rules now artist) touched.artists _)
  obtain ⟨hwhole, halbums⟩ := tells_each (fun c => c)
    (fun rest => Touched.owing { touched with artists := [], albums := rest })
    (fun hs ht hx => ⟨(hs.recomputeAlbum hx).1, ht.recomputeAlbum hs hx fun entity id hne howes => by
        cases entity with
        | album => exact (List.mem_cons.mp howes).resolve_left fun heq => hne (by rw [heq])
        | _ => exact howes⟩) hnamed hnames hresolved
  have harted := halbums.heard (heard_artPlaylists (c := resolved) touched.moved
    (touched.albums.foldl Catalog.relink (c, [])).2)
  have hart := hwhole.alike (alike_artPlaylists (c := resolved) touched.moved
    (touched.albums.foldl Catalog.relink (c, [])).2)
  obtain ⟨_, htags⟩ := tells_each (fun c => c)
    (fun rest => Touched.owing { touched with artists := [], albums := [], tags := rest })
    (fun hs ht hx => by
      rw [← Option.some.inj hx]
      exact ⟨(hs.refreshTag rules now _).1, ht.refreshTag hs rules fun entity id hne howes => by
        cases entity with
        | tag => exact (List.mem_cons.mp howes).resolve_left fun heq => hne (by rw [heq])
        | _ => exact howes⟩) hart harted
    (foldlM_some (fun c tag => c.refreshTag rules now tag) touched.tags _)
  rw [← Option.some.inj hrest]
  exact ⟨htags.note (fun hne => absurd rfl hne) fun entity _ _ howes => by
    cases entity <;> exact howes, Or.inr (loud_record htags.feeds .library c.library .upsert)⟩

/-! ### Transactions -/

/-- The tracks of a transaction leave the feed behind only on what they touched. -/
theorem Outcomes.tells {s s' : Catalog × Touched} (ho : Outcomes now s s')
    (h : Telling s.1 s.2.owing) : Tells s.1 s'.1 s'.2.owing := by
  induction ho with
  | refl => exact h.tells
  | step _ hstep ih =>
    obtain ⟨htelling, hfeeds⟩ := hstep.telling ih.telling
    exact ⟨htelling, ih.feeds.trans hfeeds⟩

theorem Telling.ordered (h : Telling c touched.owing) (order : Order) :
    Telling c (order.touched touched).owing := by
  have hwithin : touched.Within (order.touched touched) :=
    ⟨fun _ hid => (order.perm _).mem_iff.mpr hid, fun _ hid => (order.perm _).mem_iff.mpr hid,
      fun _ hid => (order.perm _).mem_iff.mpr hid⟩
  exact h.mono fun entity id _ _ howes => Or.inr (hwithin.owing entity id howes)

/-- A batch or a purge leaves the feed owing nothing. -/
theorem Settled.tells_transacted (hs : c.Settled) (h : Telling c Touched.none.owing)
    (ht : Transacted rules now c c') : Tells c c' Touched.none.owing := by
  obtain ⟨order, s, houtcomes, hrest⟩ := ht.written
  have hwritten := houtcomes.tells h
  exact hwritten.trans ((houtcomes.ready hs.ready).whole.tells_recompute
    (hwritten.telling.ordered order) hrest).1

theorem Settled.tells_write (hs : c.Settled) (h : Telling c Touched.none.owing) {w : Write}
    (hc' : c.write rules now w = some c') : Tells c c' Touched.none.owing := by
  cases w with
  | batch order batch => exact hs.tells_transacted h (hs.applyBatch hc')
  | purge order ids => exact hs.tells_transacted h (hs.purge hc')
  | analysis id =>
    rw [← Option.some.inj hc']
    unfold storeAnalysis albumOf track?
    cases hfind : Keyed.find Track.id c.tracks id with
    | none => exact h.tells
    | some t =>
      obtain ⟨ht, rfl⟩ := find_mem hfind
      have halbum := List.mem_map.mpr (hs.whole.consistent.linked.albumRows t ht)
      have htrack : t.id ∈ c.tracks.map Track.id := List.mem_map_of_mem ht
      have hfirst : Tells c (c.record .album t.albumId .upsert now) Touched.none.owing :=
        h.tells.note (fun _ => ⟨fun _ => halbum, fun _ => rfl⟩) fun _ _ _ howes => howes
      exact hfirst.note (fun _ => ⟨fun _ => htrack, fun _ => rfl⟩) fun _ _ _ howes => howes
  | placeholder image made =>
    rw [← Option.some.inj hc']
    unfold storePlaceholder
    split
    · dsimp only
      obtain ⟨feed, lastSeq, he⟩ := c.record_each .album
        ((c.albums.filter fun (a : Album) => decide (a.imageId = some image)).map Album.id) now
      have halbums : Tells c
          (((c.albums.filter fun a => decide (a.imageId = some image)).map Album.id).foldl
            (fun c id => c.record .album id .upsert now) c) Touched.none.owing := by
        refine h.tells.again fun id hid => ?_
        obtain ⟨a, ha, rfl⟩ := List.mem_map.mp hid
        exact List.mem_map_of_mem (List.mem_filter.mp ha).1
      refine halbums.again fun id hid => ?_
      rw [he]
      obtain ⟨a, ha, rfl⟩ := List.mem_map.mp hid
      exact List.mem_map_of_mem (List.mem_filter.mp ha).1
    · exact h.tells
  | createPlaylist playlist =>
    have hmade : c.createPlaylist playlist = some c' := hc'
    unfold createPlaylist at hmade
    split at hmade
    · cases hmade
    · rw [← Option.some.inj hmade]
      exact h.tells.heard rfl
  | setItems playlist tracks =>
    have hset : c.setItems playlist tracks = some c' := hc'
    unfold setItems at hset
    split at hset
    · rw [← Option.some.inj hset]
      exact h.tells.heard rfl
    · cases hset
  | deletePlaylist playlist =>
    rw [← Option.some.inj hc']
    exact h.tells.heard rfl
  | elsewhere changes =>
    rw [← Option.some.inj hc']
    exact ⟨⟨h.kept.mono (Nat.le_add_right _ _), h.sound, h.owed⟩,
      Coalesced.since_later c.feed (Nat.le_add_right _ _)⟩

/-- After any run the feed has told of every row. -/
theorem telling_reachable (h : Reachable rules c) : Telling c Touched.none.owing := by
  induction h with
  | made library =>
    refine ⟨Coalesced.kept_nil 0, fun _ _ _ htold => ?_, fun entity id hne hhas => ?_⟩
    · obtain ⟨row, hrow, _⟩ := htold
      cases hrow
    · cases entity with
      | library => exact absurd rfl hne
      | _ => cases hhas
  | write now w hreachable hc' ih => exact ((settled_reachable hreachable).tells_write ih hc').telling

theorem feeds_later (h : Reachable rules c) (hl : Later rules c c') : Feeds c c' := by
  induction hl with
  | refl => exact .of_eq rfl rfl
  | write now w hlater hw ih =>
    have hreachable := later_reachable h hlater
    exact ih.trans ((settled_reachable hreachable).tells_write (telling_reachable hreachable) hw).feeds

theorem not_owing (entity : Entity) (id : Id) : ¬ Touched.none.owing entity id := by
  cases entity with
  | library => exact fun h => h
  | track => exact fun h => h
  | _ => exact List.not_mem_nil

/-- Where nothing is owed, an entity has a row exactly when the feed says so. -/
theorem Telling.has_iff (h : Telling c Touched.none.owing) {entity : Entity}
    (hne : entity ≠ .library) (id : Id) : c.has entity id ↔ c.Told entity id :=
  ⟨fun hhas => (h.owed entity id hne hhas).resolve_right (not_owing entity id),
    h.sound entity id hne⟩

theorem Telling.keys (h : Telling c Touched.none.owing) :
    Coalesced.Tells Change.key (fun row => row.op = .upsert) (fun k => k.1 ≠ .library) c.feed
      (fun k => c.has k.1 k.2) := fun k hne => h.has_iff hne k.2

/-- After any run of transactions the feed has one row for each entity it names, in the order of their
positions, and its latest word of a track, album, artist or tag is that it is there exactly when it has
a row. -/
theorem feed_of_reachable (h : Reachable rules c) :
    (c.feed.map Change.key).Nodup ∧ (c.feed.Pairwise fun a b => a.seq < b.seq) ∧
      (∀ row ∈ c.feed, row.seq ≤ c.lastSeq) ∧
      ∀ entity id, entity ≠ .library →
        (c.has entity id ↔ ∃ row ∈ c.feed, row.key = (entity, id) ∧ row.op = .upsert) := by
  have htelling := telling_reachable h
  exact ⟨htelling.kept.nodup, htelling.kept.ordered, htelling.kept.le,
    fun entity id hne => htelling.has_iff hne id⟩

theorem feed_of_scanned : scanned.has .artist 20 ∧
    (scanned.feed.map Change.key).Nodup ∧ (scanned.feed.Pairwise fun a b => a.seq < b.seq) ∧
      (∀ row ∈ scanned.feed, row.seq ≤ scanned.lastSeq) ∧
      ∀ entity id, entity ≠ .library →
        (scanned.has entity id ↔ ∃ row ∈ scanned.feed, row.key = (entity, id) ∧ row.op = .upsert) :=
  ⟨List.mem_map.mpr ⟨_, List.mem_singleton.mpr rfl, rfl⟩, feed_of_reachable reachable_scanned⟩

/-- What the feed says past where it stood is the net effect of every transaction since: a track, album,
artist or tag is there exactly when its change says so, or when it was and has none. -/
theorem net_effect_of_later (h : Reachable rules c) (hl : Later rules c c') {entity : Entity}
    (hne : entity ≠ .library) (id : Id) :
    c'.has entity id ↔
      (∃ row ∈ c'.feed, c.lastSeq < row.seq ∧ row.key = (entity, id) ∧ row.op = .upsert) ∨
        (c.has entity id ∧ ∀ row ∈ c'.feed, c.lastSeq < row.seq → row.key ≠ (entity, id)) := by
  have htelling := telling_reachable h
  have htelling' := telling_reachable (later_reachable h hl)
  have hnet := Coalesced.net_effect htelling.kept htelling'.kept (feeds_later h hl) htelling.keys
    htelling'.keys (k := (entity, id)) hne
  exact hnet

theorem net_effect_of_analysed : (scanned.storeAnalysis 10 11).has .track 10 ↔
    (∃ row ∈ (scanned.storeAnalysis 10 11).feed, scanned.lastSeq < row.seq ∧
        row.key = (.track, 10) ∧ row.op = .upsert) ∨
      (scanned.has .track 10 ∧ ∀ row ∈ (scanned.storeAnalysis 10 11).feed,
        scanned.lastSeq < row.seq → row.key ≠ (.track, 10)) :=
  net_effect_of_later reachable_scanned (.write 11 (.analysis 10) (.refl scanned) rfl) (by decide) 10

end Catalog

end JewelCase.Content

/-!
## What the feed's head stands for

A transaction either records something in the library's feed, or leaves what its tracks, albums and
artists carry of tags as it was. So while the head of the feed stays, so does what is read of tags.
-/
namespace JewelCase.Content

set_option autoImplicit false

open Library

namespace Catalog

variable {c c' c'' : Catalog} {rules : Rules} {now : Int}

/-- What tracks, their albums and their artists carry of tags is as it was. -/
structure Quiet (c c' : Catalog) : Prop where
  tracks : c'.tracks = c.tracks
  credits : c'.trackArtists = c.trackArtists
  tags : ∀ track tag, tag ∈ c'.tagsOf track ↔ tag ∈ c.tagsOf track
  types : ∀ k, k ∈ c'.tagTypes ↔ k ∈ c.tagTypes

theorem Quiet.refl (c : Catalog) : Quiet c c := ⟨rfl, rfl, fun _ _ => Iff.rfl, fun _ => Iff.rfl⟩

theorem Quiet.trans (h : Quiet c c') (h' : Quiet c' c'') : Quiet c c'' where
  tracks := h'.tracks.trans h.tracks
  credits := h'.credits.trans h.credits
  tags := fun track tag => (h'.tags track tag).trans (h.tags track tag)
  types := fun k => (h'.types k).trans (h.types k)

/-- The tracks of a transaction so far left tags as they were, but for new ones it touched. -/
structure Still (s s' : Catalog × Touched) : Prop where
  tracks : s'.1.tracks = s.1.tracks
  credits : s'.1.trackArtists = s.1.trackArtists
  tags : ∀ track tag, tag ∈ s'.1.tagsOf track ↔ tag ∈ s.1.tagsOf track
  types : ∀ k ∈ s.1.tagTypes, k ∈ s'.1.tagTypes
  grows : Grows s'.2.tags (s.1.tags.map Tag.id) (s'.1.tags.map Tag.id)

theorem Still.refl (s : Catalog × Touched) : Still s s :=
  ⟨rfl, rfl, fun _ _ => Iff.rfl, fun _ hk => hk, .refl _ _⟩

theorem mem_tagTypes {id : Id} {type : Text} :
    (id, type) ∈ c.tagTypes ↔ ∃ t ∈ c.tags, t.id = id ∧ t.type = type := by
  unfold tagTypes
  rw [List.mem_map]
  exact exists_congr fun t => and_congr_right fun _ => Prod.mk_inj

theorem Still.quiet {s s' : Catalog × Touched} (h : Still s s') (hl : s'.1.Linked)
    (hnone : s'.2.tags = []) : Quiet s.1 s'.1 := by
  refine ⟨h.tracks, h.credits, h.tags, fun k => ⟨fun hk => ?_, h.types k⟩⟩
  obtain ⟨t, ht, hid, htype⟩ := mem_tagTypes.mp hk
  have hrow := (h.grows.added t.id (List.mem_map_of_mem ht)).resolve_right (by
    rw [hnone]
    exact List.not_mem_nil)
  obtain ⟨u, hu, hsame⟩ := List.mem_map.mp hrow
  obtain ⟨v, hv, hvid, hvtype⟩ := mem_tagTypes.mp (h.types _ (mem_tagTypes.mpr ⟨u, hu, rfl, rfl⟩))
  have heq := List.inj_on_of_nodup_map hl.tags hv ht (hvid.trans hsame)
  exact mem_tagTypes.mpr ⟨u, hu, hsame.trans hid, hvtype.symm.trans (heq ▸ htype)⟩

/-- Each of a transaction's tracks is recorded, or leaves tags as they were. -/
theorem Outcomes.loud {s s' : Catalog × Touched} (ho : Outcomes now s s')
    (h : Telling s.1 s.2.owing) : Loud s.1 s'.1 ∨ Still s s' := by
  induction ho with
  | refl => exact Or.inr (.refl s)
  | @step s' s'' ho hstep ih =>
    have hbefore := ho.tells h
    have hfeeds := (hstep.telling hbefore.telling).2
    cases hstep with
    | same => exact ih
    | @unrecorded track c' touched wrote tracks credits tags types =>
      refine ih.imp (fun hloud => hloud.until hbefore.telling.kept hfeeds) fun hstill => ?_
      exact ⟨tracks.trans hstill.tracks, credits.trans hstill.credits,
        fun track tag => (tags track tag).trans (hstill.tags track tag),
        fun k hk => types k (hstill.types k hk),
        (hstill.grows.within wrote.within.tags).trans wrote.writes.tags⟩
    | @recorded track c' touched op wrote there =>
      have hwritten : Feeds s'.1 c' := .of_eq wrote.writes.feed wrote.writes.lastSeq
      exact Or.inl (loud_record (hbefore.feeds.trans hwritten) .track track op)

/-- A batch or a purge makes the feed speak, or leaves what is carried. -/
theorem Settled.loud_transacted (hs : c.Settled) (h : Telling c Touched.none.owing)
    (ht : Transacted rules now c c') : Loud c c' ∨ Quiet c c' := by
  obtain ⟨order, s, houtcomes, hrest⟩ := ht.written
  have hwritten := houtcomes.tells h
  have hready := houtcomes.ready hs.ready
  obtain ⟨htells, hdone⟩ := hready.whole.tells_recompute (hwritten.telling.ordered order) hrest
  rcases hdone with ⟨hnone, rfl⟩ | hloud
  · refine (houtcomes.loud h).imp_right fun hstill => hstill.quiet hready.whole.consistent.linked ?_
    exact List.eq_nil_iff_forall_not_mem.mpr fun id hid => by
      have hmem := (order.perm s.2.tags).mem_iff.mpr hid
      rw [show order.run s.2.tags = [] from hnone] at hmem
      cases hmem
  · exact Or.inl (hloud.after hwritten.feeds)

theorem Settled.loud_write (hs : c.Settled) (h : Telling c Touched.none.owing) {w : Write}
    (hc' : c.write rules now w = some c') : Loud c c' ∨ Quiet c c' := by
  cases w with
  | batch order batch => exact hs.loud_transacted h (hs.applyBatch hc')
  | purge order ids => exact hs.loud_transacted h (hs.purge hc')
  | analysis id =>
    rw [← Option.some.inj hc']
    unfold storeAnalysis
    cases c.albumOf id with
    | none => exact Or.inr (.refl c)
    | some album =>
      have hfirst : Feeds c (c.record .album album .upsert now) :=
        (Feeds.of_eq rfl rfl).record .album album .upsert
      exact Or.inl (loud_record hfirst .track id .upsert)
  | placeholder image made =>
    obtain ⟨feed, lastSeq, he⟩ := c.storePlaceholder_eq image made now
    rw [← Option.some.inj hc', he]
    exact Or.inr ⟨rfl, rfl, fun _ _ => Iff.rfl, fun _ => Iff.rfl⟩
  | createPlaylist playlist =>
    have hmade : c.createPlaylist playlist = some c' := hc'
    unfold createPlaylist at hmade
    split at hmade
    · cases hmade
    · rw [← Option.some.inj hmade]
      exact Or.inr ⟨rfl, rfl, fun _ _ => Iff.rfl, fun _ => Iff.rfl⟩
  | setItems playlist tracks =>
    have hset : c.setItems playlist tracks = some c' := hc'
    unfold setItems at hset
    split at hset
    · rw [← Option.some.inj hset]
      exact Or.inr ⟨rfl, rfl, fun _ _ => Iff.rfl, fun _ => Iff.rfl⟩
    · cases hset
  | deletePlaylist playlist =>
    rw [← Option.some.inj hc']
    exact Or.inr ⟨rfl, rfl, fun _ _ => Iff.rfl, fun _ => Iff.rfl⟩
  | elsewhere changes =>
    rw [← Option.some.inj hc']
    exact Or.inr ⟨rfl, rfl, fun _ _ => Iff.rfl, fun _ => Iff.rfl⟩

theorem loud_later (h : Reachable rules c) (hl : Later rules c c') : Loud c c' ∨ Quiet c c' := by
  induction hl with
  | refl => exact Or.inr (.refl _)
  | write now w hlater hw ih =>
    have hreachable := later_reachable h hlater
    have hsettled := settled_reachable hreachable
    have htelling := telling_reachable hreachable
    have hfeeds := (hsettled.tells_write htelling hw).feeds
    rcases ih with hloud | hquiet
    · exact Or.inl (hloud.until htelling.kept hfeeds)
    · exact (hsettled.loud_write htelling hw).imp (fun hloud => hloud.after (feeds_later h hlater))
        hquiet.trans

/-! ### The head -/

theorem foldl_max_le_iff {α : Type} {f : α → Nat} {rows : List α} {least n : Nat} :
    rows.foldl (fun head row => max head (f row)) least ≤ n ↔ least ≤ n ∧ ∀ row ∈ rows, f row ≤ n := by
  induction rows generalizing least with
  | nil => exact (and_iff_left fun _ hrow => absurd hrow List.not_mem_nil).symm
  | cons row rows ih =>
    rw [List.foldl_cons, ih, List.forall_mem_cons, Nat.max_le, and_assoc]

theorem le_head {row : Change} (hrow : row ∈ c.feed) : row.seq ≤ c.head :=
  (foldl_max_le_iff.mp (Nat.le_refl c.head)).2 row hrow

/-- The head is a position that was given out. -/
theorem head_le (h : Reachable rules c) : c.head ≤ c.lastSeq :=
  foldl_max_le_iff.mpr ⟨Nat.zero_le _, (telling_reachable h).kept.le⟩

/-- While the head of a library's feed stays, so does what its tracks carry of tags. -/
theorem quiet_of_head (h : Reachable rules c) (hl : Later rules c c') (hhead : c'.head = c.head) :
    Quiet c c' := by
  refine (loud_later h hl).resolve_left fun ⟨row, hrow, hlt⟩ => ?_
  have hbefore := head_le h
  have hafter := le_head hrow
  omega

end Catalog

end JewelCase.Content
