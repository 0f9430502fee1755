import JewelCase.Content.TrackUpdate

/-!
# Artists, albums and tags inserted and deleted

A row that nothing refers to counts nothing, so it comes and goes without a trace in the count tables.
-/
namespace JewelCase.Content

set_option autoImplicit false

open Library

namespace Catalog

variable {c c' : Catalog}

/-! ### Inserted -/

/-- What no track counts under recounts to nothing. -/
theorem recount_zero {κ V : Type} [Tally.Amount V] {w : Filed → κ → V} {k : κ}
    (h : ∀ t ∈ c.tracks, w (c.file t) k = 0) : Tally.recount w c.filed k = 0 := by
  unfold Tally.recount filed
  rw [List.map_map]
  have hzero : c.tracks.map ((fun v => w v k) ∘ c.file) = c.tracks.map fun _ => 0 :=
    List.map_congr_left h
  rw [hzero]
  induction c.tracks with
  | nil => rfl
  | cons t ts ih => rw [List.map_cons, List.sum_cons, ih, zero_add]

theorem not_mem_artists_of {artist : Id} (h : ∀ r ∈ c.trackArtists, r.artist ≠ artist) (t : Track) :
    artist ∉ (c.file t).artists := by
  intro hmem
  obtain ⟨r, hr, hartist⟩ := List.mem_map.mp hmem
  exact h r (List.mem_filter.mp hr).1 hartist

theorem not_mem_tagIds_of {tag : Id} (h : ∀ r ∈ c.trackTags, r.tag ≠ tag) (t : Track) :
    tag ∉ (c.file t).tagIds := by
  intro hmem
  obtain ⟨r, hr, htag⟩ := List.mem_map.mp hmem
  exact h r (List.mem_filter.mp hr).1 htag

theorem nodup_insert {α : Type} {key : α → Id} {rows : List α} (h : (rows.map key).Nodup) {x : α}
    (hnew : ¬ (rows.any fun held => decide (key held = key x)) = true) :
    ((rows ++ [x]).map key).Nodup := by
  rw [List.map_append]
  refine List.nodup_append.mpr ⟨h, List.nodup_singleton _, ?_⟩
  intro k hk k' hk' heq
  obtain ⟨held, hheld, rfl⟩ := List.mem_map.mp hk
  rw [List.map_singleton, List.mem_singleton] at hk'
  exact hnew (List.any_eq_true.mpr ⟨held, hheld, decide_eq_true (heq.trans hk')⟩)

theorem exists_append {α : Type} {p : α → Prop} {rows more : List α} (h : ∃ x ∈ rows, p x) :
    ∃ x ∈ rows ++ more, p x := by
  obtain ⟨x, hx, hp⟩ := h
  exact ⟨x, List.mem_append_left _ hx, hp⟩

/-- A new artist of no tracks keeps the counts. -/
theorem Consistent.insertArtist (h : c.Consistent) {a : Artist}
    (hcounts : a.counts = (a.id, 0, 0, 0)) (hc' : c.insertArtist a = some c') : c'.Consistent := by
  unfold Catalog.insertArtist at hc'
  split at hc'
  · cases hc'
  rename_i hany
  rw [← Option.some.inj hc']
  have hnew : ∀ {id : Id}, (∃ held ∈ c.artists, held.id = id) → id ≠ a.id := by
    rintro id ⟨held, hheld, rfl⟩ hid
    exact hany (List.any_eq_true.mpr ⟨held, hheld, decide_eq_true hid⟩)
  have hcredits : ∀ r ∈ c.trackArtists, r.artist ≠ a.id := fun r hr =>
    hnew (h.linked.creditRows r hr)
  obtain ⟨_, hrest⟩ := Prod.ext_iff.mp hcounts
  obtain ⟨halbums, hrest⟩ := Prod.ext_iff.mp hrest
  obtain ⟨htracks, havailable⟩ := Prod.ext_iff.mp hrest
  refine ⟨⟨h.tallied.albumGroups, h.tallied.albumCredits, h.tallied.albumTags, h.tallied.artistTags,
    h.tallied.artistSpellings, h.tallied.artistSortKeys, h.tallied.tagSpellings⟩, ?_, ?_⟩
  · exact
      { tracks := h.counted.tracks
        albums := h.counted.albums
        artists := by
          change c.totals.artistCount + 1 = ((c.artists ++ [a]).length : Int)
          rw [List.length_append, List.length_singleton, h.counted.artists]
          omega
        duration := h.counted.duration
        artistTracks := fun held hheld => by
          rcases List.mem_append.mp hheld with hheld | hheld
          · exact h.counted.artistTracks held hheld
          · rw [List.mem_singleton.mp hheld]
            refine Eq.trans htracks (recount_zero fun t _ => ?_).symm
            change one (decide (a.id ∈ (c.file t).artists)) = 0
            rw [decide_eq_false (not_mem_artists_of hcredits t), one_false]
        artistAvailable := fun held hheld => by
          rcases List.mem_append.mp hheld with hheld | hheld
          · exact h.counted.artistAvailable held hheld
          · rw [List.mem_singleton.mp hheld]
            refine Eq.trans havailable (recount_zero fun t _ => ?_).symm
            change one (decide (a.id ∈ (c.file t).artists) && t.present) = 0
            rw [decide_eq_false (not_mem_artists_of hcredits t), Bool.false_and, one_false]
        artistAlbums := fun held hheld => by
          rcases List.mem_append.mp hheld with hheld | hheld
          · exact h.counted.artistAlbums held hheld
          · rw [List.mem_singleton.mp hheld]
            refine Eq.trans halbums (congrArg Nat.cast (List.countP_eq_zero.mpr ?_).symm)
            intro r hr hartist
            exact hnew (h.linked.albumArtistRows r hr) (of_decide_eq_true hartist)
        tagTracks := h.counted.tagTracks
        tagAlbums := h.counted.tagAlbums
        tagArtists := h.counted.tagArtists }
  · exact
      { h.linked with
        artists := nodup_insert h.linked.artists hany
        creditRows := fun r hr => exists_append (h.linked.creditRows r hr)
        listingRows := fun r hr => exists_append (h.linked.listingRows r hr)
        listedRows := fun t ht artist hartist =>
          exists_append (h.linked.listedRows t ht artist hartist)
        albumArtistRows := fun r hr => exists_append (h.linked.albumArtistRows r hr) }

/-- A new album keeps the counts. -/
theorem Consistent.insertAlbum (h : c.Consistent) {a : Album} (hc' : c.insertAlbum a = some c') :
    c'.Consistent := by
  unfold Catalog.insertAlbum at hc'
  split at hc'
  · cases hc'
  rename_i hany
  rw [← Option.some.inj hc']
  refine ⟨⟨h.tallied.albumGroups, h.tallied.albumCredits, h.tallied.albumTags, h.tallied.artistTags,
    h.tallied.artistSpellings, h.tallied.artistSortKeys, h.tallied.tagSpellings⟩, ?_, ?_⟩
  · exact
      { h.counted with
        albums := by
          change c.totals.albumCount + 1 = ((c.albums ++ [a]).length : Int)
          rw [List.length_append, List.length_singleton, h.counted.albums]
          omega }
  · exact
      { h.linked with
        albums := nodup_insert h.linked.albums hany
        albumRows := fun t ht => exists_append (h.linked.albumRows t ht)
        artistAlbums := fun r hr => exists_append (h.linked.artistAlbums r hr) }

/-- A key that no track counts under has no row. -/
theorem not_mem_keys {κ V : Type} [DecidableEq κ] [Tally.Amount V] {w : Filed → κ → V}
    {t : Tally.Table κ V} (h : Tally.Exact t (Tally.recount w c.filed)) {k : κ}
    (hzero : ∀ t ∈ c.tracks, w (c.file t) k = 0) : k ∉ t.map Prod.fst := by
  rw [h.mem, recount_zero hzero, Tally.size_zero]
  exact fun hne => hne rfl

theorem taggedOnAlbum_zero {tag : Id} (h : ∀ r ∈ c.trackTags, r.tag ≠ tag) (album : Id) (t : Track) :
    (c.file t).taggedOnAlbum (album, tag) = 0 := by
  unfold Filed.taggedOnAlbum
  rw [decide_eq_false fun hk => not_mem_tagIds_of h t hk.2, one_false]

theorem taggedByArtist_zero {tag : Id} (h : ∀ r ∈ c.trackTags, r.tag ≠ tag) (artist : Id)
    (t : Track) : (c.file t).taggedByArtist (artist, tag) = 0 := by
  unfold Filed.taggedByArtist
  rw [decide_eq_false fun hk => not_mem_tagIds_of h t hk.2, one_false]

theorem held_zero {links : Tally.Table (Id × Id) Int} {tag : Id}
    (h : ∀ id, (id, tag) ∉ links.map Prod.fst) : held links tag = 0 := by
  unfold held
  refine congrArg Nat.cast (List.countP_eq_zero.mpr ?_)
  intro k hk htag
  have hkey : k = (k.1, tag) := Prod.ext rfl (of_decide_eq_true htag)
  exact h k.1 (hkey ▸ hk)

/-- A new tag of no tracks keeps the counts. -/
theorem Consistent.insertTag (h : c.Consistent) {tag : Tag}
    (hcounts : tag.counts = (tag.id, 0, 0, 0)) (hc' : c.insertTag tag = some c') :
    c'.Consistent := by
  unfold Catalog.insertTag at hc'
  split at hc'
  · cases hc'
  rename_i hany
  rw [← Option.some.inj hc']
  have hlinks : ∀ r ∈ c.trackTags, r.tag ≠ tag.id := by
    intro r hr hid
    obtain ⟨held, hheld, htag⟩ := h.linked.tagRows r hr
    exact hany (List.any_eq_true.mpr ⟨held, hheld, decide_eq_true (htag.trans hid)⟩)
  obtain ⟨_, hrest⟩ := Prod.ext_iff.mp hcounts
  obtain ⟨htracks, hrest⟩ := Prod.ext_iff.mp hrest
  obtain ⟨halbums, hartists⟩ := Prod.ext_iff.mp hrest
  refine ⟨⟨h.tallied.albumGroups, h.tallied.albumCredits, h.tallied.albumTags, h.tallied.artistTags,
    h.tallied.artistSpellings, h.tallied.artistSortKeys, h.tallied.tagSpellings⟩, ?_, ?_⟩
  · exact
      { h.counted with
        tagTracks := fun held hheld => by
          rcases List.mem_append.mp hheld with hheld | hheld
          · exact h.counted.tagTracks held hheld
          · rw [List.mem_singleton.mp hheld]
            refine Eq.trans htracks (recount_zero fun t _ => ?_).symm
            change one (decide (tag.id ∈ (c.file t).tagIds)) = 0
            rw [decide_eq_false (not_mem_tagIds_of hlinks t), one_false]
        tagAlbums := fun held hheld => by
          rcases List.mem_append.mp hheld with hheld | hheld
          · exact h.counted.tagAlbums held hheld
          · rw [List.mem_singleton.mp hheld]
            refine Eq.trans halbums (held_zero fun album => ?_).symm
            exact not_mem_keys h.tallied.albumTags fun t _ => taggedOnAlbum_zero hlinks album t
        tagArtists := fun held hheld => by
          rcases List.mem_append.mp hheld with hheld | hheld
          · exact h.counted.tagArtists held hheld
          · rw [List.mem_singleton.mp hheld]
            refine Eq.trans hartists (held_zero fun artist => ?_).symm
            exact not_mem_keys h.tallied.artistTags fun t _ => taggedByArtist_zero hlinks artist t }
  · exact
      { h.linked with
        tags := nodup_insert h.linked.tags hany
        tagRows := fun r hr => exists_append (h.linked.tagRows r hr) }

/-! ### Deleted -/

/-- Rows of keys that nothing counts under are not there to delete. -/
theorem filter_keys {κ V : Type} {t : Tally.Table κ V} {p : κ → Bool}
    (h : ∀ k ∈ t.map Prod.fst, p k = true) : (t.filter fun row => p row.1) = t :=
  List.filter_eq_self.mpr fun _ hrow => h _ (List.mem_map_of_mem hrow)

theorem filter_keys_nil {κ V : Type} {t : Tally.Table κ V} {p : κ → Bool}
    (h : ∀ k ∈ t.map Prod.fst, p k = false) : (t.map Prod.fst).filter p = [] :=
  List.filter_eq_nil_iff.mpr fun k hk => by rw [h k hk]; exact Bool.false_ne_true

/-- No track credits or lists the artist. -/
structure Uncredited (c : Catalog) (artist : Id) : Prop where
  credits : ∀ r ∈ c.trackArtists, r.artist ≠ artist
  listings : ∀ r ∈ c.trackAlbumArtists, r.artist ≠ artist
  listed : ∀ t ∈ c.tracks, artist ∉ t.albumArtistIds

/-- Nothing spells the name of an artist that no track credits or lists. -/
theorem spells_zero {artist : Id} (h : Uncredited c artist) (name : Text) (t : Track) :
    (c.file t).spells (artist, name) = 0 := by
  unfold Filed.spells
  rw [List.countP_eq_zero.mpr, List.countP_eq_zero.mpr]
  · rfl
  · intro r hr hk
    exact h.listings r (List.mem_filter.mp hr).1 (of_decide_eq_true hk).1
  · intro r hr hk
    exact h.credits r (List.mem_filter.mp hr).1 (of_decide_eq_true hk).1

theorem firstOf_ne {track artist : Id} {rows : List Credit} (h : ∀ r ∈ rows, r.artist ≠ artist) :
    Filed.firstOf track rows ≠ some artist := by
  intro hfirst
  obtain ⟨r, hr, hartist⟩ := Option.map_eq_some_iff.mp hfirst
  unfold Keyed.find at hr
  exact h r (List.mem_of_find?_eq_some hr) hartist

theorem sorts_zero {artist : Id} (h : Uncredited c artist) (key : SortKey) (t : Track) :
    (c.file t).sorts (artist, key) = 0 := by
  unfold Filed.sorts
  rw [decide_eq_false, decide_eq_false, one_false]
  · rfl
  · exact fun hk => firstOf_ne (fun r hr => h.listings r (List.mem_filter.mp hr).1) hk.1
  · exact fun hk => firstOf_ne (fun r hr => h.credits r (List.mem_filter.mp hr).1) hk.1

theorem onAlbum_zero {artist : Id} (h : Uncredited c artist) (album : Id) (t : Track) :
    (c.file t).onAlbum (album, artist) = 0 := by
  unfold Filed.onAlbum
  rw [decide_eq_false fun hk => not_mem_artists_of h.credits t hk.2, one_false]

theorem taggedByArtist_uncredited {artist : Id} (h : Uncredited c artist) (tag : Id) (t : Track) :
    (c.file t).taggedByArtist (artist, tag) = 0 := by
  unfold Filed.taggedByArtist
  rw [decide_eq_false fun hk => not_mem_artists_of h.credits t hk.1, one_false]

/-- The catalog without an artist's row. -/
def withoutArtist (c : Catalog) (artist : Id) : Catalog :=
  { c with
    artists := Keyed.without Artist.id c.artists artist
    albumArtists := c.albumArtists.filter fun r => decide (r.artist ≠ artist)
    totals := { c.totals with
      artistCount := c.totals.artistCount - 1
      namesVersion := c.totals.namesVersion + 1 } }

/-- A key of some pairs is not one of an entity that nothing counts under. -/
theorem ne_of_not_mem {α β : Type} {ks : List (α × β)} {a : α} (h : ∀ b, (a, b) ∉ ks) :
    ∀ k ∈ ks, k.1 ≠ a := by
  rintro k hk rfl
  exact h k.2 hk

theorem ne_of_not_mem_snd {α β : Type} {ks : List (α × β)} {b : β} (h : ∀ a, (a, b) ∉ ks) :
    ∀ k ∈ ks, k.2 ≠ b := by
  rintro k hk rfl
  exact h k.1 hk

/-- The cascade of an artist's deletion finds no count row of one that no track credits. -/
theorem deleteArtist_eq (h : c.Tallied) {artist : Id} (hu : Uncredited c artist)
    (hheld : (c.artists.any fun a => decide (a.id = artist)) = true) :
    c.deleteArtist artist = c.withoutArtist artist := by
  have hcredits := ne_of_not_mem_snd fun album =>
    not_mem_keys h.albumCredits fun t _ => onAlbum_zero hu album t
  have htags := ne_of_not_mem fun tag =>
    not_mem_keys h.artistTags fun t _ => taggedByArtist_uncredited hu tag t
  have hspellings := ne_of_not_mem fun name =>
    not_mem_keys h.artistSpellings fun t _ => spells_zero hu name t
  have hkeys := ne_of_not_mem fun key =>
    not_mem_keys h.artistSortKeys fun t _ => sorts_zero hu key t
  unfold deleteArtist
  rw [if_pos hheld, filter_keys_nil fun k hk => decide_eq_false (htags k hk), List.foldl_nil]
  dsimp only
  rw [filter_keys (p := fun k => decide (k.2 ≠ artist)) fun k hk => decide_eq_true (hcredits k hk),
    filter_keys (p := fun k => decide (k.1 ≠ artist)) fun k hk => decide_eq_true (htags k hk),
    filter_keys (p := fun k => decide (k.1 ≠ artist)) fun k hk => decide_eq_true (hspellings k hk),
    filter_keys (p := fun k => decide (k.1 ≠ artist)) fun k hk => decide_eq_true (hkeys k hk)]
  rfl

theorem length_without {α : Type} {key : α → Id} {rows : List α} (h : (rows.map key).Nodup) {id : Id}
    (hheld : (rows.any fun x => decide (key x = id)) = true) :
    ((Keyed.without key rows id).length : Int) = rows.length - 1 := by
  obtain ⟨x, hx, hid⟩ := List.any_eq_true.mp hheld
  have hid' := of_decide_eq_true hid
  have hperm := (Filed.perm_without h hx).length_eq
  rw [hid', List.length_append, List.length_singleton] at hperm
  omega

theorem exists_without {α : Type} {key : α → Id} {rows : List α} {id id' : Id}
    (h : ∃ x ∈ rows, key x = id') (hne : id' ≠ id) : ∃ x ∈ Keyed.without key rows id, key x = id' := by
  obtain ⟨x, hx, rfl⟩ := h
  exact ⟨x, Keyed.mem_without.mpr ⟨hx, hne⟩, rfl⟩

/-- Deleting an artist that no track credits or lists keeps the counts. -/
theorem Consistent.deleteArtist (h : c.Consistent) {artist : Id} (hu : Uncredited c artist) :
    (c.deleteArtist artist).Consistent := by
  by_cases hheld : (c.artists.any fun a => decide (a.id = artist)) = true
  · rw [deleteArtist_eq h.tallied hu hheld]
    refine ⟨⟨h.tallied.albumGroups, h.tallied.albumCredits, h.tallied.albumTags,
      h.tallied.artistTags, h.tallied.artistSpellings, h.tallied.artistSortKeys,
      h.tallied.tagSpellings⟩, ?_, ?_⟩
    · exact
        { h.counted with
          artists := by
            change c.totals.artistCount - 1 = _
            rw [h.counted.artists]
            exact (length_without h.linked.artists hheld).symm
          artistTracks := fun a ha => h.counted.artistTracks a (Keyed.mem_without.mp ha).1
          artistAvailable := fun a ha => h.counted.artistAvailable a (Keyed.mem_without.mp ha).1
          artistAlbums := fun a ha => by
            obtain ⟨ha, hne⟩ := Keyed.mem_without.mp ha
            rw [h.counted.artistAlbums a ha]
            change _ = ((c.albumArtists.filter _).countP _ : Int)
            rw [List.countP_filter]
            congr 1
            apply List.countP_congr
            intro r _
            simp only [Bool.and_eq_true, decide_eq_true_eq]
            exact ⟨fun hr => ⟨hr, fun hr' => hne (hr.symm.trans hr')⟩, fun hr => hr.1⟩ }
    · exact
        { h.linked with
          artists := Keyed.nodup_without h.linked.artists artist
          albumArtists := h.linked.albumArtists.sublist (List.filter_sublist.map _)
          creditRows := fun r hr => exists_without (h.linked.creditRows r hr) (hu.credits r hr)
          listingRows := fun r hr => exists_without (h.linked.listingRows r hr) (hu.listings r hr)
          listedRows := fun t ht a ha =>
            exists_without (h.linked.listedRows t ht a ha) fun heq => hu.listed t ht (heq ▸ ha)
          albumArtistRows := fun r hr => by
            obtain ⟨hr, hne⟩ := List.mem_filter.mp hr
            exact exists_without (h.linked.albumArtistRows r hr) (of_decide_eq_true hne)
          artistAlbums := fun r hr => h.linked.artistAlbums r (List.mem_filter.mp hr).1 }
  · unfold Catalog.deleteArtist
    rw [if_neg hheld]
    exact h

/-- The cascade of a tag's deletion finds no count row of one that no track carries. -/
theorem deleteTag_eq (h : c.Tallied) {tag : Id} (hu : ∀ r ∈ c.trackTags, r.tag ≠ tag)
    (hheld : (c.tags.any fun t => decide (t.id = tag)) = true) :
    c.deleteTag tag = { c with tags := Keyed.without Tag.id c.tags tag } := by
  have halbums := ne_of_not_mem_snd fun album =>
    not_mem_keys h.albumTags fun t _ => taggedOnAlbum_zero hu album t
  have hartists := ne_of_not_mem_snd fun artist =>
    not_mem_keys h.artistTags fun t _ => taggedByArtist_zero hu artist t
  have hspellings := ne_of_not_mem fun name =>
    not_mem_keys (k := (tag, name)) h.tagSpellings fun t _ => by
      unfold Filed.spellsTag
      refine congrArg Nat.cast (List.countP_eq_zero.mpr ?_)
      intro r hr hk
      exact hu r (List.mem_filter.mp hr).1 (of_decide_eq_true hk).1
  unfold deleteTag
  rw [if_pos hheld]
  rw [filter_keys (p := fun k => decide (k.2 ≠ tag)) fun k hk => decide_eq_true (halbums k hk),
    filter_keys (p := fun k => decide (k.2 ≠ tag)) fun k hk => decide_eq_true (hartists k hk),
    filter_keys (p := fun k => decide (k.1 ≠ tag)) fun k hk => decide_eq_true (hspellings k hk)]

/-- Deleting a tag that no track carries keeps the counts. -/
theorem Consistent.deleteTag (h : c.Consistent) {tag : Id} (hu : ∀ r ∈ c.trackTags, r.tag ≠ tag) :
    (c.deleteTag tag).Consistent := by
  by_cases hheld : (c.tags.any fun t => decide (t.id = tag)) = true
  · rw [deleteTag_eq h.tallied hu hheld]
    refine ⟨⟨h.tallied.albumGroups, h.tallied.albumCredits, h.tallied.albumTags,
      h.tallied.artistTags, h.tallied.artistSpellings, h.tallied.artistSortKeys,
      h.tallied.tagSpellings⟩, ?_, ?_⟩
    · exact
        { h.counted with
          tagTracks := fun t ht => h.counted.tagTracks t (Keyed.mem_without.mp ht).1
          tagAlbums := fun t ht => h.counted.tagAlbums t (Keyed.mem_without.mp ht).1
          tagArtists := fun t ht => h.counted.tagArtists t (Keyed.mem_without.mp ht).1 }
    · exact
        { h.linked with
          tags := Keyed.nodup_without h.linked.tags tag
          tagRows := fun r hr => exists_without (h.linked.tagRows r hr) (hu r hr) }
  · unfold Catalog.deleteTag
    rw [if_neg hheld]
    exact h

/-! ### Artists of albums -/

/-- An artist of an album counts the album once, however often it is written. -/
theorem Consistent.insertAlbumArtist (h : c.Consistent) {r : AlbumArtist}
    (ha : ∃ a ∈ c.artists, a.id = r.artist) (hb : ∃ a ∈ c.albums, a.id = r.album) :
    (c.insertAlbumArtist r).Consistent := by
  unfold Catalog.insertAlbumArtist
  split
  · exact h
  rename_i hany
  have hnew : ∀ held ∈ c.albumArtists, held.key ≠ r.key := by
    intro held hheld hkey
    obtain ⟨halbum, hposition⟩ := Prod.ext_iff.mp hkey
    exact hany (List.any_eq_true.mpr ⟨held, hheld, decide_eq_true ⟨halbum, Or.inl hposition⟩⟩)
  refine ⟨⟨h.tallied.albumGroups, h.tallied.albumCredits, h.tallied.albumTags, h.tallied.artistTags,
    h.tallied.artistSpellings, h.tallied.artistSortKeys, h.tallied.tagSpellings⟩, ?_, ?_⟩
  · exact
      { h.counted with
        artists := by
          change c.totals.artistCount = ((c.artists.map _).length : Int)
          rw [List.length_map, h.counted.artists]
        artistTracks := fun a' ha' => by
          obtain ⟨a, ha, rfl⟩ := List.mem_map.mp ha'
          split <;> exact h.counted.artistTracks a ha
        artistAvailable := fun a' ha' => by
          obtain ⟨a, ha, rfl⟩ := List.mem_map.mp ha'
          split <;> exact h.counted.artistAvailable a ha
        artistAlbums := fun a' ha' => by
          obtain ⟨a, ha, rfl⟩ := List.mem_map.mp ha'
          change _ = ((c.albumArtists ++ [r]).countP _ : Int)
          rw [Filed.countP_append_one]
          by_cases hid : a.id = r.artist
          · rw [if_pos hid]
            dsimp only
            rw [h.counted.artistAlbums a ha, decide_eq_true hid.symm, one_true]
          · rw [if_neg hid, h.counted.artistAlbums a ha, decide_eq_false fun heq => hid heq.symm,
              one_false, Int.add_zero] }
  · rw [← linked_bare, bare_countArtistAlbums, linked_bare]
    exact
      { h.linked with
        albumArtists := by
          rw [List.map_append]
          refine List.nodup_append.mpr ⟨h.linked.albumArtists, List.nodup_singleton _, ?_⟩
          intro k hk k' hk' heq
          obtain ⟨held, hheld, rfl⟩ := List.mem_map.mp hk
          rw [List.map_singleton, List.mem_singleton] at hk'
          exact hnew held hheld (heq.trans hk')
        albumArtistRows := fun held hheld => by
          rcases List.mem_append.mp hheld with hheld | hheld
          · exact h.linked.albumArtistRows held hheld
          · rw [List.mem_singleton.mp hheld]
            exact ha
        artistAlbums := fun held hheld => by
          rcases List.mem_append.mp hheld with hheld | hheld
          · exact h.linked.artistAlbums held hheld
          · rw [List.mem_singleton.mp hheld]
            exact hb }

/-- An artist taken off an album has one album less. -/
theorem Consistent.deleteAlbumArtist (h : c.Consistent) {r : AlbumArtist}
    (hr : r ∈ c.albumArtists) : (c.deleteAlbumArtist r).Consistent := by
  refine ⟨⟨h.tallied.albumGroups, h.tallied.albumCredits, h.tallied.albumTags, h.tallied.artistTags,
    h.tallied.artistSpellings, h.tallied.artistSortKeys, h.tallied.tagSpellings⟩, ?_, ?_⟩
  · exact
      { h.counted with
        artists := by
          change c.totals.artistCount = ((c.artists.map _).length : Int)
          rw [List.length_map, h.counted.artists]
        artistTracks := fun a' ha' => by
          obtain ⟨a, ha, rfl⟩ := List.mem_map.mp ha'
          split <;> exact h.counted.artistTracks a ha
        artistAvailable := fun a' ha' => by
          obtain ⟨a, ha, rfl⟩ := List.mem_map.mp ha'
          split <;> exact h.counted.artistAvailable a ha
        artistAlbums := fun a' ha' => by
          obtain ⟨a, ha, rfl⟩ := List.mem_map.mp ha'
          change _ = ((Keyed.without AlbumArtist.key c.albumArtists r.key).countP _ : Int)
          have hperm := Filed.perm_without h.linked.albumArtists hr
          by_cases hid : a.id = r.artist
          · rw [if_pos hid]
            dsimp only
            rw [h.counted.artistAlbums a ha, hperm.countP_eq, Filed.countP_append_one,
              decide_eq_true hid.symm, one_true]
            omega
          · rw [if_neg hid, h.counted.artistAlbums a ha, hperm.countP_eq, Filed.countP_append_one,
              decide_eq_false fun heq => hid heq.symm, one_false, Int.add_zero] }
  · rw [← linked_bare, bare_deleteAlbumArtist]
    exact (linked_bare.mpr h.linked).fewer
      ⟨rfl, rfl, rfl, rfl, List.Sublist.refl _, List.Sublist.refl _, List.Sublist.refl _,
        List.filter_sublist⟩

/-! ### Albums deleted -/

/-- The catalog without an album's row. -/
def withoutAlbum (c : Catalog) (album : Id) : Catalog :=
  { c with
    albums := Keyed.without Album.id c.albums album
    artists := c.artists.map fun a =>
      { a with albumCount := a.albumCount -
          ((c.albumArtists.filter fun r => decide (r.album = album)).countP
            (fun r => decide (r.artist = a.id)) : Nat) }
    albumArtists := c.albumArtists.filter fun r => decide (r.album ≠ album)
    albumDiscs := c.albumDiscs.filter fun r => decide (r.album ≠ album)
    totals := { c.totals with
      albumCount := c.totals.albumCount - 1
      namesVersion := c.totals.namesVersion + 1 } }

/-- The albums of every artist in some rows are lowered by the rows it has there. -/
theorem foldl_countArtistAlbums (rows : List AlbumArtist) :
    rows.foldl (fun c r => c.countArtistAlbums r.artist (-1)) c =
      { c with artists := c.artists.map fun a =>
          { a with albumCount :=
              a.albumCount - (rows.countP fun r => decide (r.artist = a.id) : Nat) } } := by
  induction rows generalizing c with
  | nil => simp
  | cons r rows ih =>
    rw [List.foldl_cons, ih, countArtistAlbums]
    congr 1
    rw [List.map_map]
    apply List.map_congr_left
    intro a _
    rw [Function.comp_apply]
    by_cases hid : a.id = r.artist
    · rw [if_pos hid]
      dsimp only
      rw [List.countP_cons, hid, decide_eq_true rfl, if_pos rfl]
      congr 1
      omega
    · rw [if_neg hid, List.countP_cons, decide_eq_false fun h : r.artist = a.id => hid h.symm,
        if_neg Bool.false_ne_true, Nat.add_zero]

/-- An album that no track is on has no count row to cascade to, only its discs and its artists'
rows. -/
theorem deleteAlbum_eq (h : c.Tallied) {album : Id} (hu : ∀ t ∈ c.tracks, t.albumId ≠ album)
    (hheld : (c.albums.any fun a => decide (a.id = album)) = true) :
    c.deleteAlbum album = some (c.withoutAlbum album) := by
  have hcredits := ne_of_not_mem fun artist => not_mem_keys (k := (album, artist)) h.albumCredits
    fun t ht => by
      unfold Filed.onAlbum
      rw [decide_eq_false fun hk => hu t ht hk.1, one_false]
  have htags := ne_of_not_mem fun tag => not_mem_keys (k := (album, tag)) h.albumTags
    fun t ht => by
      unfold Filed.taggedOnAlbum
      rw [decide_eq_false fun hk => hu t ht hk.1, one_false]
  have hgroups : ∀ k ∈ c.albumGroups.map Prod.fst, k.album ≠ album := by
    intro k hk halbum
    refine not_mem_keys h.albumGroups (fun t ht => ?_) hk
    unfold Filed.inGroup
    rw [if_neg]
    rintro rfl
    exact hu t ht halbum
  have hnone : ¬ (c.tracks.any fun t => decide (t.albumId = album)) = true := by
    intro hany
    obtain ⟨t, ht, halbum⟩ := List.any_eq_true.mp hany
    exact hu t ht (of_decide_eq_true halbum)
  unfold deleteAlbum
  rw [if_pos hheld, if_neg hnone, filter_keys_nil fun k hk => decide_eq_false (htags k hk),
    List.foldl_nil]
  dsimp only
  rw [foldl_countArtistAlbums,
    filter_keys (p := fun k => decide (k.1 ≠ album)) fun k hk => decide_eq_true (hcredits k hk),
    filter_keys (p := fun k => decide (k.1 ≠ album)) fun k hk => decide_eq_true (htags k hk),
    filter_keys (p := fun k => decide (k.album ≠ album)) fun k hk => decide_eq_true (hgroups k hk)]
  rfl

theorem Consistent.withoutAlbum (h : c.Consistent) {album : Id}
    (hu : ∀ t ∈ c.tracks, t.albumId ≠ album)
    (hheld : (c.albums.any fun a => decide (a.id = album)) = true) :
    (c.withoutAlbum album).Consistent := by
  refine ⟨⟨h.tallied.albumGroups, h.tallied.albumCredits, h.tallied.albumTags, h.tallied.artistTags,
    h.tallied.artistSpellings, h.tallied.artistSortKeys, h.tallied.tagSpellings⟩, ?_, ?_⟩
  · exact
      { h.counted with
        albums := by
          change c.totals.albumCount - 1 = _
          rw [h.counted.albums]
          exact (length_without h.linked.albums hheld).symm
        artists := by
          change c.totals.artistCount = ((c.artists.map _).length : Int)
          rw [List.length_map, h.counted.artists]
        artistTracks := fun a' ha' => by
          obtain ⟨a, ha, rfl⟩ := List.mem_map.mp ha'
          exact h.counted.artistTracks a ha
        artistAvailable := fun a' ha' => by
          obtain ⟨a, ha, rfl⟩ := List.mem_map.mp ha'
          exact h.counted.artistAvailable a ha
        artistAlbums := fun a' ha' => by
          obtain ⟨a, ha, rfl⟩ := List.mem_map.mp ha'
          have hsplit := List.countP_eq_countP_filter_add c.albumArtists
            (fun r => decide (r.artist = a.id)) fun r => decide (r.album = album)
          change a.albumCount - _ = ((c.albumArtists.filter _).countP _ : Int)
          rw [h.counted.artistAlbums a ha]
          simp only [decide_not] at hsplit ⊢
          omega }
  · rw [← linked_bare]
    have hartists : (c.withoutAlbum album).artists.map Artist.id = c.artists.map Artist.id :=
      List.map_map
    exact linked_bare.mpr
      { h.linked with
        albums := Keyed.nodup_without h.linked.albums album
        artists := hartists ▸ h.linked.artists
        albumArtists := h.linked.albumArtists.sublist (List.filter_sublist.map _)
        creditRows := fun r hr => exists_of_map hartists (h.linked.creditRows r hr)
        listingRows := fun r hr => exists_of_map hartists (h.linked.listingRows r hr)
        listedRows := fun t ht a ha => exists_of_map hartists (h.linked.listedRows t ht a ha)
        albumArtistRows := fun r hr =>
          exists_of_map hartists (h.linked.albumArtistRows r (List.mem_filter.mp hr).1)
        albumRows := fun t ht => exists_without (h.linked.albumRows t ht) (hu t ht)
        artistAlbums := fun r hr => by
          obtain ⟨hr, hne⟩ := List.mem_filter.mp hr
          exact exists_without (h.linked.artistAlbums r hr) (of_decide_eq_true hne) }

/-! ### Rows updated -/

theorem alike_record (c : Catalog) (entity : Entity) (id : Id) (op : Op) (now : Int) :
    Alike c (c.record entity id op now) :=
  ⟨rfl, rfl, rfl, rfl, rfl, rfl, rfl, rfl, rfl, rfl, rfl, rfl, rfl, rfl, rfl, rfl⟩

theorem alike_updateAlbum (old new : Album) : Alike c (c.updateAlbum old new) := by
  have hupdated : Alike c { c with
      albums := c.albums.map fun a => if a.id = new.id then new else a
      tracks :=
        if new.sortKey = old.sortKey then c.tracks
        else c.tracks.map fun t =>
          if t.albumId = new.id then { t with albumSortKey := new.sortKey } else t } := by
    refine ⟨?_, ?_, rfl, rfl, rfl, rfl, rfl, rfl, rfl, rfl, rfl, rfl, rfl, rfl, rfl, rfl⟩
    · dsimp only
      split
      · rfl
      · rw [List.map_map]
        apply List.map_congr_left
        intro t _
        rw [Function.comp_apply]
        split <;> rfl
    · rw [List.map_map]
      apply List.map_congr_left
      intro a _
      rw [Function.comp_apply]
      split
      · rename_i hid
        exact hid.symm
      · rfl
  unfold updateAlbum
  dsimp only
  by_cases htitle : new.title = old.title
  · rw [if_pos htitle]
    exact hupdated
  · rw [if_neg htitle]
    exact hupdated.trans (alike_named _)

theorem map_replace_of_mem {α : Type} {key : α → Id} {rows : List α} (h : (rows.map key).Nodup)
    {old new : α} (hold : old ∈ rows) (hid : key new = key old) {β : Type} {f : α → β}
    (hf : f new = f old) :
    (rows.map fun x => if key x = key new then new else x).map f = rows.map f := by
  rw [List.map_map]
  apply List.map_congr_left
  intro x hx
  rw [Function.comp_apply]
  split
  · rename_i hkey
    rw [hf, List.inj_on_of_nodup_map h hx hold (hkey.trans hid)]
  · rfl

/-- Of an artist's columns only the counts are counted. -/
theorem alike_updateArtist (h : c.Linked) {old new : Artist} (hold : old ∈ c.artists)
    (hcounts : new.counts = old.counts) : Alike c (c.updateArtist old new) := by
  have hupdated : Alike c
      { c with artists := c.artists.map fun a => if a.id = new.id then new else a } :=
    ⟨rfl, rfl, map_replace_of_mem h.artists hold (Prod.ext_iff.mp hcounts).1 hcounts, rfl, rfl, rfl,
      rfl, rfl, rfl, rfl, rfl, rfl, rfl, rfl, rfl, rfl⟩
  unfold updateArtist
  split
  · exact hupdated
  · exact hupdated.trans (alike_named _)

theorem alike_updateTag (h : c.Linked) {old new : Tag} (hold : old ∈ c.tags)
    (hcounts : new.counts = old.counts) : Alike c (c.updateTag new) :=
  ⟨rfl, rfl, rfl, map_replace_of_mem h.tags hold (Prod.ext_iff.mp hcounts).1 hcounts, rfl, rfl, rfl,
    rfl, rfl, rfl, rfl, rfl, rfl, rfl, rfl, rfl⟩

theorem map_map_same {α β : Type} {f : α → α} {g : α → β} {rows : List α}
    (h : ∀ x, g (f x) = g x) : (rows.map f).map g = rows.map g := by
  rw [List.map_map]
  exact List.map_congr_left fun x _ => h x

theorem alike_artAlbum (album : Id) : Alike c (c.artAlbum album) :=
  ⟨rfl, map_map_same fun a => by split <;> rfl, rfl, rfl, rfl, rfl, rfl, rfl, rfl, rfl,
    rfl, rfl, rfl, rfl, rfl, rfl⟩

theorem alike_artArtist (artist : Id) (isNamed : Bool) : Alike c (c.artArtist artist isNamed) :=
  ⟨rfl, rfl, map_map_same fun a => by split <;> rfl, rfl, rfl, rfl, rfl, rfl, rfl, rfl,
    rfl, rfl, rfl, rfl, rfl, rfl⟩

theorem alike_artPlaylist (playlist : Id) : Alike c (c.artPlaylist playlist) :=
  ⟨rfl, rfl, rfl, rfl, rfl, rfl, rfl, rfl, rfl, rfl, rfl, rfl, rfl, rfl, rfl, rfl⟩

theorem alike_foldl {α : Type} {f : Catalog → α → Catalog} (h : ∀ c x, Alike c (f c x))
    (xs : List α) : Alike c (xs.foldl f c) := by
  induction xs generalizing c with
  | nil => exact Alike.refl c
  | cons x xs ih => exact (h c x).trans ih

theorem alike_artPlaylists (tracks albums : List Id) : Alike c (c.artPlaylists tracks albums) :=
  alike_foldl (fun _ playlist => alike_artPlaylist playlist) _

theorem alike_followArtistSortKey (artist : Id) (key : SortKey) (now : Int) :
    Alike c (c.followArtistSortKey artist key now) := by
  refine Alike.trans ?_ (alike_foldl (fun c album => alike_record c .album album .upsert now) _)
  exact ⟨map_map_same fun t => by split <;> rfl, map_map_same fun a => by split <;> rfl, rfl, rfl,
    rfl, rfl, rfl, rfl, rfl, rfl, rfl, rfl, rfl, rfl, rfl, rfl⟩

theorem alike_sidecarRows (rec : Record) : Alike c (c.sidecarRows rec) :=
  ⟨rfl, rfl, rfl, rfl, rfl, rfl, rfl, rfl, rfl, rfl, rfl, rfl, rfl, rfl, rfl, rfl⟩

end Catalog

end JewelCase.Content
