import Mathlib.Algebra.Order.BigOperators.Group.List
import JewelCase.Content.EntityRows

/-!
# Derived data keeps the counts

Bringing albums, artists and tags up to date changes no track and no track's links, and what it deletes
nothing refers to. So it keeps the catalog consistent, and of what it goes through only the rows that
some track credits, is on or carries are left.
-/
namespace JewelCase.Content

set_option autoImplicit false

open Library

namespace Catalog

variable {c c' c'' : Catalog} {rules : Rules} {now : Int}

/-- Some track is on the album. -/
def Holds (c : Catalog) (album : Id) : Prop := ∃ t ∈ c.tracks, t.albumId = album

/-- A track's row lists only artists that it has a listing of. -/
def ListsEach (c : Catalog) : Prop :=
  ∀ t ∈ c.tracks, ∀ artist ∈ t.albumArtistIds,
    ∃ r ∈ c.trackAlbumArtists, r.track = t.id ∧ r.artist = artist

/-- What a batch has left once each of its files is written: all is counted, and each row listed has
its link. -/
structure Whole (c : Catalog) : Prop where
  consistent : c.Consistent
  listsEach : c.ListsEach

/-- The same tracks and links of tracks, with no row that was not there. -/
structure Settles (c c' : Catalog) : Prop where
  tracks : c'.tracks.map Track.plain = c.tracks.map Track.plain
  trackArtists : c'.trackArtists = c.trackArtists
  trackAlbumArtists : c'.trackAlbumArtists = c.trackAlbumArtists
  trackTags : c'.trackTags = c.trackTags
  albums : ∀ id ∈ c'.albums.map Album.id, id ∈ c.albums.map Album.id
  artists : ∀ id ∈ c'.artists.map Artist.id, id ∈ c.artists.map Artist.id
  tags : ∀ id ∈ c'.tags.map Tag.id, id ∈ c.tags.map Tag.id

theorem Settles.refl (c : Catalog) : Settles c c :=
  ⟨rfl, rfl, rfl, rfl, fun _ => id, fun _ => id, fun _ => id⟩

theorem Settles.trans (h : Settles c c') (h' : Settles c' c'') : Settles c c'' where
  tracks := h'.tracks.trans h.tracks
  trackArtists := h'.trackArtists.trans h.trackArtists
  trackAlbumArtists := h'.trackAlbumArtists.trans h.trackAlbumArtists
  trackTags := h'.trackTags.trans h.trackTags
  albums := fun id hid => h.albums id (h'.albums id hid)
  artists := fun id hid => h.artists id (h'.artists id hid)
  tags := fun id hid => h.tags id (h'.tags id hid)

/-- What writes nothing counted keeps the tracks and links. -/
theorem Alike.settles (h : Alike c c') : Settles c c' where
  tracks := h.tracks
  trackArtists := h.trackArtists
  trackAlbumArtists := h.trackAlbumArtists
  trackTags := h.trackTags
  albums := fun _ hid => h.albums ▸ hid
  artists := fun _ hid => (map_comp_eq h.artists Prod.fst : c'.artists.map Artist.id = _) ▸ hid
  tags := fun _ hid => (map_comp_eq h.tags Prod.fst : c'.tags.map Tag.id = _) ▸ hid

theorem exists_plain {xs ys : List Track} (h : ys.map Track.plain = xs.map Track.plain) {y : Track}
    (hy : y ∈ ys) : ∃ x ∈ xs, x.plain = y.plain := by
  have hmem : y.plain ∈ xs.map Track.plain := h ▸ List.mem_map_of_mem hy
  exact List.mem_map.mp hmem

theorem Settles.holds (h : Settles c c') (album : Id) : c'.Holds album ↔ c.Holds album := by
  constructor
  · rintro ⟨t, ht, rfl⟩
    obtain ⟨u, hu, hplain⟩ := exists_plain h.tracks ht
    have halbum := congrArg Track.albumId hplain
    exact ⟨u, hu, halbum⟩
  · rintro ⟨t, ht, rfl⟩
    obtain ⟨u, hu, hplain⟩ := exists_plain h.tracks.symm ht
    have halbum := congrArg Track.albumId hplain
    exact ⟨u, hu, halbum⟩

theorem Settles.credited (h : Settles c c') (artist : Id) :
    c'.credited artist = c.credited artist := by
  unfold Catalog.credited
  rw [h.trackArtists, h.trackAlbumArtists]

theorem Settles.carried (h : Settles c c') (tag : Id) : c'.carried tag = c.carried tag := by
  unfold Catalog.carried
  rw [h.trackTags]

theorem Settles.listsEach (h : Settles c c') (hl : c.ListsEach) : c'.ListsEach := by
  intro t ht artist hartist
  obtain ⟨u, hu, hplain⟩ := exists_plain h.tracks ht
  have hid : u.id = t.id := by
    have hid := congrArg Track.id hplain
    exact hid
  have hlisted : u.albumArtistIds = t.albumArtistIds := by
    have hlisted := congrArg Track.albumArtistIds hplain
    exact hlisted
  rw [h.trackAlbumArtists, ← hid]
  exact hl u hu artist (hlisted ▸ hartist)

theorem Whole.alike (h : c.Whole) (ha : Alike c c') : c'.Whole :=
  ⟨h.consistent.alike ha, ha.settles.listsEach h.listsEach⟩

/-- An artist that no link names is listed on no track's row either. -/
theorem Whole.uncredited (h : c.Whole) {artist : Id} (hc : ¬ c.credited artist = true) :
    Uncredited c artist := by
  unfold Catalog.credited at hc
  rw [Bool.or_eq_true, not_or] at hc
  have hcredits : ∀ r ∈ c.trackArtists, r.artist ≠ artist := fun r hr hid =>
    hc.1 (List.any_eq_true.mpr ⟨r, hr, decide_eq_true hid⟩)
  have hlistings : ∀ r ∈ c.trackAlbumArtists, r.artist ≠ artist := fun r hr hid =>
    hc.2 (List.any_eq_true.mpr ⟨r, hr, decide_eq_true hid⟩)
  refine ⟨hcredits, hlistings, fun t ht hlisted => ?_⟩
  obtain ⟨r, hr, _, hid⟩ := h.listsEach t ht artist hlisted
  exact hlistings r hr hid

/-! ### One album's links -/

/-- Each group has a track in it. -/
theorem Tallied.group_track (h : c.Tallied) {k : GroupKey} (hk : k ∈ c.albumGroups.map Prod.fst) :
    ∃ t ∈ c.tracks, t.group = k := by
  by_contra hnone
  refine not_mem_keys h.albumGroups (fun t ht => ?_) hk
  unfold Filed.inGroup
  rw [if_neg]
  exact fun hgroup => hnone ⟨t, ht, hgroup⟩

theorem mem_groupsOf {album : Id} {row : GroupKey × Int × Int × Int} :
    row ∈ c.groupsOf album ↔ row ∈ c.albumGroups ∧ row.1.album = album := by
  unfold groupsOf
  rw [List.mem_filter, decide_eq_true_eq]

/-- A value that most of an album's tracks carry is one of some track on it. -/
theorem Tallied.mostUsed_track (h : c.Tallied) {α : Type} [DecidableEq α] {text : α → Text}
    {column : GroupKey → α} {album : Id} {value : α}
    (hvalue : c.mostUsed text column album = some value) :
    ∃ t ∈ c.tracks, t.albumId = album ∧ column t.group = value := by
  have hmem := List.argmin_mem hvalue
  obtain ⟨hmem, _⟩ := List.mem_filter.mp hmem
  obtain ⟨row, hrow, rfl⟩ := List.mem_map.mp hmem
  obtain ⟨hrow, halbum⟩ := mem_groupsOf.mp hrow
  obtain ⟨t, ht, hgroup⟩ := h.group_track (List.mem_map_of_mem hrow)
  refine ⟨t, ht, ?_, by rw [hgroup]⟩
  rw [← hgroup] at halbum
  exact halbum

/-- The artists that an album's groups list have rows, as the album has. -/
theorem Consistent.listed_row (h : c.Consistent) {album : Id} {r : AlbumArtist}
    (hr : r ∈ c.listed album) :
    r.artist ∈ c.artists.map Artist.id ∧ r.album ∈ c.albums.map Album.id := by
  obtain ⟨⟨artist, position⟩, hmem, rfl⟩ := List.mem_map.mp hr
  have hartist := List.fst_mem_of_mem_zipIdx hmem
  cases hids : c.mostUsed json GroupKey.albumArtistIds album with
  | none =>
    rw [hids] at hartist
    cases hartist
  | some ids =>
    rw [hids] at hartist
    obtain ⟨t, ht, rfl, rfl⟩ := h.tallied.mostUsed_track hids
    exact ⟨List.mem_map.mpr (h.linked.listedRows t ht artist hartist),
      List.mem_map.mpr (h.linked.albumRows t ht)⟩

theorem map_id_countArtistAlbums (c : Catalog) (artist : Id) (d : Int) :
    (c.countArtistAlbums artist d).artists.map Artist.id = c.artists.map Artist.id :=
  map_map_same fun a => by split <;> rfl

theorem settles_deleteAlbumArtist (r : AlbumArtist) : Settles c (c.deleteAlbumArtist r) :=
  ⟨rfl, rfl, rfl, rfl, fun _ => id,
    fun _ hid => map_id_countArtistAlbums
      { c with albumArtists := Keyed.without AlbumArtist.key c.albumArtists r.key }
      r.artist (-1) ▸ hid, fun _ => id⟩

theorem map_id_insertAlbumArtist (c : Catalog) (r : AlbumArtist) :
    (c.insertAlbumArtist r).artists.map Artist.id = c.artists.map Artist.id := by
  unfold insertAlbumArtist
  split
  · rfl
  · exact map_id_countArtistAlbums { c with albumArtists := c.albumArtists ++ [r] } r.artist 1

theorem albums_insertAlbumArtist (c : Catalog) (r : AlbumArtist) :
    (c.insertAlbumArtist r).albums = c.albums := by
  unfold insertAlbumArtist
  split <;> rfl

theorem settles_insertAlbumArtist (r : AlbumArtist) : Settles c (c.insertAlbumArtist r) := by
  have hartists := map_id_insertAlbumArtist c r
  unfold insertAlbumArtist at hartists ⊢
  split
  · exact Settles.refl c
  · rename_i hany
    rw [if_neg hany] at hartists
    exact ⟨rfl, rfl, rfl, rfl, fun _ => id, fun _ hid => hartists ▸ hid, fun _ => id⟩

theorem settles_foldl {α : Type} {f : Catalog → α → Catalog} (h : ∀ c x, Settles c (f c x))
    (xs : List α) : Settles c (xs.foldl f c) := by
  induction xs generalizing c with
  | nil => exact Settles.refl c
  | cons x xs ih => exact (h c x).trans ih

/-- Artists of albums inserted one after another keep the counts. -/
theorem Consistent.insertEach (h : c.Consistent) {rows : List AlbumArtist}
    (hrows : ∀ r ∈ rows, r.artist ∈ c.artists.map Artist.id ∧ r.album ∈ c.albums.map Album.id) :
    (rows.foldl Catalog.insertAlbumArtist c).Consistent := by
  induction rows generalizing c with
  | nil => exact h
  | cons r rows ih =>
    obtain ⟨hartist, halbum⟩ := hrows r List.mem_cons_self
    apply ih (h.insertAlbumArtist (List.mem_map.mp hartist) (List.mem_map.mp halbum))
    intro s hs
    rw [map_id_insertAlbumArtist, albums_insertAlbumArtist]
    exact hrows s (List.mem_cons_of_mem r hs)

theorem albums_foldl_deleteAlbumArtist (rows : List AlbumArtist) :
    (rows.foldl deleteAlbumArtist c).albums = c.albums := by
  induction rows generalizing c with
  | nil => rfl
  | cons r rows ih =>
    rw [List.foldl_cons, ih]
    rfl

theorem map_id_foldl_deleteAlbumArtist (rows : List AlbumArtist) :
    (rows.foldl deleteAlbumArtist c).artists.map Artist.id = c.artists.map Artist.id := by
  induction rows generalizing c with
  | nil => rfl
  | cons r rows ih =>
    rw [List.foldl_cons, ih]
    exact map_id_countArtistAlbums
      { c with albumArtists := Keyed.without AlbumArtist.key c.albumArtists r.key } r.artist (-1)

theorem alike_albumDiscs (discs : List AlbumDisc) : Alike c { c with albumDiscs := discs } :=
  ⟨rfl, rfl, rfl, rfl, rfl, rfl, rfl, rfl, rfl, rfl, rfl, rfl, rfl, rfl, rfl, rfl⟩

/-- An album's links written anew keep the counts. -/
theorem Consistent.refreshAlbumLinks (h : c.Consistent) (album : Id) :
    (c.refreshAlbumLinks album).Consistent := by
  unfold Catalog.refreshAlbumLinks
  refine Consistent.alike (Consistent.insertEach ?_ fun r hr => ?_) (alike_albumDiscs _)
  · exact Consistent.deleteEach (fun h hr => h.deleteAlbumArtist hr) (fun _ _ => rfl) h
      (h.linked.albumArtists.sublist (List.filter_sublist.map _)) fun _ hr => (List.mem_filter.mp hr).1
  · rw [map_id_foldl_deleteAlbumArtist, albums_foldl_deleteAlbumArtist]
    exact h.listed_row hr

theorem settles_refreshAlbumLinks (album : Id) : Settles c (c.refreshAlbumLinks album) := by
  unfold Catalog.refreshAlbumLinks
  refine Settles.trans ?_ (alike_albumDiscs _).settles
  exact (settles_foldl (fun _ r => settles_deleteAlbumArtist r) _).trans
    (settles_foldl (fun _ r => settles_insertAlbumArtist r) _)

/-- What keeps the tracks and links, and the counts, leaves a batch whole. -/
theorem Whole.settles (h : c.Whole) (hs : Settles c c') (hc : c'.Consistent) : c'.Whole :=
  ⟨hc, hs.listsEach h.listsEach⟩

/-- What each of a number of entities is brought up to date with. -/
theorem settle_each {α : Type} (catalog : α → Catalog) {f : α → Id → Option α}
    (rows : Catalog → List Id) (live : Catalog → Id → Prop)
    (hstep : ∀ {s s' : α} {id : Id}, (catalog s).Whole → f s id = some s' →
      (catalog s').Whole ∧ Settles (catalog s) (catalog s') ∧
        (id ∈ rows (catalog s') → live (catalog s') id))
    (hlive : ∀ {c c' : Catalog} {id : Id}, Settles c c' → live c id → live c' id)
    (hrows : ∀ {c c' : Catalog} {id : Id}, Settles c c' → id ∈ rows c' → id ∈ rows c)
    {ids : List Id} {s s' : α} (h : (catalog s).Whole) (hs' : ids.foldlM f s = some s') :
    (catalog s').Whole ∧ Settles (catalog s) (catalog s') ∧
      ∀ id ∈ ids, id ∈ rows (catalog s') → live (catalog s') id := by
  induction ids generalizing s with
  | nil =>
    cases hs'
    exact ⟨h, Settles.refl _, fun id hid => absurd hid List.not_mem_nil⟩
  | cons id ids ih =>
    rw [List.foldlM_cons] at hs'
    obtain ⟨mid, hmid, hrest⟩ := Option.bind_eq_some_iff.mp hs'
    obtain ⟨hwhole, hsettles, hid⟩ := hstep h hmid
    obtain ⟨hwhole', hsettles', hids⟩ := ih hwhole hrest
    refine ⟨hwhole', hsettles.trans hsettles', fun other hother hmem => ?_⟩
    rcases List.mem_cons.mp hother with rfl | hother
    · exact hlive hsettles' (hid (hrows hsettles' hmem))
    · exact hids other hother hmem

theorem foldlM_some {α σ : Type} (f : σ → α → σ) (xs : List α) (s : σ) :
    xs.foldlM (fun s x => some (f s x)) s = some (xs.foldl f s) := by
  induction xs generalizing s with
  | nil => rfl
  | cons x xs ih =>
    rw [List.foldlM_cons, List.foldl_cons]
    exact ih (f s x)

theorem foldlM_keeps {σ α : Type} {p : σ → Prop} {f : σ → α → Option σ}
    (hstep : ∀ {s s' : σ} {x : α}, p s → f s x = some s' → p s') {xs : List α} {s s' : σ} (h : p s)
    (hs' : xs.foldlM f s = some s') : p s' := by
  induction xs generalizing s with
  | nil =>
    rw [← Option.some.inj hs']
    exact h
  | cons x xs ih =>
    rw [List.foldlM_cons] at hs'
    obtain ⟨mid, hmid, hrest⟩ := Option.bind_eq_some_iff.mp hs'
    exact ih (hstep h hmid) hrest

theorem foldl_keeps {σ α : Type} {p : σ → Prop} {f : σ → α → σ} (xs : List α)
    (hstep : ∀ {s : σ} {x : α}, p s → p (f s x)) {s : σ} (h : p s) :
    p (xs.foldl f s) :=
  foldlM_keeps (fun hs hx => by
    rw [← Option.some.inj hx]
    exact hstep hs) h (foldlM_some f xs s)

/-- Entities brought up to date one after another, none of which can fail. -/
theorem settle_all {f : Catalog → Id → Catalog} (rows : Catalog → List Id)
    (live : Catalog → Id → Prop)
    (hstep : ∀ {c : Catalog} {id : Id}, c.Whole → (f c id).Whole ∧ Settles c (f c id) ∧
      (id ∈ rows (f c id) → live (f c id) id))
    (hlive : ∀ {c c' : Catalog} {id : Id}, Settles c c' → live c id → live c' id)
    (hrows : ∀ {c c' : Catalog} {id : Id}, Settles c c' → id ∈ rows c' → id ∈ rows c)
    (h : c.Whole) (ids : List Id) :
    (ids.foldl f c).Whole ∧ Settles c (ids.foldl f c) ∧
      ∀ id ∈ ids, id ∈ rows (ids.foldl f c) → live (ids.foldl f c) id :=
  settle_each (fun c => c) rows live
    (fun hc hs => by
      rw [← Option.some.inj hs]
      exact hstep hc) hlive hrows h (foldlM_some f ids c)

/-! ### Each entity -/

theorem find_mem {α : Type} {key : α → Id} {rows : List α} {id : Id} {x : α}
    (h : Keyed.find key rows id = some x) : x ∈ rows ∧ key x = id := by
  unfold Keyed.find at h
  have hkey := List.find?_some h
  exact ⟨List.mem_of_find?_eq_some h, of_decide_eq_true hkey⟩

theorem find_none {α : Type} {key : α → Id} {rows : List α} {id : Id}
    (h : Keyed.find key rows id = none) : id ∉ rows.map key := by
  unfold Keyed.find at h
  intro hmem
  obtain ⟨x, hx, hid⟩ := List.mem_map.mp hmem
  exact List.find?_eq_none.mp h x hx (decide_eq_true hid)

/-- An artist brought up to date is deleted, or some track credits it. -/
theorem Whole.refreshArtist (h : c.Whole) (rules : Rules) (now : Int) (artist : Id) :
    (c.refreshArtist rules now artist).Whole ∧ Settles c (c.refreshArtist rules now artist) ∧
      (artist ∈ (c.refreshArtist rules now artist).artists.map Artist.id →
        (c.refreshArtist rules now artist).credited artist = true) := by
  unfold Catalog.refreshArtist
  cases hfind : Keyed.find Artist.id c.artists artist with
  | none =>
    exact ⟨h, Settles.refl c, fun hmem => absurd hmem (find_none hfind)⟩
  | some old =>
    obtain ⟨hold, _⟩ := find_mem hfind
    by_cases hcredited : c.credited artist = true
    · dsimp only
      rw [if_pos hcredited]
      have halike : Alike c (((if c.artistSort rules artist = old.sortKey then
          c.updateArtist old { old with
            name := c.artistName artist, sortKey := c.artistSort rules artist }
          else (c.updateArtist old { old with
            name := c.artistName artist, sortKey := c.artistSort rules artist }).followArtistSortKey
              artist (c.artistSort rules artist) now).artArtist artist
                (c.artistName artist).isSome).record .artist artist .upsert now) := by
        refine Alike.trans ?_ (alike_record _ _ _ _ _)
        refine Alike.trans ?_ (alike_artArtist _ _)
        have hupdated : Alike c (c.updateArtist old { old with
            name := c.artistName artist, sortKey := c.artistSort rules artist }) :=
          alike_updateArtist h.consistent.linked hold rfl
        split
        · exact hupdated
        · exact hupdated.trans (alike_followArtistSortKey _ _ _)
      exact ⟨h.alike halike, halike.settles, fun _ =>
        (halike.settles.credited artist).trans hcredited⟩
    · dsimp only
      rw [if_neg hcredited]
      have hu := h.uncredited hcredited
      have hheld : (c.artists.any fun a => decide (a.id = artist)) = true :=
        List.any_eq_true.mpr ⟨old, hold, decide_eq_true (find_mem hfind).2⟩
      have hsettles : Settles c (c.deleteArtist artist) := by
        rw [deleteArtist_eq h.consistent.tallied hu hheld]
        exact ⟨rfl, rfl, rfl, rfl, fun _ => id, fun _ hid =>
          (List.filter_sublist.map Artist.id).subset hid, fun _ => id⟩
      have hrecorded := alike_record (c.deleteArtist artist) .artist artist .delete now
      refine ⟨?_, hsettles.trans hrecorded.settles, fun hmem => ?_⟩
      · exact (h.settles hsettles (h.consistent.deleteArtist hu)).alike hrecorded
      · rw [deleteArtist_eq h.consistent.tallied hu hheld] at hmem
        obtain ⟨a, ha, hid⟩ := List.mem_map.mp hmem
        exact absurd hid (Keyed.mem_without.mp ha).2

theorem Whole.refreshTag (h : c.Whole) (rules : Rules) (now : Int) (tag : Id) :
    (c.refreshTag rules now tag).Whole ∧ Settles c (c.refreshTag rules now tag) ∧
      (tag ∈ (c.refreshTag rules now tag).tags.map Tag.id →
        (c.refreshTag rules now tag).carried tag = true) := by
  unfold Catalog.refreshTag
  cases hfind : Keyed.find Tag.id c.tags tag with
  | none =>
    exact ⟨h, Settles.refl c, fun hmem => absurd hmem (find_none hfind)⟩
  | some old =>
    obtain ⟨hold, _⟩ := find_mem hfind
    by_cases hcarried : c.carried tag = true
    · dsimp only
      rw [if_pos hcarried]
      have hupdated : Alike c (c.updateTag { old with
          name := (c.tagName tag).getD []
          sortKey := rules.tagSortKey ((c.tagName tag).getD []) }) :=
        alike_updateTag h.consistent.linked hold rfl
      have halike := hupdated.trans (alike_record _ .tag tag .upsert now)
      exact ⟨h.alike halike, halike.settles, fun _ => (halike.settles.carried tag).trans hcarried⟩
    · dsimp only
      rw [if_neg hcarried]
      have hu : ∀ r ∈ c.trackTags, r.tag ≠ tag := fun r hr hid =>
        hcarried (List.any_eq_true.mpr ⟨r, hr, decide_eq_true hid⟩)
      have hheld : (c.tags.any fun t => decide (t.id = tag)) = true :=
        List.any_eq_true.mpr ⟨old, hold, decide_eq_true (find_mem hfind).2⟩
      have hsettles : Settles c (c.deleteTag tag) := by
        rw [deleteTag_eq h.consistent.tallied hu hheld]
        exact ⟨rfl, rfl, rfl, rfl, fun _ => id, fun _ => id, fun _ hid =>
          (List.filter_sublist.map Tag.id).subset hid⟩
      have hrecorded := alike_record (c.deleteTag tag) .tag tag .delete now
      refine ⟨?_, hsettles.trans hrecorded.settles, fun hmem => ?_⟩
      · exact (h.settles hsettles (h.consistent.deleteTag hu)).alike hrecorded
      · rw [deleteTag_eq h.consistent.tallied hu hheld] at hmem
        obtain ⟨t, ht, hid⟩ := List.mem_map.mp hmem
        exact absurd hid (Keyed.mem_without.mp ht).2

/-- Each group counts a track at least. -/
theorem Tallied.group_pos (h : c.Tallied) {row : GroupKey × Int × Int × Int}
    (hrow : row ∈ c.albumGroups) : 0 < row.2.1 :=
  h.albumGroups.pos Filed.inGroup_counts hrow

/-- Counts that are something come to nothing only where there are none. -/
theorem sum_eq_zero_of_pos {xs : List Int} (hpos : ∀ x ∈ xs, 0 < x) (hsum : xs.sum = 0) :
    xs = [] := by
  cases xs with
  | nil => rfl
  | cons x xs =>
    have hx := hpos x List.mem_cons_self
    have hrest : 0 ≤ xs.sum := List.sum_nonneg fun y hy =>
      Int.le_of_lt (hpos y (List.mem_cons_of_mem x hy))
    rw [List.sum_cons] at hsum
    omega

/-- The groups of an album count no track just when no track is on it. -/
theorem Tallied.count_eq_zero (h : c.Tallied) (album : Id) :
    ((c.groupsOf album).map fun row => row.2.1).sum = 0 ↔ ¬ c.Holds album := by
  constructor
  · rintro hsum ⟨t, ht, halbum⟩
    have hnil := sum_eq_zero_of_pos (fun n hn => by
      obtain ⟨row, hrow, rfl⟩ := List.mem_map.mp hn
      exact h.group_pos (mem_groupsOf.mp hrow).1) hsum
    have hkey : t.group ∈ c.albumGroups.map Prod.fst := by
      have hone : (c.file t).inGroup t.group = t.amount := if_pos rfl
      have hpos : 0 < Tally.Amount.size (Tally.recount Filed.inGroup c.filed t.group) :=
        Tally.recount_pos Filed.inGroup_counts (List.mem_map_of_mem ht) (by
          rw [hone]
          exact Int.one_pos)
      rw [h.albumGroups.mem]
      omega
    obtain ⟨row, hrow, hgroup⟩ := List.mem_map.mp hkey
    have hmem : row ∈ c.groupsOf album :=
      mem_groupsOf.mpr ⟨hrow, by rw [hgroup]; exact halbum⟩
    rw [List.map_eq_nil_iff.mp hnil] at hmem
    cases hmem
  · intro hnone
    have hnil : c.groupsOf album = [] := by
      apply List.eq_nil_iff_forall_not_mem.mpr
      intro row hrow
      obtain ⟨hrow, halbum⟩ := mem_groupsOf.mp hrow
      obtain ⟨t, ht, hgroup⟩ := h.group_track (List.mem_map_of_mem hrow)
      exact hnone ⟨t, ht, by rw [← hgroup] at halbum; exact halbum⟩
    rw [hnil]
    rfl

/-- An album brought up to date is deleted, or some track is on it. -/
theorem Whole.recomputeAlbum (h : c.Whole) {album : Id}
    (hc' : c.recomputeAlbum rules now album = some c') :
    c'.Whole ∧ Settles c c' ∧ (album ∈ c'.albums.map Album.id → c'.Holds album) := by
  unfold Catalog.recomputeAlbum at hc'
  by_cases hsum : ((c.groupsOf album).map fun row => row.2.1).sum = 0
  · rw [if_pos hsum] at hc'
    have hnone := (h.consistent.tallied.count_eq_zero album).mp hsum
    have hu : ∀ t ∈ c.tracks, t.albumId ≠ album := fun t ht hid => hnone ⟨t, ht, hid⟩
    by_cases hheld : (c.albums.any fun a => decide (a.id = album)) = true
    · rw [deleteAlbum_eq h.consistent.tallied hu hheld] at hc'
      have hrecorded := alike_record (c.withoutAlbum album) .album album .delete now
      rw [← Option.some.inj hc']
      have hsettles : Settles c (c.withoutAlbum album) :=
        ⟨rfl, rfl, rfl, rfl, fun _ hid => (List.filter_sublist.map Album.id).subset hid,
          fun _ hid => (List.map_map : (c.withoutAlbum album).artists.map Artist.id = _) ▸ hid,
          fun _ => id⟩
      refine ⟨(h.settles hsettles (h.consistent.withoutAlbum hu hheld)).alike hrecorded,
        hsettles.trans hrecorded.settles, fun hmem => ?_⟩
      obtain ⟨a, ha, hid⟩ := List.mem_map.mp hmem
      exact absurd hid (Keyed.mem_without.mp ha).2
    · unfold Catalog.deleteAlbum at hc'
      rw [if_neg hheld] at hc'
      rw [← Option.some.inj hc']
      have hrecorded := alike_record c .album album .delete now
      refine ⟨h.alike hrecorded, hrecorded.settles, fun hmem => ?_⟩
      obtain ⟨a, ha, hid⟩ := List.mem_map.mp hmem
      exact absurd (List.any_eq_true.mpr ⟨a, ha, decide_eq_true hid⟩) hheld
  · rw [if_neg hsum] at hc'
    have hheld : c.Holds album := by
      by_contra hnone
      exact hsum ((h.consistent.tallied.count_eq_zero album).mpr hnone)
    have halike : Alike c c' := by
      rw [← Option.some.inj hc']
      refine Alike.trans ?_ (alike_record _ _ _ _ _)
      cases Keyed.find Album.id c.albums album with
      | none => exact Alike.refl c
      | some old => exact alike_updateAlbum _ _
    exact ⟨h.alike halike, halike.settles, fun _ => (halike.settles.holds album).mpr hheld⟩

theorem Whole.relink (h : c.Whole) (changed : List Id) (album : Id) :
    (Catalog.relink (c, changed) album).1.Whole ∧ Settles c (Catalog.relink (c, changed) album).1 := by
  have hlinked := settles_refreshAlbumLinks (c := c) album
  have hwhole := h.settles hlinked (h.consistent.refreshAlbumLinks album)
  have halike := alike_artAlbum (c := c.refreshAlbumLinks album) album
  exact ⟨hwhole.alike halike, hlinked.trans halike.settles⟩

/-! ### What is left -/

/-- Rows that are live, but for those still to be gone through. -/
def Owed (rows : List Id) (live : Id → Prop) (owing : List Id) : Prop :=
  ∀ id ∈ rows, live id ∨ id ∈ owing

/-- Each artist, album and tag that no track needs any more is among those touched. -/
structure Pending (c : Catalog) (touched : Touched) : Prop where
  albums : Owed (c.albums.map Album.id) c.Holds touched.albums
  artists : Owed (c.artists.map Artist.id) (fun id => c.credited id = true) touched.artists
  tags : Owed (c.tags.map Tag.id) (fun id => c.carried id = true) touched.tags

/-- Where every row is live, rows are there exactly where tracks need them. -/
theorem Consistent.populated (h : c.Consistent) (halbums : ∀ a ∈ c.albums, c.Holds a.id)
    (hartists : ∀ a ∈ c.artists, c.credited a.id = true)
    (htags : ∀ t ∈ c.tags, c.carried t.id = true) : c.Populated where
  albums := fun id => by
    constructor
    · rintro ⟨a, ha, rfl⟩
      exact halbums a ha
    · rintro ⟨t, ht, rfl⟩
      exact h.linked.albumRows t ht
  artists := fun id => by
    constructor
    · rintro ⟨a, ha, rfl⟩
      exact hartists a ha
    · intro hcredited
      unfold Catalog.credited at hcredited
      rcases Bool.or_eq_true_iff.mp hcredited with hany | hany
      · obtain ⟨r, hr, hid⟩ := List.any_eq_true.mp hany
        exact of_decide_eq_true hid ▸ h.linked.creditRows r hr
      · obtain ⟨r, hr, hid⟩ := List.any_eq_true.mp hany
        exact of_decide_eq_true hid ▸ h.linked.listingRows r hr
  tags := fun id => by
    constructor
    · rintro ⟨t, ht, rfl⟩
      exact htags t ht
    · intro hcarried
      obtain ⟨r, hr, hid⟩ := List.any_eq_true.mp hcarried
      exact of_decide_eq_true hid ▸ h.linked.tagRows r hr

/-- What is gone through is settled, and the rest was live before. -/
theorem owed_settled {rows rows' rows'' : List Id} {live live'' : Id → Prop} {owing : List Id}
    (h : Owed rows live owing) (hrows : ∀ id ∈ rows', id ∈ rows) (hrows' : ∀ id ∈ rows'', id ∈ rows')
    (hsettled : ∀ id ∈ owing, id ∈ rows' → live'' id) (hlive : ∀ id, live id → live'' id) :
    ∀ id ∈ rows'', live'' id := by
  intro id hid
  rcases h id (hrows id (hrows' id hid)) with hl | howing
  · exact hlive id hl
  · exact hsettled id howing (hrows' id hid)

/-- Once what was touched is brought up to date, no row is left that no track needs. -/
theorem Whole.recompute (h : c.Whole) {touched : Touched} (hp : Pending c touched)
    (hc' : c.recompute rules touched now = some c') : c'.Whole ∧ c'.Populated := by
  unfold Catalog.recompute at hc'
  split at hc'
  · rename_i hnone
    obtain ⟨halbums, hartists, htags⟩ := hnone
    rw [← Option.some.inj hc']
    obtain ⟨hal, har, hta⟩ := hp
    rw [halbums] at hal
    rw [hartists] at har
    rw [htags] at hta
    refine ⟨h, h.consistent.populated (fun a ha => ?_) (fun a ha => ?_) fun t ht => ?_⟩
    · exact (hal a.id (List.mem_map_of_mem ha)).resolve_right List.not_mem_nil
    · exact (har a.id (List.mem_map_of_mem ha)).resolve_right List.not_mem_nil
    · exact (hta t.id (List.mem_map_of_mem ht)).resolve_right List.not_mem_nil
  obtain ⟨hlinked, hlinks, _⟩ := settle_each (fun s : Catalog × List Id => s.1) (fun _ => [])
    (fun _ _ => False) (fun hc hs => by
      rw [← Option.some.inj hs]
      obtain ⟨hwhole, hsettles⟩ := hc.relink _ _
      exact ⟨hwhole, hsettles, fun hmem => absurd hmem List.not_mem_nil⟩)
    (fun _ => id) (fun _ => id) h (foldlM_some Catalog.relink touched.albums (c, []))
  obtain ⟨hnamed, hnames, hartists⟩ := settle_all (fun c => c.artists.map Artist.id)
    (fun c id => c.credited id = true) (fun hc => hc.refreshArtist rules now _)
    (fun hs hcredited => (hs.credited _).trans hcredited) (fun hs hmem => hs.artists _ hmem) hlinked
    touched.artists
  obtain ⟨resolved, hresolved, hrest⟩ := Option.bind_eq_some_iff.mp hc'
  obtain ⟨hwhole, halbums, hheld⟩ := settle_each (fun c => c) (fun c => c.albums.map Album.id)
    Catalog.Holds (fun hc hs => hc.recomputeAlbum hs) (fun hs hheld => (hs.holds _).mpr hheld)
    (fun hs hmem => hs.albums _ hmem) hnamed hresolved
  have hart := alike_artPlaylists (c := resolved) touched.moved
    (touched.albums.foldl Catalog.relink (c, [])).2
  obtain ⟨htagged, htags, hcarried⟩ := settle_all (fun c => c.tags.map Tag.id)
    (fun c id => c.carried id = true) (fun hc => hc.refreshTag rules now _)
    (fun hs hcarried => (hs.carried _).trans hcarried) (fun hs hmem => hs.tags _ hmem)
    (hwhole.alike hart) touched.tags
  have hrecorded := alike_record (touched.tags.foldl
    (fun c tag => c.refreshTag rules now tag) (resolved.artPlaylists touched.moved
      (touched.albums.foldl Catalog.relink (c, [])).2)) .library c.library .upsert now
  rw [← Option.some.inj hrest]
  -- What holds once a step is done holds to the end.
  have hfromTags := hrecorded.settles
  have hfromAlbums := (hart.settles.trans htags).trans hfromTags
  have hfromNames := halbums.trans hfromAlbums
  have hall := (hlinks.trans hnames).trans hfromNames
  have hdone := htagged.alike hrecorded
  refine ⟨hdone, hdone.consistent.populated (fun a ha => ?_) (fun a ha => ?_) fun t ht => ?_⟩
  · exact owed_settled hp.albums ((hlinks.trans hnames).trans halbums).albums hfromAlbums.albums
      (fun id hid hmem => (hfromAlbums.holds id).mpr (hheld id hid hmem))
      (fun id hl => (hall.holds id).mpr hl) a.id (List.mem_map_of_mem ha)
  · exact owed_settled hp.artists (hlinks.trans hnames).artists hfromNames.artists
      (fun id hid hmem => (hfromNames.credited id).trans (hartists id hid hmem))
      (fun id hl => (hall.credited id).trans hl) a.id (List.mem_map_of_mem ha)
  · exact owed_settled hp.tags (((hlinks.trans hnames).trans halbums).trans
      (hart.settles.trans htags)).tags hfromTags.tags
      (fun id hid hmem => (hfromTags.carried id).trans (hcarried id hid hmem))
      (fun id hl => (hall.carried id).trans hl) t.id (List.mem_map_of_mem ht)

end Catalog

end JewelCase.Content
