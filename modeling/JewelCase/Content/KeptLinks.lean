import JewelCase.Content.Filed
import JewelCase.Content.Consistent

/-!
# A catalog without its counts

What a statement writes besides the counts its triggers keep: the rows and links themselves, which
every trigger leaves as they are.
-/
namespace JewelCase.Content

set_option autoImplicit false

open Library

def Artist.bare (a : Artist) : Artist :=
  { a with albumCount := 0, trackCount := 0, availableTrackCount := 0 }

theorem Credit.track_of_key {r s : Credit} (h : r.key = s.key) : r.track = s.track :=
  (Prod.ext_iff.mp h).1

theorem TrackTag.track_of_key {r s : TrackTag} (h : r.key = s.key) : r.track = s.track :=
  (Prod.ext_iff.mp h).1

def Tag.bare (t : Tag) : Tag := { t with trackCount := 0, albumCount := 0, artistCount := 0 }

namespace Catalog

/-- The catalog without what only counts. -/
def bare (c : Catalog) : Catalog :=
  { c with
    totals := ⟨0, 0, 0, 0, c.totals.namesVersion⟩
    artists := c.artists.map Artist.bare
    tags := c.tags.map Tag.bare
    albumCredits := [], albumTags := [], artistTags := []
    artistSpellings := [], artistSortKeys := [], tagSpellings := [], albumGroups := [] }

variable {c : Catalog}

/-- A number of statements that leave the rows as they are leaves them so. -/
theorem bare_foldl {α : Type} {f : Catalog → α → Catalog} (h : ∀ c x, (f c x).bare = c.bare)
    (xs : List α) : (xs.foldl f c).bare = c.bare := by
  induction xs generalizing c with
  | nil => rfl
  | cons x xs ih => rw [List.foldl_cons, ih, h]

/-! ### Counts -/

/-- A write of artists' counts alone is not seen without the counts. -/
theorem bare_artists {f : Artist → Artist} (h : ∀ a, (f a).bare = a.bare) :
    ({ c with artists := c.artists.map f } : Catalog).bare = c.bare := by
  have hmap : (c.artists.map f).map Artist.bare = c.artists.map Artist.bare := by
    rw [List.map_map]
    exact List.map_congr_left fun a _ => h a
  unfold bare
  dsimp only
  rw [hmap]

theorem bare_tags {f : Tag → Tag} (h : ∀ t, (f t).bare = t.bare) :
    ({ c with tags := c.tags.map f } : Catalog).bare = c.bare := by
  have hmap : (c.tags.map f).map Tag.bare = c.tags.map Tag.bare := by
    rw [List.map_map]
    exact List.map_congr_left fun t _ => h t
  unfold bare
  dsimp only
  rw [hmap]

theorem bare_countTagTracks (tag : Id) (d : Int) : (c.countTagTracks tag d).bare = c.bare :=
  bare_tags fun t => by split <;> rfl

theorem bare_countArtistTracks (artist : Id) (d available : Int) :
    (c.countArtistTracks artist d available).bare = c.bare :=
  bare_artists fun a => by split <;> rfl

theorem bare_countArtistAlbums (artist : Id) (d : Int) :
    (c.countArtistAlbums artist d).bare = c.bare :=
  bare_artists fun a => by split <;> rfl

theorem bare_withAlbumTags (links : Tally.Table (Id × Id) Int) :
    (c.withAlbumTags links).bare = c.bare :=
  bare_tags (c := { c with albumTags := links }) fun _ => rfl

theorem bare_withArtistTags (links : Tally.Table (Id × Id) Int) :
    (c.withArtistTags links).bare = c.bare :=
  bare_tags (c := { c with artistTags := links }) fun _ => rfl

theorem bare_raiseAlbumTag (k : Id × Id) : (c.raiseAlbumTag k).bare = c.bare := by
  rw [raiseAlbumTag_eq, bare_withAlbumTags]

theorem bare_raiseArtistTag (k : Id × Id) : (c.raiseArtistTag k).bare = c.bare := by
  rw [raiseArtistTag_eq, bare_withArtistTags]

theorem bare_lowerAlbumTags (p : Id × Id → Bool) : (c.lowerAlbumTags p).bare = c.bare := by
  rw [lowerAlbumTags_eq, bare_withAlbumTags]

theorem bare_lowerArtistTags (p : Id × Id → Bool) : (c.lowerArtistTags p).bare = c.bare := by
  rw [lowerArtistTags_eq, bare_withArtistTags]

/-! ### Links -/

/-- The triggers of a credit write counts only. -/
theorem bare_trackArtistsAdded (r : Credit) : (c.trackArtistsAdded r).bare = c.bare := by
  unfold trackArtistsAdded
  rw [bare_foldl fun c tag => bare_raiseArtistTag (r.artist, tag)]
  exact bare_countArtistTracks (c := c) r.artist 1 _

theorem bare_trackArtistsRemoved (r : Credit) : (c.trackArtistsRemoved r).bare = c.bare := by
  unfold trackArtistsRemoved
  rw [bare_lowerArtistTags]
  exact bare_countArtistTracks (c := c) r.artist (-1) _

theorem bare_trackTagsAdded (r : TrackTag) : (c.trackTagsAdded r).bare = c.bare := by
  unfold trackTagsAdded
  rw [bare_foldl fun c artist => bare_raiseArtistTag (artist, r.tag)]
  cases c.albumOf r.track with
  | none => exact bare_countTagTracks (c := c) r.tag 1
  | some album =>
    rw [Option.elim_some, bare_raiseAlbumTag]
    exact bare_countTagTracks (c := c) r.tag 1

theorem bare_trackTagsRemoved (r : TrackTag) : (c.trackTagsRemoved r).bare = c.bare := by
  unfold trackTagsRemoved
  rw [bare_lowerArtistTags, bare_lowerAlbumTags]
  exact bare_countTagTracks (c := c) r.tag (-1)

theorem bare_deleteTrackArtist (r : Credit) :
    (c.deleteTrackArtist r).bare =
      { c.bare with trackArtists := Keyed.without Credit.key c.trackArtists r.key } :=
  bare_trackArtistsRemoved r

theorem bare_deleteTrackAlbumArtist (r : Credit) :
    (c.deleteTrackAlbumArtist r).bare =
      { c.bare with trackAlbumArtists := Keyed.without Credit.key c.trackAlbumArtists r.key } := rfl

theorem bare_deleteTrackTag (r : TrackTag) :
    (c.deleteTrackTag r).bare =
      { c.bare with trackTags := Keyed.without TrackTag.key c.trackTags r.key } :=
  bare_trackTagsRemoved r

/-- Rows taken out one by one. -/
theorem foldl_without {α κ : Type} [DecidableEq κ] {key : α → κ} {p : α → Bool}
    (hp : ∀ x y, key x = key y → p x = p y) (xs : List α) :
    (xs.filter p).foldl (fun xs x => Keyed.without key xs (key x)) xs = xs.filter fun x => !p x := by
  have hfold : ∀ ys zs : List α, ys.foldl (fun xs x => Keyed.without key xs (key x)) zs =
      zs.filter fun x => decide (∀ y ∈ ys, key x ≠ key y) := by
    intro ys
    induction ys with
    | nil => intro zs; simp
    | cons y ys ih =>
      intro zs
      rw [List.foldl_cons, ih, Keyed.without, List.filter_filter]
      apply List.filter_congr
      intro x _
      simp only [List.forall_mem_cons]
      rw [Bool.decide_and, Bool.and_comm]
  rw [hfold]
  apply List.filter_congr
  intro x hx
  cases hpx : p x with
  | true =>
    rw [Bool.not_true, decide_eq_false_iff_not]
    intro hnone
    exact hnone x (List.mem_filter.mpr ⟨hx, hpx⟩) rfl
  | false =>
    rw [Bool.not_false, decide_eq_true_eq]
    intro y hy hkey
    have hpy := (List.mem_filter.mp hy).2
    rw [hp x y hkey, hpy] at hpx
    cases hpx

theorem bare_foldl_deleteTrackArtist (rows : List Credit) :
    (rows.foldl deleteTrackArtist c).bare =
      { c.bare with
        trackArtists :=
          rows.foldl (fun xs r => Keyed.without Credit.key xs r.key) c.trackArtists } := by
  induction rows generalizing c with
  | nil => rfl
  | cons r rows ih =>
    have htrackArtists : (c.deleteTrackArtist r).trackArtists =
        Keyed.without Credit.key c.trackArtists r.key :=
      congrArg Catalog.trackArtists (bare_deleteTrackArtist r)
    rw [List.foldl_cons, ih, bare_deleteTrackArtist, htrackArtists, List.foldl_cons]

/-- Deleting a track's credits takes their rows away, and writes counts. -/
theorem bare_deleteTrackArtists (track : Id) :
    (c.deleteTrackArtists track).bare =
      { c.bare with trackArtists := c.trackArtists.filter fun r => !decide (r.track = track) } := by
  unfold deleteTrackArtists
  have hrows : (c.trackArtists.filter fun r => decide (r.track = track)).foldl
      (fun xs r => Keyed.without Credit.key xs r.key) c.trackArtists =
        c.trackArtists.filter fun r => !decide (r.track = track) :=
    foldl_without (fun x y h => by rw [Credit.track_of_key h]) c.trackArtists
  rw [bare_foldl_deleteTrackArtist, hrows]

theorem bare_foldl_deleteTrackAlbumArtist (rows : List Credit) :
    (rows.foldl deleteTrackAlbumArtist c).bare =
      { c.bare with
        trackAlbumArtists :=
          rows.foldl (fun xs r => Keyed.without Credit.key xs r.key) c.trackAlbumArtists } := by
  induction rows generalizing c with
  | nil => rfl
  | cons r rows ih =>
    have hlistings : (c.deleteTrackAlbumArtist r).trackAlbumArtists =
        Keyed.without Credit.key c.trackAlbumArtists r.key := rfl
    rw [List.foldl_cons, ih, bare_deleteTrackAlbumArtist, hlistings, List.foldl_cons]

theorem bare_deleteTrackAlbumArtists (track : Id) :
    (c.deleteTrackAlbumArtists track).bare =
      { c.bare with
        trackAlbumArtists := c.trackAlbumArtists.filter fun r => !decide (r.track = track) } := by
  unfold deleteTrackAlbumArtists
  have hrows : (c.trackAlbumArtists.filter fun r => decide (r.track = track)).foldl
      (fun xs r => Keyed.without Credit.key xs r.key) c.trackAlbumArtists =
        c.trackAlbumArtists.filter fun r => !decide (r.track = track) :=
    foldl_without (fun x y h => by rw [Credit.track_of_key h]) c.trackAlbumArtists
  rw [bare_foldl_deleteTrackAlbumArtist, hrows]

theorem bare_foldl_deleteTrackTag (rows : List TrackTag) :
    (rows.foldl deleteTrackTag c).bare =
      { c.bare with
        trackTags := rows.foldl (fun xs r => Keyed.without TrackTag.key xs r.key) c.trackTags } := by
  induction rows generalizing c with
  | nil => rfl
  | cons r rows ih =>
    have htrackTags : (c.deleteTrackTag r).trackTags =
        Keyed.without TrackTag.key c.trackTags r.key :=
      congrArg Catalog.trackTags (bare_deleteTrackTag r)
    rw [List.foldl_cons, ih, bare_deleteTrackTag, htrackTags, List.foldl_cons]

theorem bare_deleteTrackTags (track : Id) :
    (c.deleteTrackTags track).bare =
      { c.bare with trackTags := c.trackTags.filter fun r => !decide (r.track = track) } := by
  unfold deleteTrackTags
  have hrows : (c.trackTags.filter fun r => decide (r.track = track)).foldl
      (fun xs r => Keyed.without TrackTag.key xs r.key) c.trackTags =
        c.trackTags.filter fun r => !decide (r.track = track) :=
    foldl_without (fun x y h => by rw [TrackTag.track_of_key h]) c.trackTags
  rw [bare_foldl_deleteTrackTag, hrows]

/-! ### Tracks -/

/-- What goes with a track, without its counts. -/
theorem bare_deleteTrack (t : Track) :
    (c.deleteTrack t).bare =
      { c.bare with
        tracks := Keyed.without Track.id c.tracks t.id
        trackArtists := c.trackArtists.filter fun r => !decide (r.track = t.id)
        trackAlbumArtists := c.trackAlbumArtists.filter fun r => !decide (r.track = t.id)
        trackTags := c.trackTags.filter fun r => !decide (r.track = t.id)
        totals := ⟨0, 0, 0, 0, c.totals.namesVersion + 1⟩ } := by
  have hcredited := bare_deleteTrackArtists (c := c) t.id
  have hlisted := bare_deleteTrackAlbumArtists (c := c.deleteTrackArtists t.id) t.id
  have hlistings : (c.deleteTrackArtists t.id).trackAlbumArtists = c.trackAlbumArtists := by
    have h := congrArg Catalog.trackAlbumArtists hcredited
    exact h
  rw [hcredited, hlistings] at hlisted
  have htagged := bare_deleteTrackTags
    (c := (c.deleteTrackArtists t.id).deleteTrackAlbumArtists t.id) t.id
  have htags : ((c.deleteTrackArtists t.id).deleteTrackAlbumArtists t.id).trackTags = c.trackTags := by
    have h := congrArg Catalog.trackTags hlisted
    exact h
  rw [hlisted, htags] at htagged
  have hdeleted : ∀ d : Catalog, ({ d with
      tracks := Keyed.without Track.id d.tracks t.id
      totals := { d.totals with
        trackCount := d.totals.trackCount - 1
        durationUs := d.totals.durationUs - t.durationUs
        namesVersion := d.totals.namesVersion + 1 }
      albumGroups := Tally.lower d.albumGroups (fun k => decide (t.group = k)) t.amount } :
        Catalog).bare = { d.bare with
      tracks := Keyed.without Track.id d.bare.tracks t.id
      totals := ⟨0, 0, 0, 0, d.bare.totals.namesVersion + 1⟩ } := fun _ => rfl
  unfold deleteTrack
  rw [hdeleted, htagged]
  rfl

theorem bare_tracksAvailability (old new : Track) : (c.tracksAvailability old new).bare = c.bare := by
  unfold tracksAvailability
  split
  · rfl
  · exact bare_foldl (fun c artist => bare_countArtistTracks (c := c) artist 0 _) _

theorem bare_tracksAlbum (old new : Track) : (c.tracksAlbum old new).bare = c.bare := by
  unfold tracksAlbum
  split
  · rfl
  · calc _ = ((c.tagsOf new.id).foldl (fun c tag => c.raiseAlbumTag (new.albumId, tag))
          (c.lowerAlbumTags fun k => decide (old.albumId = k.1 ∧ k.2 ∈ c.tagsOf new.id))).bare := rfl
      _ = c.bare := by
        rw [bare_foldl fun c tag => bare_raiseAlbumTag (new.albumId, tag), bare_lowerAlbumTags]

theorem bare_tracksArtistSortKey (old new : Track) :
    (c.tracksArtistSortKey old new).bare = c.bare := by
  unfold tracksArtistSortKey
  split <;> rfl

theorem bare_tracksAlbumArtistSortKey (old new : Track) :
    (c.tracksAlbumArtistSortKey old new).bare = c.bare := by
  unfold tracksAlbumArtistSortKey
  split <;> rfl

/-- What a track's row becomes, without its counts. -/
theorem bare_updateTrack (old new : Track) :
    (c.updateTrack old new).bare =
      { c.bare with
        tracks := c.tracks.map fun t => if t.id = new.id then new else t
        totals := ⟨0, 0, 0, 0, c.totals.namesVersion + if new.title = old.title then 0 else 1⟩ } := by
  have hnamed : ∀ d : Catalog, d.named.bare =
      { d.bare with totals := ⟨0, 0, 0, 0, d.bare.totals.namesVersion + 1⟩ } := fun _ => rfl
  unfold updateTrack
  by_cases htitle : new.title = old.title
  · rw [if_pos htitle, if_pos htitle, Int.add_zero, bare_tracksAlbumArtistSortKey,
      bare_tracksArtistSortKey, bare_tracksAlbum, bare_tracksAvailability]
    rfl
  · rw [if_neg htitle, if_neg htitle, hnamed, bare_tracksAlbumArtistSortKey,
      bare_tracksArtistSortKey, bare_tracksAlbum, bare_tracksAvailability]
    rfl

/-! ### Artists, albums and tags -/

theorem bare_deleteAlbumArtist (r : AlbumArtist) :
    (c.deleteAlbumArtist r).bare =
      { c.bare with albumArtists := Keyed.without AlbumArtist.key c.albumArtists r.key } :=
  bare_countArtistAlbums
    (c := { c with albumArtists := Keyed.without AlbumArtist.key c.albumArtists r.key }) r.artist (-1)

theorem map_without {α β κ : Type} [DecidableEq κ] {key : α → κ} {key' : β → κ} {f : α → β}
    (hkey : ∀ x, key' (f x) = key x) (xs : List α) (k : κ) :
    (Keyed.without key xs k).map f = Keyed.without key' (xs.map f) k := by
  unfold Keyed.without
  rw [List.filter_map]
  congr 1
  apply List.filter_congr
  intro x _
  rw [Function.comp_apply, hkey]

end Catalog

end JewelCase.Content

/-!
## A track's links inserted and deleted

Each statement on a link keeps the catalog consistent, one row at a time and all of a track's rows.
-/
namespace JewelCase.Content

set_option autoImplicit false

open Library

namespace Catalog

variable {c c' : Catalog}

/-! ### Links depend on no count -/

theorem Fewer.toBare (c : Catalog) : Fewer c c.bare where
  tracks := rfl
  albums := rfl
  artists := List.map_map
  tags := List.map_map
  trackArtists := List.Sublist.refl _
  trackAlbumArtists := List.Sublist.refl _
  trackTags := List.Sublist.refl _
  albumArtists := List.Sublist.refl _

theorem Fewer.ofBare (c : Catalog) : Fewer c.bare c where
  tracks := rfl
  albums := rfl
  artists := (Fewer.toBare c).artists.symm
  tags := (Fewer.toBare c).tags.symm
  trackArtists := List.Sublist.refl _
  trackAlbumArtists := List.Sublist.refl _
  trackTags := List.Sublist.refl _
  albumArtists := List.Sublist.refl _

/-- Whether links have their rows depends on no count. -/
theorem linked_bare : c.bare.Linked ↔ c.Linked :=
  ⟨fun h => h.fewer (Fewer.ofBare c), fun h => h.fewer (Fewer.toBare c)⟩

/-! ### Links inserted -/

/-- A credit whose track and artist have rows keeps links whole. -/
theorem Linked.withCredit (h : c.Linked) {r : Credit} (hnew : NewCredit c.trackArtists r)
    (ht : ∃ t ∈ c.tracks, t.id = r.track) (ha : ∃ a ∈ c.artists, a.id = r.artist) :
    ({ c with trackArtists := c.trackArtists ++ [r] } : Catalog).Linked :=
  { h with
    credits := by
      rw [List.map_append]
      refine List.nodup_append.mpr ⟨h.credits, List.nodup_singleton _, ?_⟩
      intro k hk k' hk' heq
      obtain ⟨held, hheld, rfl⟩ := List.mem_map.mp hk
      rw [List.map_singleton, List.mem_singleton] at hk'
      obtain ⟨htrack, hposition⟩ := Prod.ext_iff.mp (heq.trans hk')
      exact hnew.position held hheld htrack hposition
    creditArtists := by
      rw [List.map_append]
      refine List.nodup_append.mpr ⟨h.creditArtists, List.nodup_singleton _, ?_⟩
      intro k hk k' hk' heq
      obtain ⟨held, hheld, rfl⟩ := List.mem_map.mp hk
      rw [List.map_singleton, List.mem_singleton] at hk'
      obtain ⟨htrack, hartist⟩ := Prod.ext_iff.mp (heq.trans hk')
      exact hnew.artist held hheld htrack hartist
    creditTracks := fun held hheld => by
      rcases List.mem_append.mp hheld with hheld | hheld
      · exact h.creditTracks held hheld
      · rw [List.mem_singleton.mp hheld]
        exact ht
    creditRows := fun held hheld => by
      rcases List.mem_append.mp hheld with hheld | hheld
      · exact h.creditRows held hheld
      · rw [List.mem_singleton.mp hheld]
        exact ha }

theorem Linked.withListing (h : c.Linked) {r : Credit}
    (hnew : ∀ held ∈ c.trackAlbumArtists, held.track = r.track → held.position ≠ r.position)
    (ht : ∃ t ∈ c.tracks, t.id = r.track) (ha : ∃ a ∈ c.artists, a.id = r.artist) :
    ({ c with trackAlbumArtists := c.trackAlbumArtists ++ [r] } : Catalog).Linked :=
  { h with
    listings := by
      rw [List.map_append]
      refine List.nodup_append.mpr ⟨h.listings, List.nodup_singleton _, ?_⟩
      intro k hk k' hk' heq
      obtain ⟨held, hheld, rfl⟩ := List.mem_map.mp hk
      rw [List.map_singleton, List.mem_singleton] at hk'
      obtain ⟨htrack, hposition⟩ := Prod.ext_iff.mp (heq.trans hk')
      exact hnew held hheld htrack hposition
    listingTracks := fun held hheld => by
      rcases List.mem_append.mp hheld with hheld | hheld
      · exact h.listingTracks held hheld
      · rw [List.mem_singleton.mp hheld]
        exact ht
    listingRows := fun held hheld => by
      rcases List.mem_append.mp hheld with hheld | hheld
      · exact h.listingRows held hheld
      · rw [List.mem_singleton.mp hheld]
        exact ha }

theorem Linked.withTag (h : c.Linked) {s : TrackTag}
    (hnew : ∀ held ∈ c.trackTags, held.track = s.track → held.tag ≠ s.tag)
    (ht : ∃ t ∈ c.tracks, t.id = s.track) (htag : ∃ t ∈ c.tags, t.id = s.tag) :
    ({ c with trackTags := c.trackTags ++ [s] } : Catalog).Linked :=
  { h with
    trackTags := by
      rw [List.map_append]
      refine List.nodup_append.mpr ⟨h.trackTags, List.nodup_singleton _, ?_⟩
      intro k hk k' hk' heq
      obtain ⟨held, hheld, rfl⟩ := List.mem_map.mp hk
      rw [List.map_singleton, List.mem_singleton] at hk'
      obtain ⟨htrack, hid⟩ := Prod.ext_iff.mp (heq.trans hk')
      exact hnew held hheld htrack hid
    tagTracks := fun held hheld => by
      rcases List.mem_append.mp hheld with hheld | hheld
      · exact h.tagTracks held hheld
      · rw [List.mem_singleton.mp hheld]
        exact ht
    tagRows := fun held hheld => by
      rcases List.mem_append.mp hheld with hheld | hheld
      · exact h.tagRows held hheld
      · rw [List.mem_singleton.mp hheld]
        exact htag }

/-- Crediting a track keeps the counts, also where the artist is credited already. -/
theorem Consistent.insertTrackArtist (h : c.Consistent) {r : Credit}
    (ht : ∃ t ∈ c.tracks, t.id = r.track) (ha : ∃ a ∈ c.artists, a.id = r.artist) :
    (c.insertTrackArtist r).Consistent := by
  unfold Catalog.insertTrackArtist
  split
  · exact h
  · rename_i hany
    have hnew : NewCredit c.trackArtists r := by
      constructor <;> intro held hheld htrack hsame <;> apply hany
      · exact List.any_eq_true.mpr ⟨held, hheld, decide_eq_true ⟨htrack, Or.inl hsame⟩⟩
      · exact List.any_eq_true.mpr ⟨held, hheld, decide_eq_true ⟨htrack, Or.inr hsame⟩⟩
    obtain ⟨t, hmem, hid⟩ := ht
    refine ⟨h.tallied.creditAdded h.linked hmem hid.symm hnew,
      h.counted.creditAdded h.linked hmem hid.symm hnew, ?_⟩
    rw [← linked_bare, bare_trackArtistsAdded, linked_bare]
    exact h.linked.withCredit hnew ⟨t, hmem, hid⟩ ha

theorem Consistent.insertTrackAlbumArtist (h : c.Consistent) {r : Credit}
    (ht : ∃ t ∈ c.tracks, t.id = r.track) (ha : ∃ a ∈ c.artists, a.id = r.artist)
    (hc' : c.insertTrackAlbumArtist r = some c') : c'.Consistent := by
  unfold Catalog.insertTrackAlbumArtist at hc'
  split at hc'
  · cases hc'
  · rename_i hany
    have hnew : ∀ held ∈ c.trackAlbumArtists,
        held.track = r.track → held.position ≠ r.position := by
      intro held hheld htrack hsame
      apply hany
      exact List.any_eq_true.mpr ⟨held, hheld, decide_eq_true ⟨htrack, Or.inl hsame⟩⟩
    obtain ⟨t, hmem, hid⟩ := ht
    rw [← Option.some.inj hc']
    refine ⟨h.tallied.listingAdded h.linked hmem hid.symm hnew,
      h.counted.listingAdded h.linked hmem hid.symm, ?_⟩
    have hlinked := linked_bare.mpr (h.linked.withListing hnew ⟨t, hmem, hid⟩ ha)
    exact linked_bare.mp hlinked

/-- Tagging a track keeps the counts, also where it carries the tag already. -/
theorem Consistent.insertTrackTag (h : c.Consistent) {s : TrackTag}
    (ht : ∃ t ∈ c.tracks, t.id = s.track) (htag : ∃ t ∈ c.tags, t.id = s.tag) :
    (c.insertTrackTag s).Consistent := by
  unfold Catalog.insertTrackTag
  split
  · exact h
  · rename_i hany
    have hnew : ∀ held ∈ c.trackTags, held.track = s.track → held.tag ≠ s.tag := by
      intro held hheld htrack hsame
      apply hany
      exact List.any_eq_true.mpr ⟨held, hheld, decide_eq_true (Prod.ext htrack hsame)⟩
    obtain ⟨t, hmem, hid⟩ := ht
    refine ⟨h.tallied.tagAdded h.linked hmem hid.symm hnew,
      h.counted.tagAdded h.linked hmem hid.symm hnew, ?_⟩
    rw [← linked_bare, bare_trackTagsAdded, linked_bare]
    exact h.linked.withTag hnew ⟨t, hmem, hid⟩ htag

/-! ### Links deleted -/

/-- Deleting a credit keeps the counts. -/
theorem Consistent.deleteTrackArtist (h : c.Consistent) {r : Credit} (hr : r ∈ c.trackArtists) :
    (c.deleteTrackArtist r).Consistent := by
  obtain ⟨t, ht, hid⟩ := h.linked.creditTracks r hr
  refine ⟨h.tallied.deleteTrackArtist h.linked ht hid.symm hr,
    h.counted.deleteTrackArtist h.linked ht hid.symm hr, ?_⟩
  rw [← linked_bare, bare_deleteTrackArtist]
  exact (linked_bare.mpr h.linked).fewer
    ⟨rfl, rfl, rfl, rfl, List.filter_sublist, List.Sublist.refl _, List.Sublist.refl _,
      List.Sublist.refl _⟩

theorem Consistent.deleteTrackAlbumArtist (h : c.Consistent) {r : Credit}
    (hr : r ∈ c.trackAlbumArtists) : (c.deleteTrackAlbumArtist r).Consistent := by
  obtain ⟨t, ht, hid⟩ := h.linked.listingTracks r hr
  refine ⟨h.tallied.deleteTrackAlbumArtist h.linked ht hid.symm hr,
    h.counted.deleteTrackAlbumArtist h.linked ht hid.symm, ?_⟩
  rw [← linked_bare, bare_deleteTrackAlbumArtist]
  exact (linked_bare.mpr h.linked).fewer
    ⟨rfl, rfl, rfl, rfl, List.Sublist.refl _, List.filter_sublist, List.Sublist.refl _,
      List.Sublist.refl _⟩

theorem Consistent.deleteTrackTag (h : c.Consistent) {s : TrackTag} (hs : s ∈ c.trackTags) :
    (c.deleteTrackTag s).Consistent := by
  obtain ⟨t, ht, hid⟩ := h.linked.tagTracks s hs
  refine ⟨h.tallied.deleteTrackTag h.linked ht hid.symm hs,
    h.counted.deleteTrackTag h.linked ht hid.symm hs, ?_⟩
  rw [← linked_bare, bare_deleteTrackTag]
  exact (linked_bare.mpr h.linked).fewer
    ⟨rfl, rfl, rfl, rfl, List.Sublist.refl _, List.Sublist.refl _, List.filter_sublist,
      List.Sublist.refl _⟩

/-- Rows of a table deleted one by one, each while it is there. -/
theorem Consistent.deleteEach {α κ : Type} [DecidableEq κ] {key : α → κ} {rows : Catalog → List α}
    {delete : Catalog → α → Catalog}
    (hdelete : ∀ {c : Catalog} {x : α}, c.Consistent → x ∈ rows c → (delete c x).Consistent)
    (hrows : ∀ (c : Catalog) (x : α), rows (delete c x) = Keyed.without key (rows c) (key x))
    (h : c.Consistent) {xs : List α} (hxs : (xs.map key).Nodup) (hmem : ∀ x ∈ xs, x ∈ rows c) :
    (xs.foldl delete c).Consistent := by
  induction xs generalizing c with
  | nil => exact h
  | cons x xs ih =>
    rw [List.map_cons, List.nodup_cons] at hxs
    apply ih (hdelete h (hmem x List.mem_cons_self)) hxs.2
    intro y hy
    rw [hrows]
    refine Keyed.mem_without.mpr ⟨hmem y (List.mem_cons_of_mem x hy), ?_⟩
    exact fun hkey => hxs.1 (hkey ▸ List.mem_map_of_mem hy)

theorem trackArtists_deleteTrackArtist (c : Catalog) (r : Credit) :
    (c.deleteTrackArtist r).trackArtists = Keyed.without Credit.key c.trackArtists r.key :=
  congrArg Catalog.trackArtists (bare_deleteTrackArtist r)

theorem trackTags_deleteTrackTag (c : Catalog) (s : TrackTag) :
    (c.deleteTrackTag s).trackTags = Keyed.without TrackTag.key c.trackTags s.key :=
  congrArg Catalog.trackTags (bare_deleteTrackTag s)

/-- Deleting a track's credits one after another keeps the counts. -/
theorem Consistent.deleteTrackArtists (h : c.Consistent) (track : Id) :
    (c.deleteTrackArtists track).Consistent :=
  Consistent.deleteEach (fun h hr => h.deleteTrackArtist hr)
    trackArtists_deleteTrackArtist h (h.linked.credits.sublist (List.filter_sublist.map _))
    fun _ hr => (List.mem_filter.mp hr).1

theorem Consistent.deleteTrackAlbumArtists (h : c.Consistent) (track : Id) :
    (c.deleteTrackAlbumArtists track).Consistent :=
  Consistent.deleteEach (fun h hr => h.deleteTrackAlbumArtist hr)
    (fun _ _ => rfl) h (h.linked.listings.sublist (List.filter_sublist.map _))
    fun _ hr => (List.mem_filter.mp hr).1

theorem Consistent.deleteTrackTags (h : c.Consistent) (track : Id) :
    (c.deleteTrackTags track).Consistent :=
  Consistent.deleteEach (fun h hr => h.deleteTrackTag hr)
    trackTags_deleteTrackTag h (h.linked.trackTags.sublist (List.filter_sublist.map _))
    fun _ hs => (List.mem_filter.mp hs).1

end Catalog

end JewelCase.Content
