import JewelCase.Content.KeptLinks

/-!
# Tracks inserted and deleted

A track counts in its group from the moment its row is there, and for nothing else while it has no
links.
-/
namespace JewelCase.Content

set_option autoImplicit false

open Library

namespace Filed

/-- A track with no links. -/
def alone (t : Track) : Filed := ⟨t, [], [], []⟩

variable {t : Track}

/-- A track without links counts for nothing but its group. -/
theorem onAlbum_alone (k : Id × Id) : (alone t).onAlbum k = 0 := by
  simp [onAlbum, artists, alone, one]

theorem taggedOnAlbum_alone (k : Id × Id) : (alone t).taggedOnAlbum k = 0 := by
  simp [taggedOnAlbum, tagIds, alone, one]

theorem taggedByArtist_alone (k : Id × Id) : (alone t).taggedByArtist k = 0 := by
  simp [taggedByArtist, artists, alone, one]

theorem spells_alone (k : Id × Text) : (alone t).spells k = 0 := rfl

theorem sorts_alone (k : Id × SortKey) : (alone t).sorts k = 0 := by
  simp [sorts, firstOf, Keyed.find, alone, one]

theorem spellsTag_alone (k : Id × Text) : (alone t).spellsTag k = 0 := rfl

theorem byArtist_alone (a : Id) : (alone t).byArtist a = 0 := by
  simp [byArtist, artists, alone, one]

theorem availableBy_alone (a : Id) : (alone t).availableBy a = 0 := by
  simp [availableBy, artists, alone, one]

theorem tagged_alone (tag : Id) : (alone t).tagged tag = 0 := by
  simp [tagged, tagIds, alone, one]

end Filed

namespace Catalog

variable {c c' : Catalog} {t : Track}

/-! ### Inserted -/

theorem file_of_no_links (hcredits : ∀ r ∈ c.trackArtists, r.track ≠ t.id)
    (hlistings : ∀ r ∈ c.trackAlbumArtists, r.track ≠ t.id)
    (htags : ∀ r ∈ c.trackTags, r.track ≠ t.id) : c.file t = Filed.alone t := by
  have hnone : ∀ {α : Type} {track : α → Id} {rows : List α}, (∀ r ∈ rows, track r ≠ t.id) →
      rows.filter (fun r => decide (track r = t.id)) = [] := by
    intro α track rows h
    apply List.filter_eq_nil_iff.mpr
    intro r hr htrack
    exact h r hr (of_decide_eq_true htrack)
  unfold file Filed.alone
  rw [hnone hcredits, hnone hlistings, hnone htags]

/-- A new track is filed after the others, which are filed as they were. -/
theorem filed_insertTrack (h : c.Linked) (hnew : ∀ held ∈ c.tracks, held.id ≠ t.id) :
    (c.insertTrack t).filed = c.filed ++ [Filed.alone t] := by
  have hfile : c.file t = Filed.alone t := by
    apply file_of_no_links
    · intro r hr htrack
      obtain ⟨held, hheld, hid⟩ := h.creditTracks r hr
      exact hnew held hheld (hid.trans htrack)
    · intro r hr htrack
      obtain ⟨held, hheld, hid⟩ := h.listingTracks r hr
      exact hnew held hheld (hid.trans htrack)
    · intro r hr htrack
      obtain ⟨held, hheld, hid⟩ := h.tagTracks r hr
      exact hnew held hheld (hid.trans htrack)
  rw [← hfile]
  exact List.map_append

/-- A recount of what a track alone counts for nothing of. -/
theorem recount_insertTrack (h : c.Linked) (hnew : ∀ held ∈ c.tracks, held.id ≠ t.id) {κ V : Type}
    [Tally.Amount V] {w : Filed → κ → V} (hw : ∀ k, w (Filed.alone t) k = 0) (k : κ) :
    Tally.recount w (c.insertTrack t).filed k = Tally.recount w c.filed k := by
  rw [filed_insertTrack h hnew, Tally.recount_append, hw, add_zero]

theorem Linked.withTrack (h : c.Linked) (hnew : ∀ held ∈ c.tracks, held.id ≠ t.id)
    (halbum : ∃ a ∈ c.albums, a.id = t.albumId)
    (hlisted : ∀ artist ∈ t.albumArtistIds, ∃ a ∈ c.artists, a.id = artist) :
    ({ c with tracks := c.tracks ++ [t] } : Catalog).Linked :=
  { h with
    tracks := by
      rw [List.map_append]
      refine List.nodup_append.mpr ⟨h.tracks, List.nodup_singleton _, ?_⟩
      intro k hk k' hk' heq
      obtain ⟨held, hheld, rfl⟩ := List.mem_map.mp hk
      rw [List.map_singleton, List.mem_singleton] at hk'
      exact hnew held hheld (heq.trans hk')
    creditTracks := fun r hr => by
      obtain ⟨held, hheld, hid⟩ := h.creditTracks r hr
      exact ⟨held, List.mem_append_left _ hheld, hid⟩
    listingTracks := fun r hr => by
      obtain ⟨held, hheld, hid⟩ := h.listingTracks r hr
      exact ⟨held, List.mem_append_left _ hheld, hid⟩
    tagTracks := fun r hr => by
      obtain ⟨held, hheld, hid⟩ := h.tagTracks r hr
      exact ⟨held, List.mem_append_left _ hheld, hid⟩
    albumRows := fun held hheld => by
      rcases List.mem_append.mp hheld with hheld | hheld
      · exact h.albumRows held hheld
      · rw [List.mem_singleton.mp hheld]
        exact halbum
    listedRows := fun held hheld => by
      rcases List.mem_append.mp hheld with hheld | hheld
      · exact h.listedRows held hheld
      · rw [List.mem_singleton.mp hheld]
        exact hlisted }

/-- A new track counts in its group alone, so every other count row stays. -/
theorem Tallied.insertTrack (h : c.Tallied) (hl : c.Linked)
    (hnew : ∀ held ∈ c.tracks, held.id ≠ t.id) : (c.insertTrack t).Tallied where
  albumGroups := by
    rw [filed_insertTrack hl hnew]
    apply h.albumGroups.raise Int.one_pos (Tally.size_recount_nonneg Filed.inGroup_counts)
      (Tally.recount_eq_zero Filed.inGroup_counts)
    intro k
    rw [Tally.recount_append]
    congr 1
    unfold Filed.inGroup
    by_cases hk : k = t.group
    · rw [if_pos hk]
      exact if_pos hk.symm
    · rw [if_neg hk]
      exact if_neg fun heq => hk heq.symm
  albumCredits := h.albumCredits.congr (recount_insertTrack hl hnew Filed.onAlbum_alone)
  albumTags := h.albumTags.congr (recount_insertTrack hl hnew Filed.taggedOnAlbum_alone)
  artistTags := h.artistTags.congr (recount_insertTrack hl hnew Filed.taggedByArtist_alone)
  artistSpellings := h.artistSpellings.congr (recount_insertTrack hl hnew Filed.spells_alone)
  artistSortKeys := h.artistSortKeys.congr (recount_insertTrack hl hnew Filed.sorts_alone)
  tagSpellings := h.tagSpellings.congr (recount_insertTrack hl hnew Filed.spellsTag_alone)

theorem Counted.insertTrack (h : c.Counted) (hl : c.Linked)
    (hnew : ∀ held ∈ c.tracks, held.id ≠ t.id) : (c.insertTrack t).Counted where
  tracks := by
    change c.totals.trackCount + 1 = ((c.tracks ++ [t]).length : Int)
    rw [h.tracks, List.length_append, List.length_singleton]
    omega
  albums := h.albums
  artists := h.artists
  duration := by
    change c.totals.durationUs + t.durationUs = ((c.tracks ++ [t]).map Track.durationUs).sum
    rw [h.duration, List.map_append, List.sum_append, List.map_singleton, List.sum_singleton]
  artistTracks := fun a ha => by
    rw [recount_insertTrack hl hnew Filed.byArtist_alone, ← h.artistTracks a ha]
  artistAvailable := fun a ha => by
    rw [recount_insertTrack hl hnew Filed.availableBy_alone, ← h.artistAvailable a ha]
  artistAlbums := h.artistAlbums
  tagTracks := fun tag htag => by
    rw [recount_insertTrack hl hnew Filed.tagged_alone, ← h.tagTracks tag htag]
  tagAlbums := h.tagAlbums
  tagArtists := h.tagArtists

/-- Inserting a track keeps the counts. -/
theorem Consistent.insertTrack (h : c.Consistent) (hnew : ∀ held ∈ c.tracks, held.id ≠ t.id)
    (halbum : ∃ a ∈ c.albums, a.id = t.albumId)
    (hlisted : ∀ artist ∈ t.albumArtistIds, ∃ a ∈ c.artists, a.id = artist) :
    (c.insertTrack t).Consistent := by
  refine ⟨h.tallied.insertTrack h.linked hnew, h.counted.insertTrack h.linked hnew, ?_⟩
  have hlinked := linked_bare.mpr (h.linked.withTrack hnew halbum hlisted)
  exact linked_bare.mp (hlinked.fewer ⟨rfl, rfl, rfl, rfl, List.Sublist.refl _,
    List.Sublist.refl _, List.Sublist.refl _, List.Sublist.refl _⟩)

/-! ### Deleted -/

/-- A track that has no links any more goes. -/
def withoutTrack (c : Catalog) (t : Track) : Catalog :=
  { c with
    tracks := Keyed.without Track.id c.tracks t.id
    totals := { c.totals with
      trackCount := c.totals.trackCount - 1
      durationUs := c.totals.durationUs - t.durationUs
      namesVersion := c.totals.namesVersion + 1 }
    albumGroups := Tally.lower c.albumGroups (fun k => decide (t.group = k)) t.amount }

/-- No link is of the track. -/
structure Unlinked (c : Catalog) (track : Id) : Prop where
  credits : ∀ r ∈ c.trackArtists, r.track ≠ track
  listings : ∀ r ∈ c.trackAlbumArtists, r.track ≠ track
  tags : ∀ r ∈ c.trackTags, r.track ≠ track

theorem Unlinked.file (h : Unlinked c t.id) : c.file t = Filed.alone t :=
  file_of_no_links h.credits h.listings h.tags

/-- A recount without a track that has no links left is less by what it counts for alone. -/
theorem recount_withoutTrack (h : c.Linked) (hu : Unlinked c t.id) (ht : t ∈ c.tracks) {κ V : Type}
    [Tally.Amount V] {w : Filed → κ → V} (k : κ) :
    Tally.recount w (c.withoutTrack t).filed k =
      Tally.recount w c.filed k - w (Filed.alone t) k := by
  have hids : (c.filed.map Filed.id).Nodup := by
    unfold filed
    rw [List.map_map]
    exact h.tracks
  have hfiled : (c.withoutTrack t).filed = Keyed.without Filed.id c.filed (Filed.alone t).id := by
    unfold filed withoutTrack
    have hmap : (Keyed.without Track.id c.tracks t.id).map c.file =
        Keyed.without Filed.id (c.tracks.map c.file) t.id := by
      apply map_without
      exact fun _ => rfl
    exact hmap
  rw [hfiled]
  apply Tally.recount_without hids
  rw [← hu.file]
  exact List.mem_map_of_mem ht

theorem recount_withoutTrack_zero (h : c.Linked) (hu : Unlinked c t.id) (ht : t ∈ c.tracks)
    {κ V : Type} [Tally.Amount V] {w : Filed → κ → V} (hw : ∀ k, w (Filed.alone t) k = 0) (k : κ) :
    Tally.recount w (c.withoutTrack t).filed k = Tally.recount w c.filed k := by
  rw [recount_withoutTrack h hu ht, hw, sub_zero]

/-- Its group lowered, no other count row names a track that has no links left. -/
theorem Tallied.withoutTrack (h : c.Tallied) (hl : c.Linked) (hu : Unlinked c t.id)
    (ht : t ∈ c.tracks) : (c.withoutTrack t).Tallied where
  albumGroups := by
    refine h.albumGroups.lower (p := fun k => decide (t.group = k)) (d := t.amount) Int.one_pos
      (Tally.size_recount_nonneg Filed.inGroup_counts) fun k => ?_
    rw [recount_withoutTrack hl hu ht]
    congr 1
    unfold Filed.inGroup
    by_cases hk : t.group = k
    · rw [if_pos (decide_eq_true hk)]
      exact if_pos hk
    · rw [if_neg fun hdec => hk (of_decide_eq_true hdec)]
      exact if_neg hk
  albumCredits := h.albumCredits.congr (recount_withoutTrack_zero hl hu ht Filed.onAlbum_alone)
  albumTags := h.albumTags.congr (recount_withoutTrack_zero hl hu ht Filed.taggedOnAlbum_alone)
  artistTags := h.artistTags.congr (recount_withoutTrack_zero hl hu ht Filed.taggedByArtist_alone)
  artistSpellings := h.artistSpellings.congr (recount_withoutTrack_zero hl hu ht Filed.spells_alone)
  artistSortKeys := h.artistSortKeys.congr (recount_withoutTrack_zero hl hu ht Filed.sorts_alone)
  tagSpellings := h.tagSpellings.congr (recount_withoutTrack_zero hl hu ht Filed.spellsTag_alone)

theorem Counted.withoutTrack (h : c.Counted) (hl : c.Linked) (hu : Unlinked c t.id)
    (ht : t ∈ c.tracks) : (c.withoutTrack t).Counted where
  tracks := by
    have hlength := (Filed.perm_without hl.tracks ht).length_eq
    rw [List.length_append, List.length_singleton] at hlength
    change c.totals.trackCount - 1 = ((Keyed.without Track.id c.tracks t.id).length : Int)
    rw [h.tracks]
    omega
  albums := h.albums
  artists := h.artists
  duration := by
    have hsum := Tally.recount_without (w := fun (t : Track) (_ : Unit) => t.durationUs) hl.tracks ht ()
    change c.totals.durationUs - t.durationUs = _
    rw [h.duration]
    exact hsum.symm
  artistTracks := fun a ha => by
    rw [recount_withoutTrack_zero hl hu ht Filed.byArtist_alone, ← h.artistTracks a ha]
  artistAvailable := fun a ha => by
    rw [recount_withoutTrack_zero hl hu ht Filed.availableBy_alone, ← h.artistAvailable a ha]
  artistAlbums := h.artistAlbums
  tagTracks := fun tag htag => by
    rw [recount_withoutTrack_zero hl hu ht Filed.tagged_alone, ← h.tagTracks tag htag]
  tagAlbums := h.tagAlbums
  tagArtists := h.tagArtists

theorem Linked.withoutTrack (h : c.Linked) (hu : Unlinked c t.id) : (c.withoutTrack t).Linked :=
  { h with
    tracks := Keyed.nodup_without h.tracks t.id
    creditTracks := fun r hr => by
      obtain ⟨held, hheld, hid⟩ := h.creditTracks r hr
      exact ⟨held, Keyed.mem_without.mpr ⟨hheld, fun heq => hu.credits r hr (hid.symm.trans heq)⟩, hid⟩
    listingTracks := fun r hr => by
      obtain ⟨held, hheld, hid⟩ := h.listingTracks r hr
      exact ⟨held, Keyed.mem_without.mpr ⟨hheld, fun heq => hu.listings r hr (hid.symm.trans heq)⟩,
        hid⟩
    tagTracks := fun r hr => by
      obtain ⟨held, hheld, hid⟩ := h.tagTracks r hr
      exact ⟨held, Keyed.mem_without.mpr ⟨hheld, fun heq => hu.tags r hr (hid.symm.trans heq)⟩, hid⟩
    albumRows := fun held hheld => h.albumRows held (Keyed.mem_without.mp hheld).1
    listedRows := fun held hheld => h.listedRows held (Keyed.mem_without.mp hheld).1 }

theorem Consistent.withoutTrack (h : c.Consistent) (hu : Unlinked c t.id) (ht : t ∈ c.tracks) :
    (c.withoutTrack t).Consistent :=
  ⟨h.tallied.withoutTrack h.linked hu ht, h.counted.withoutTrack h.linked hu ht,
    h.linked.withoutTrack hu⟩

/-- The catalog with none of a track's links. -/
def unlinked (c : Catalog) (track : Id) : Catalog :=
  ((c.deleteTrackArtists track).deleteTrackAlbumArtists track).deleteTrackTags track

theorem bare_unlinked (track : Id) :
    (c.unlinked track).bare =
      { c.bare with
        trackArtists := c.trackArtists.filter fun r => !decide (r.track = track)
        trackAlbumArtists := c.trackAlbumArtists.filter fun r => !decide (r.track = track)
        trackTags := c.trackTags.filter fun r => !decide (r.track = track) } := by
  have hcredited := bare_deleteTrackArtists (c := c) track
  have hlisted := bare_deleteTrackAlbumArtists (c := c.deleteTrackArtists track) track
  have hlistings : (c.deleteTrackArtists track).trackAlbumArtists = c.trackAlbumArtists := by
    have h := congrArg Catalog.trackAlbumArtists hcredited
    exact h
  rw [hcredited, hlistings] at hlisted
  have htags : ((c.deleteTrackArtists track).deleteTrackAlbumArtists track).trackTags =
      c.trackTags := by
    have h := congrArg Catalog.trackTags hlisted
    exact h
  unfold unlinked
  rw [bare_deleteTrackTags, hlisted, htags]

theorem Consistent.unlinked (h : c.Consistent) (track : Id) : (c.unlinked track).Consistent :=
  ((h.deleteTrackArtists track).deleteTrackAlbumArtists track).deleteTrackTags track

theorem unlinked_unlinked (c : Catalog) (track : Id) : Unlinked (c.unlinked track) track := by
  have hbare := bare_unlinked (c := c) track
  have hne : ∀ {α : Type} {key : α → Id} {rows : List α} {r : α},
      r ∈ rows.filter (fun r => !decide (key r = track)) → key r ≠ track := by
    intro α key rows r hr
    simpa using (List.mem_filter.mp hr).2
  have hcredits : (c.unlinked track).trackArtists =
      c.trackArtists.filter fun r => !decide (r.track = track) := congrArg Catalog.trackArtists hbare
  have hlistings : (c.unlinked track).trackAlbumArtists =
      c.trackAlbumArtists.filter fun r => !decide (r.track = track) :=
    congrArg Catalog.trackAlbumArtists hbare
  have htags : (c.unlinked track).trackTags =
      c.trackTags.filter fun r => !decide (r.track = track) := congrArg Catalog.trackTags hbare
  exact ⟨fun r hr => hne (hcredits ▸ hr), fun r hr => hne (hlistings ▸ hr),
    fun r hr => hne (htags ▸ hr)⟩

/-- The cascade deletes a track's links first, then its row. -/
theorem deleteTrack_eq (c : Catalog) (t : Track) :
    c.deleteTrack t = (c.unlinked t.id).withoutTrack t := rfl

/-- Deleting a track keeps the counts, its links' as well. -/
theorem Consistent.deleteTrack (h : c.Consistent) (ht : t ∈ c.tracks) :
    (c.deleteTrack t).Consistent := by
  have htracks : (c.unlinked t.id).tracks = c.tracks := by
    have hbare := congrArg Catalog.tracks (bare_unlinked (c := c) t.id)
    exact hbare
  rw [deleteTrack_eq]
  exact (h.unlinked t.id).withoutTrack (unlinked_unlinked c t.id) (htracks ▸ ht)

end Catalog

end JewelCase.Content
