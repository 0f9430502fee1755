import JewelCase.Content.Weights

/-!
# Links keep the counts

A credit, a listing or a tag that is inserted or deleted changes what its track counts for by what the
triggers of its table add and take.
-/
namespace JewelCase.Content

set_option autoImplicit false

open Library

namespace Catalog

variable {c : Catalog}

theorem Linked.track? (h : c.Linked) {t : Track} (ht : t ∈ c.tracks) : c.track? t.id = some t :=
  (Keyed.find_eq_some h.tracks).mpr ⟨ht, rfl⟩

/-! ### What a link's triggers write -/

/-- What the triggers of a new credit write, with the track looked up once. -/
theorem trackArtistsAdded_eq {t : Track} {r : Credit} (ht : c.track? r.track = some t) :
    c.trackArtistsAdded r =
      Catalog.withArtistTags
        { c.countArtistTracks r.artist 1 (one t.present) with
          albumCredits := Tally.raise c.albumCredits (t.albumId, r.artist) 1
          artistSpellings := r.name.elim c.artistSpellings fun name =>
            Tally.raise c.artistSpellings (r.artist, name) 1
          artistSortKeys :=
            if r.position = 0 then Tally.raise c.artistSortKeys (r.artist, t.fileArtistSortKey) 1
            else c.artistSortKeys }
        (((c.tagsOf r.track).map fun tag => (r.artist, tag)).foldl
          (fun t k => Tally.raise t k 1) c.artistTags) := by
  unfold trackArtistsAdded
  rw [ht]
  simp only [Option.any_some, Option.elim_some]
  rw [← List.foldl_map (f := fun tag => (r.artist, tag)) (g := raiseArtistTag),
    foldl_raiseArtistTag]
  rfl

theorem trackArtistsRemoved_eq {t : Track} {r : Credit} (ht : c.track? r.track = some t) :
    c.trackArtistsRemoved r =
      Catalog.withArtistTags
        { c.countArtistTracks r.artist (-1) (-one t.present) with
          albumCredits := Tally.lower c.albumCredits
            (fun k => decide (t.albumId = k.1 ∧ r.artist = k.2)) 1
          artistSpellings := Tally.lower c.artistSpellings
            (fun k => decide (r.artist = k.1 ∧ r.name = some k.2)) 1
          artistSortKeys := Tally.lower c.artistSortKeys
            (fun k => decide (r.position = 0 ∧ r.artist = k.1 ∧ t.fileArtistSortKey = k.2)) 1 }
        (Tally.lower c.artistTags
          (fun k => decide (r.artist = k.1 ∧ k.2 ∈ c.tagsOf r.track)) 1) := by
  unfold trackArtistsRemoved
  rw [ht, lowerArtistTags_eq]
  simp only [Option.any_some, Option.map_some, Option.some.injEq]
  rfl

/-- What the triggers of a new tag write. -/
theorem trackTagsAdded_eq {t : Track} {r : TrackTag} (ht : c.track? r.track = some t) :
    c.trackTagsAdded r =
      Catalog.withArtistTags
        (Catalog.withAlbumTags
          { c.countTagTracks r.tag 1 with
            tagSpellings := Tally.raise c.tagSpellings (r.tag, r.name) 1 }
          (Tally.raise c.albumTags (t.albumId, r.tag) 1))
        (((c.artistsOf r.track).map fun artist => (artist, r.tag)).foldl
          (fun t k => Tally.raise t k 1) c.artistTags) := by
  unfold trackTagsAdded albumOf
  rw [ht]
  simp only [Option.map_some, Option.elim_some, raiseAlbumTag_eq]
  rw [← List.foldl_map (f := fun artist => (artist, r.tag)) (g := raiseArtistTag),
    foldl_raiseArtistTag]
  rfl

theorem trackTagsRemoved_eq {t : Track} {r : TrackTag} (ht : c.track? r.track = some t) :
    c.trackTagsRemoved r =
      Catalog.withArtistTags
        (Catalog.withAlbumTags
          { c.countTagTracks r.tag (-1) with
            tagSpellings := Tally.lower c.tagSpellings
              (fun k => decide (r.tag = k.1 ∧ r.name = k.2)) 1 }
          (Tally.lower c.albumTags (fun k => decide (t.albumId = k.1 ∧ r.tag = k.2)) 1))
        (Tally.lower c.artistTags
          (fun k => decide (k.1 ∈ c.artistsOf r.track ∧ r.tag = k.2)) 1) := by
  unfold trackTagsRemoved albumOf
  rw [ht]
  simp only [Option.map_some, Option.some.injEq, lowerAlbumTags_eq, lowerArtistTags_eq]
  rfl

/-! ### The track a link is of -/

theorem filter_append_of_eq {α : Type} {p : α → Bool} {xs : List α} {x : α} (hx : p x = true) :
    (xs ++ [x]).filter p = xs.filter p ++ [x] := by
  rw [List.filter_append, List.filter_cons_of_pos hx, List.filter_nil]

theorem filter_append_of_ne {α : Type} {p : α → Bool} {xs : List α} {x : α} (hx : ¬ p x = true) :
    (xs ++ [x]).filter p = xs.filter p := by
  rw [List.filter_append, List.filter_cons_of_neg hx, List.filter_nil, List.append_nil]

theorem filter_without {α κ : Type} [DecidableEq κ] {key : α → κ} {p : α → Bool} {xs : List α}
    {k : κ} : (Keyed.without key xs k).filter p = Keyed.without key (xs.filter p) k := by
  rw [Keyed.without, Keyed.without, List.filter_filter, List.filter_filter]
  apply List.filter_congr
  intro x _
  exact Bool.and_comm _ _

/-- The rows of a track without a row of another. -/
theorem filter_without_of_ne {α κ : Type} [DecidableEq κ] {key : α → κ} {p : α → Bool} {xs : List α}
    {k : κ} (h : ∀ x ∈ xs, p x = true → key x ≠ k) :
    (Keyed.without key xs k).filter p = xs.filter p := by
  rw [filter_without, Keyed.without]
  apply List.filter_eq_self.mpr
  intro x hx
  obtain ⟨hmem, hp⟩ := List.mem_filter.mp hx
  exact decide_eq_true (h x hmem hp)

/-- No two links of a track have one position. -/
theorem Linked.placed (h : c.Linked) (t : Track) : (c.file t).Placed where
  credits := h.credits.sublist (List.filter_sublist.map _)
  listings := h.listings.sublist (List.filter_sublist.map _)

theorem Linked.artists_nodup (h : c.Linked) (track : Id) : (c.artistsOf track).Nodup := by
  have hpairs := h.creditArtists.sublist
    (List.filter_sublist (p := fun r => decide (r.track = track)) (l := c.trackArtists) |>.map _)
  unfold artistsOf
  rw [show Credit.artist = Prod.snd ∘ fun r : Credit => (r.track, r.artist) from rfl,
    ← List.map_map]
  apply hpairs.map_on
  intro a ha b hb hab
  obtain ⟨r, hr, rfl⟩ := List.mem_map.mp ha
  obtain ⟨s, hs, rfl⟩ := List.mem_map.mp hb
  have hrt := of_decide_eq_true (List.mem_filter.mp hr).2
  have hst := of_decide_eq_true (List.mem_filter.mp hs).2
  exact Prod.ext (hrt.trans hst.symm) hab

theorem Linked.tags_nodup (h : c.Linked) (track : Id) : (c.tagsOf track).Nodup := by
  have hpairs := h.trackTags.sublist
    (List.filter_sublist (p := fun r => decide (r.track = track)) (l := c.trackTags) |>.map _)
  unfold tagsOf
  rw [show TrackTag.tag = Prod.snd ∘ TrackTag.key from rfl, ← List.map_map]
  apply hpairs.map_on
  intro a ha b hb hab
  obtain ⟨r, hr, rfl⟩ := List.mem_map.mp ha
  obtain ⟨s, hs, rfl⟩ := List.mem_map.mp hb
  have hrt := of_decide_eq_true (List.mem_filter.mp hr).2
  have hst := of_decide_eq_true (List.mem_filter.mp hs).2
  exact Prod.ext (hrt.trans hst.symm) hab

/-! ### Counts in rows -/

/-- The rows of artists and tags follow a track filed anew. -/
theorem Counted.refiled {c' : Catalog} {x x' : Filed} (h : c.Counted) (hr : Refiled c c' x x')
    (htotals : c'.totals = c.totals) (htracks : c'.tracks = c.tracks)
    (halbums : c'.albums = c.albums) (hcredits : c'.albumArtists = c.albumArtists)
    (hcount : c'.artists.length = c.artists.length)
    (hartists : ∀ a' ∈ c'.artists, ∃ a ∈ c.artists, a'.id = a.id ∧
      a'.trackCount = a.trackCount - x.byArtist a.id + x'.byArtist a.id ∧
      a'.availableTrackCount = a.availableTrackCount - x.availableBy a.id + x'.availableBy a.id ∧
      a'.albumCount = a.albumCount)
    (htags : ∀ t' ∈ c'.tags, ∃ t ∈ c.tags, t'.id = t.id ∧
      t'.trackCount = t.trackCount - x.tagged t.id + x'.tagged t.id ∧
      t'.albumCount = t.albumCount + (held c'.albumTags t.id - held c.albumTags t.id) ∧
      t'.artistCount = t.artistCount + (held c'.artistTags t.id - held c.artistTags t.id)) :
    c'.Counted where
  tracks := by rw [htotals, htracks, h.tracks]
  albums := by rw [htotals, halbums, h.albums]
  artists := by rw [htotals, hcount, h.artists]
  duration := by rw [htotals, htracks, h.duration]
  artistTracks := by
    intro a' ha'
    obtain ⟨a, ha, hid, hcount, _⟩ := hartists a' ha'
    rw [hid, hr.recount, hcount, h.artistTracks a ha]
  artistAvailable := by
    intro a' ha'
    obtain ⟨a, ha, hid, _, hcount, _⟩ := hartists a' ha'
    rw [hid, hr.recount, hcount, h.artistAvailable a ha]
  artistAlbums := by
    intro a' ha'
    obtain ⟨a, ha, hid, _, _, hcount⟩ := hartists a' ha'
    rw [hid, hcount, hcredits, h.artistAlbums a ha]
  tagTracks := by
    intro t' ht'
    obtain ⟨t, ht, hid, hcount, _⟩ := htags t' ht'
    rw [hid, hr.recount, hcount, h.tagTracks t ht]
  tagAlbums := by
    intro t' ht'
    obtain ⟨t, ht, hid, _, hcount, _⟩ := htags t' ht'
    rw [hid, hcount, h.tagAlbums t ht]
    omega
  tagArtists := by
    intro t' ht'
    obtain ⟨t, ht, hid, _, _, hcount⟩ := htags t' ht'
    rw [hid, hcount, h.tagArtists t ht]
    omega

/-! ### Credits -/

/-- The catalog with one credit more, and its triggers. -/
def creditAdded (c : Catalog) (r : Credit) : Catalog :=
  { c with trackArtists := c.trackArtists ++ [r] }.trackArtistsAdded r

theorem creditAdded_eq {t : Track} {r : Credit} (ht : c.track? r.track = some t) :
    c.creditAdded r =
      Catalog.withArtistTags
        { c.countArtistTracks r.artist 1 (one t.present) with
          trackArtists := c.trackArtists ++ [r]
          albumCredits := Tally.raise c.albumCredits (t.albumId, r.artist) 1
          artistSpellings := r.name.elim c.artistSpellings fun name =>
            Tally.raise c.artistSpellings (r.artist, name) 1
          artistSortKeys :=
            if r.position = 0 then Tally.raise c.artistSortKeys (r.artist, t.fileArtistSortKey) 1
            else c.artistSortKeys }
        (((c.tagsOf r.track).map fun tag => (r.artist, tag)).foldl
          (fun t k => Tally.raise t k 1) c.artistTags) :=
  trackArtistsAdded_eq (c := { c with trackArtists := c.trackArtists ++ [r] }) ht

/-- A credit that is new to its track. -/
structure NewCredit (credits : List Credit) (r : Credit) : Prop where
  position : ∀ held ∈ credits, held.track = r.track → held.position ≠ r.position
  artist : ∀ held ∈ credits, held.track = r.track → held.artist ≠ r.artist

section CreditAdded

variable {t : Track} {r : Credit}

theorem file_creditAdded (ht : c.track? r.track = some t) (v : Track) :
    (c.creditAdded r).file v =
      if v.id = r.track then (c.file v).credit r else c.file v := by
  rw [creditAdded_eq ht]
  by_cases hv : v.id = r.track
  · rw [if_pos hv]
    unfold Filed.credit file withArtistTags
    congr 1
    exact filter_append_of_eq (decide_eq_true hv.symm)
  · rw [if_neg hv]
    unfold file withArtistTags
    congr 1
    exact filter_append_of_ne fun h => hv (of_decide_eq_true h).symm

theorem refiled_creditAdded (hl : c.Linked) (ht : t ∈ c.tracks) (hr : r.track = t.id) :
    Refiled c (c.creditAdded r) (c.file t) ((c.file t).credit r) := by
  have htrack : c.track? r.track = some t := hr ▸ hl.track? ht
  have hfile := file_creditAdded htrack t
  rw [if_pos hr.symm] at hfile
  rw [← hfile]
  apply Refiled.of_links hl.tracks ht
  · rw [creditAdded_eq htrack]
    rfl
  · intro v hv
    rw [file_creditAdded htrack, if_neg (hr ▸ hv)]

theorem not_mem_artists (hr : r.track = t.id) (hnew : NewCredit c.trackArtists r) :
    r.artist ∉ (c.file t).artists := by
  intro hmem
  obtain ⟨held, hheld, hartist⟩ := List.mem_map.mp hmem
  obtain ⟨hheld, htrack⟩ := List.mem_filter.mp hheld
  exact hnew.artist held hheld ((of_decide_eq_true htrack).trans hr.symm) hartist

theorem not_mem_positions (hr : r.track = t.id) (hnew : NewCredit c.trackArtists r) :
    ∀ held ∈ (c.file t).credits, held.position ≠ r.position := by
  intro held hheld
  obtain ⟨hheld, htrack⟩ := List.mem_filter.mp hheld
  exact hnew.position held hheld ((of_decide_eq_true htrack).trans hr.symm)

/-- A new credit raises the count rows by what it adds to the recount. -/
theorem Tallied.creditAdded (h : c.Tallied) (hl : c.Linked) (ht : t ∈ c.tracks)
    (hr : r.track = t.id) (hnew : NewCredit c.trackArtists r) : (c.creditAdded r).Tallied := by
  have hrefiled := refiled_creditAdded hl ht hr
  have hartist := not_mem_artists hr hnew
  rw [creditAdded_eq (hr ▸ hl.track? ht : c.track? r.track = some t)] at hrefiled ⊢
  refine ⟨?_, ?_, ?_, ?_, ?_, ?_, ?_⟩
  · exact hrefiled.same h.albumGroups fun _ => rfl
  · exact hrefiled.raise_pair Filed.onAlbum_counts h.albumCredits (Filed.onAlbum_credit hartist)
  · exact hrefiled.same h.albumTags fun _ => rfl
  · apply hrefiled.raiseEach Filed.taggedByArtist_counts h.artistTags
    · exact (hl.tags_nodup r.track).map fun a b hab => (Prod.ext_iff.mp hab).2
    · intro k
      rw [Filed.taggedByArtist_credit hartist]
      congr 1
      apply one_congr
      rw [hr, List.mem_map]
      constructor
      · rintro ⟨hk, htag⟩
        exact ⟨k.2, htag, Prod.ext hk rfl⟩
      · rintro ⟨tag, htag, rfl⟩
        exact ⟨rfl, htag⟩
  · cases hname : r.name with
    | none =>
      apply hrefiled.same h.artistSpellings
      intro k
      rw [Filed.spells_credit, hname]
      simp [one]
    | some name =>
      apply hrefiled.raise_pair Filed.spells_counts h.artistSpellings
      intro k
      rw [Filed.spells_credit, hname]
      simp only [Option.some.injEq]
  · have hsorts := Filed.sorts_credit (v := c.file t) hr (not_mem_positions hr hnew)
    by_cases hpos : r.position = 0
    · rw [if_pos hpos]
      apply hrefiled.raise_pair Filed.sorts_counts h.artistSortKeys
      intro k
      rw [hsorts]
      simp only [hpos, true_and]
      rfl
    · rw [if_neg hpos]
      apply hrefiled.same h.artistSortKeys
      intro k
      rw [hsorts]
      simp [hpos, one]
  · exact hrefiled.same h.tagSpellings fun _ => rfl

/-- A new credit raises its artist's counts by what it adds to the recount. -/
theorem Counted.creditAdded (h : c.Counted) (hl : c.Linked) (ht : t ∈ c.tracks)
    (hr : r.track = t.id) (hnew : NewCredit c.trackArtists r) : (c.creditAdded r).Counted := by
  have hrefiled := refiled_creditAdded hl ht hr
  have hartist := not_mem_artists hr hnew
  rw [creditAdded_eq (hr ▸ hl.track? ht : c.track? r.track = some t)] at hrefiled ⊢
  apply h.refiled hrefiled rfl rfl rfl rfl
  · exact List.length_map _
  · intro a' ha'
    obtain ⟨a, ha, rfl⟩ := List.mem_map.mp ha'
    refine ⟨a, ha, ?_⟩
    rw [Filed.byArtist_credit hartist, Filed.availableBy_credit hartist]
    by_cases hid : a.id = r.artist
    · rw [if_pos hid]
      refine ⟨rfl, ?_, ?_, rfl⟩
      · change a.trackCount + 1 = _
        rw [hid, decide_eq_true rfl, one_true]
        omega
      · change a.availableTrackCount + one t.present = _
        have hpresent : (c.file t).track.present = t.present := rfl
        rw [hid, decide_eq_true rfl, Bool.true_and, hpresent]
        omega
    · have hid' : ¬ r.artist = a.id := fun h => hid h.symm
      rw [if_neg hid]
      simp [hid', one]
  · intro t' ht'
    obtain ⟨tag, htag, rfl⟩ := List.mem_map.mp ht'
    refine ⟨tag, htag, rfl, ?_, ?_, rfl⟩
    · exact (Int.sub_add_cancel _ _).symm
    · change tag.albumCount = tag.albumCount + (held c.albumTags tag.id - held c.albumTags tag.id)
      omega

end CreditAdded

theorem deleteTrackArtist_eq {t : Track} {r : Credit} (ht : c.track? r.track = some t) :
    c.deleteTrackArtist r =
      Catalog.withArtistTags
        { c.countArtistTracks r.artist (-1) (-one t.present) with
          trackArtists := Keyed.without Credit.key c.trackArtists r.key
          albumCredits := Tally.lower c.albumCredits
            (fun k => decide (t.albumId = k.1 ∧ r.artist = k.2)) 1
          artistSpellings := Tally.lower c.artistSpellings
            (fun k => decide (r.artist = k.1 ∧ r.name = some k.2)) 1
          artistSortKeys := Tally.lower c.artistSortKeys
            (fun k => decide (r.position = 0 ∧ r.artist = k.1 ∧ t.fileArtistSortKey = k.2)) 1 }
        (Tally.lower c.artistTags
          (fun k => decide (r.artist = k.1 ∧ k.2 ∈ c.tagsOf r.track)) 1) :=
  trackArtistsRemoved_eq
    (c := { c with trackArtists := Keyed.without Credit.key c.trackArtists r.key }) ht

section CreditDeleted

variable {t : Track} {r : Credit}

/-- A track without a credit. -/
def uncredited (v : Filed) (r : Credit) : Filed :=
  { v with credits := Keyed.without Credit.key v.credits r.key }

theorem file_deleteTrackArtist (ht : c.track? r.track = some t) (v : Track) :
    (c.deleteTrackArtist r).file v =
      if v.id = r.track then uncredited (c.file v) r else c.file v := by
  rw [deleteTrackArtist_eq ht]
  by_cases hv : v.id = r.track
  · rw [if_pos hv]
    unfold uncredited file withArtistTags
    congr 1
    exact filter_without
  · rw [if_neg hv]
    unfold file withArtistTags
    congr 1
    apply filter_without_of_ne
    intro held _ hheld hkey
    exact hv ((of_decide_eq_true hheld).symm.trans (Prod.ext_iff.mp hkey).1)

/-- A credit put back after it was deleted gives the track's filing again. -/
theorem same_uncredited (hl : c.Linked) (hr : r.track = t.id) (hmem : r ∈ c.trackArtists) :
    (c.file t).Same ((uncredited (c.file t) r).credit r) where
  track := rfl
  credits := Filed.perm_without (hl.placed t).credits
    (List.mem_filter.mpr ⟨hmem, decide_eq_true hr⟩)
  listings := List.Perm.refl _
  tags := List.Perm.refl _

theorem not_mem_uncredited (hl : c.Linked) (hr : r.track = t.id) (hmem : r ∈ c.trackArtists) :
    r.artist ∉ (uncredited (c.file t) r).artists := by
  intro hartist
  obtain ⟨held, hheld, hartist⟩ := List.mem_map.mp hartist
  obtain ⟨hheld, hkey⟩ := Keyed.mem_without.mp hheld
  obtain ⟨hheld, htrack⟩ := List.mem_filter.mp hheld
  have heq : held = r := List.inj_on_of_nodup_map hl.creditArtists hheld hmem
    (Prod.ext ((of_decide_eq_true htrack).trans hr.symm) hartist)
  exact hkey (heq ▸ rfl)

theorem position_uncredited (hr : r.track = t.id) :
    ∀ held ∈ (uncredited (c.file t) r).credits, held.position ≠ r.position := by
  intro held hheld hposition
  obtain ⟨hheld, hkey⟩ := Keyed.mem_without.mp hheld
  obtain ⟨_, htrack⟩ := List.mem_filter.mp hheld
  exact hkey (Prod.ext ((of_decide_eq_true htrack).trans hr.symm) hposition)

theorem refiled_deleteTrackArtist (hl : c.Linked) (ht : t ∈ c.tracks) (hr : r.track = t.id) :
    Refiled c (c.deleteTrackArtist r) (c.file t) (uncredited (c.file t) r) := by
  have htrack : c.track? r.track = some t := hr ▸ hl.track? ht
  have hfile := file_deleteTrackArtist htrack t
  rw [if_pos hr.symm] at hfile
  rw [← hfile]
  apply Refiled.of_links hl.tracks ht
  · rw [deleteTrackArtist_eq htrack]
    rfl
  · intro v hv
    rw [file_deleteTrackArtist htrack, if_neg (hr ▸ hv)]

/-- A credit deleted lowers the count rows by what it added. -/
theorem Tallied.deleteTrackArtist (h : c.Tallied) (hl : c.Linked) (ht : t ∈ c.tracks)
    (hr : r.track = t.id) (hmem : r ∈ c.trackArtists) : (c.deleteTrackArtist r).Tallied := by
  have hrefiled := refiled_deleteTrackArtist hl ht hr
  have hsame := same_uncredited hl hr hmem
  have hartist := not_mem_uncredited hl hr hmem
  rw [deleteTrackArtist_eq (hr ▸ hl.track? ht : c.track? r.track = some t)] at hrefiled ⊢
  refine ⟨?_, ?_, ?_, ?_, ?_, ?_, ?_⟩
  · exact hrefiled.same h.albumGroups fun _ => rfl
  · refine hrefiled.lowerEach Filed.onAlbum_counts h.albumCredits
      (p := fun k => decide (t.albumId = k.1 ∧ r.artist = k.2)) fun k => ?_
    rw [hsame.onAlbum, Filed.onAlbum_credit hartist]
    rfl
  · exact hrefiled.same h.albumTags fun _ => rfl
  · refine hrefiled.lowerEach Filed.taggedByArtist_counts h.artistTags
      (p := fun k => decide (r.artist = k.1 ∧ k.2 ∈ c.tagsOf r.track)) fun k => ?_
    rw [hsame.taggedByArtist, Filed.taggedByArtist_credit hartist, hr]
    rfl
  · refine hrefiled.lowerEach Filed.spells_counts h.artistSpellings
      (p := fun k => decide (r.artist = k.1 ∧ r.name = some k.2)) fun k => ?_
    rw [hsame.spells, Filed.spells_credit]
  · refine hrefiled.lowerEach Filed.sorts_counts h.artistSortKeys
      (p := fun k => decide (r.position = 0 ∧ r.artist = k.1 ∧ t.fileArtistSortKey = k.2)) fun k => ?_
    rw [hsame.sorts (hl.placed t), Filed.sorts_credit hr (position_uncredited hr)]
    rfl
  · exact hrefiled.same h.tagSpellings fun _ => rfl

/-- A credit deleted lowers its artist's counts by what it added. -/
theorem Counted.deleteTrackArtist (h : c.Counted) (hl : c.Linked) (ht : t ∈ c.tracks)
    (hr : r.track = t.id) (hmem : r ∈ c.trackArtists) : (c.deleteTrackArtist r).Counted := by
  have hrefiled := refiled_deleteTrackArtist hl ht hr
  have hsame := same_uncredited hl hr hmem
  have hartist := not_mem_uncredited hl hr hmem
  rw [deleteTrackArtist_eq (hr ▸ hl.track? ht : c.track? r.track = some t)] at hrefiled ⊢
  apply h.refiled hrefiled rfl rfl rfl rfl
  · exact List.length_map _
  · intro a' ha'
    obtain ⟨a, ha, rfl⟩ := List.mem_map.mp ha'
    refine ⟨a, ha, ?_⟩
    rw [hsame.byArtist, Filed.byArtist_credit hartist, hsame.availableBy,
      Filed.availableBy_credit hartist]
    by_cases hid : a.id = r.artist
    · rw [if_pos hid]
      refine ⟨rfl, ?_, ?_, rfl⟩
      · change a.trackCount + -1 = _
        rw [hid, decide_eq_true rfl, one_true]
        omega
      · change a.availableTrackCount + -one t.present = _
        have hpresent : (uncredited (c.file t) r).track.present = t.present := rfl
        rw [hid, decide_eq_true rfl, Bool.true_and, hpresent]
        omega
    · have hid' : ¬ r.artist = a.id := fun h => hid h.symm
      rw [if_neg hid]
      simp [hid', one]
  · intro t' ht'
    obtain ⟨tag, htag, rfl⟩ := List.mem_map.mp ht'
    refine ⟨tag, htag, rfl, ?_, ?_, rfl⟩
    · exact (Int.sub_add_cancel _ _).symm
    · change tag.albumCount = tag.albumCount + (held c.albumTags tag.id - held c.albumTags tag.id)
      omega

end CreditDeleted

end Catalog

end JewelCase.Content
