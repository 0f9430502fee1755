import JewelCase.Content.LinkCounts

/-!
# Listings and tags keep the counts

As credits do: a listing counts toward spellings and sort keys, and a tag toward the tags of its track's
album and artists too.
-/
namespace JewelCase.Content

set_option autoImplicit false

open Library

namespace Catalog

variable {c : Catalog} {t : Track} {r : Credit} {s : TrackTag}

/-! ### Listings -/

/-- The catalog with one listing more, and its triggers. -/
def listingAdded (c : Catalog) (r : Credit) : Catalog :=
  { c with trackAlbumArtists := c.trackAlbumArtists ++ [r] }.trackAlbumArtistsAdded r

/-- What a new listing and its triggers write, with the track looked up once. -/
theorem listingAdded_eq (ht : c.track? r.track = some t) :
    c.listingAdded r =
      { c with
        trackAlbumArtists := c.trackAlbumArtists ++ [r]
        artistSpellings := r.name.elim c.artistSpellings fun name =>
          Tally.raise c.artistSpellings (r.artist, name) 1
        artistSortKeys :=
          if r.position = 0 then
            if t.fileAlbumArtistSortKey ≠ [] then
              Tally.raise c.artistSortKeys (r.artist, t.fileAlbumArtistSortKey) 1
            else c.artistSortKeys
          else c.artistSortKeys } := by
  have ht' : Catalog.track? { c with trackAlbumArtists := c.trackAlbumArtists ++ [r] } r.track =
      some t := ht
  unfold listingAdded trackAlbumArtistsAdded
  rw [ht']
  rfl

theorem deleteTrackAlbumArtist_eq (ht : c.track? r.track = some t) :
    c.deleteTrackAlbumArtist r =
      { c with
        trackAlbumArtists := Keyed.without Credit.key c.trackAlbumArtists r.key
        artistSpellings := Tally.lower c.artistSpellings
          (fun k => decide (r.artist = k.1 ∧ r.name = some k.2)) 1
        artistSortKeys := Tally.lower c.artistSortKeys
          (fun k => decide (r.position = 0 ∧ r.artist = k.1 ∧
            t.fileAlbumArtistSortKey = k.2 ∧ k.2 ≠ [])) 1 } := by
  have ht' : Catalog.track? { c with
      trackAlbumArtists := Keyed.without Credit.key c.trackAlbumArtists r.key } r.track =
      some t := ht
  unfold deleteTrackAlbumArtist trackAlbumArtistsRemoved
  rw [ht']
  simp only [Option.map_some, Option.some.injEq]

theorem file_listingAdded (ht : c.track? r.track = some t) (v : Track) :
    (c.listingAdded r).file v =
      if v.id = r.track then (c.file v).listing r else c.file v := by
  rw [listingAdded_eq ht]
  by_cases hv : v.id = r.track
  · rw [if_pos hv]
    unfold Filed.listing file
    congr 1
    exact filter_append_of_eq (decide_eq_true hv.symm)
  · rw [if_neg hv]
    unfold file
    congr 1
    exact filter_append_of_ne fun h => hv (of_decide_eq_true h).symm

/-- A track without a listing. -/
def unlisted (v : Filed) (r : Credit) : Filed :=
  { v with listings := Keyed.without Credit.key v.listings r.key }

theorem file_deleteTrackAlbumArtist (ht : c.track? r.track = some t) (v : Track) :
    (c.deleteTrackAlbumArtist r).file v =
      if v.id = r.track then unlisted (c.file v) r else c.file v := by
  rw [deleteTrackAlbumArtist_eq ht]
  by_cases hv : v.id = r.track
  · rw [if_pos hv]
    unfold unlisted file
    congr 1
    exact filter_without
  · rw [if_neg hv]
    unfold file
    congr 1
    apply filter_without_of_ne
    intro held _ hheld hkey
    exact hv ((of_decide_eq_true hheld).symm.trans (Prod.ext_iff.mp hkey).1)

theorem refiled_listingAdded (hl : c.Linked) (ht : t ∈ c.tracks) (hr : r.track = t.id) :
    Refiled c (c.listingAdded r) (c.file t) ((c.file t).listing r) := by
  have htrack : c.track? r.track = some t := hr ▸ hl.track? ht
  have hfile := file_listingAdded htrack t
  rw [if_pos hr.symm] at hfile
  rw [← hfile]
  apply Refiled.of_links hl.tracks ht
  · rw [listingAdded_eq htrack]
  · intro v hv
    rw [file_listingAdded htrack, if_neg (hr ▸ hv)]

theorem refiled_deleteTrackAlbumArtist (hl : c.Linked) (ht : t ∈ c.tracks) (hr : r.track = t.id) :
    Refiled c (c.deleteTrackAlbumArtist r) (c.file t) (unlisted (c.file t) r) := by
  have htrack : c.track? r.track = some t := hr ▸ hl.track? ht
  have hfile := file_deleteTrackAlbumArtist htrack t
  rw [if_pos hr.symm] at hfile
  rw [← hfile]
  apply Refiled.of_links hl.tracks ht
  · rw [deleteTrackAlbumArtist_eq htrack]
  · intro v hv
    rw [file_deleteTrackAlbumArtist htrack, if_neg (hr ▸ hv)]

/-- A listing put back after it was deleted gives the track's filing again. -/
theorem same_unlisted (hl : c.Linked) (hr : r.track = t.id) (hmem : r ∈ c.trackAlbumArtists) :
    (c.file t).Same ((unlisted (c.file t) r).listing r) where
  track := rfl
  credits := List.Perm.refl _
  listings := Filed.perm_without (hl.placed t).listings
    (List.mem_filter.mpr ⟨hmem, decide_eq_true hr⟩)
  tags := List.Perm.refl _

/-- A new listing raises the count rows by what it adds to the recount. -/
theorem Tallied.listingAdded (h : c.Tallied) (hl : c.Linked) (ht : t ∈ c.tracks)
    (hr : r.track = t.id)
    (hnew : ∀ held ∈ c.trackAlbumArtists, held.track = r.track → held.position ≠ r.position) :
    (c.listingAdded r).Tallied := by
  have hrefiled := refiled_listingAdded hl ht hr
  have hpositions : ∀ held ∈ (c.file t).listings, held.position ≠ r.position := by
    intro held hheld
    obtain ⟨hheld, htrack⟩ := List.mem_filter.mp hheld
    exact hnew held hheld ((of_decide_eq_true htrack).trans hr.symm)
  have hsorts := Filed.sorts_listing (v := c.file t) hr hpositions
  rw [listingAdded_eq (hr ▸ hl.track? ht : c.track? r.track = some t)] at hrefiled ⊢
  refine ⟨?_, ?_, ?_, ?_, ?_, ?_, ?_⟩
  · exact hrefiled.same h.albumGroups fun _ => rfl
  · exact hrefiled.same h.albumCredits fun _ => rfl
  · exact hrefiled.same h.albumTags fun _ => rfl
  · exact hrefiled.same h.artistTags fun _ => rfl
  · cases hname : r.name with
    | none =>
      apply hrefiled.same h.artistSpellings
      intro k
      rw [Filed.spells_listing, hname]
      simp [one]
    | some name =>
      apply hrefiled.raise_pair Filed.spells_counts h.artistSpellings
      intro k
      rw [Filed.spells_listing, hname]
      simp only [Option.some.injEq]
  · by_cases hpos : r.position = 0 ∧ t.fileAlbumArtistSortKey ≠ []
    · rw [if_pos hpos.1, if_pos hpos.2]
      apply hrefiled.raise_pair Filed.sorts_counts h.artistSortKeys
      intro k
      rw [hsorts]
      congr 1
      apply one_congr
      constructor
      · rintro ⟨_, hk, hkey, _⟩
        exact ⟨hk, hkey⟩
      · rintro ⟨hk, hkey⟩
        exact ⟨hpos.1, hk, hkey, fun hnone => hpos.2 (hkey.trans hnone)⟩
    · have hkeep : (if r.position = 0 then
          if t.fileAlbumArtistSortKey ≠ [] then
            Tally.raise c.artistSortKeys (r.artist, t.fileAlbumArtistSortKey) 1
          else c.artistSortKeys
        else c.artistSortKeys) = c.artistSortKeys := by
        by_cases hzero : r.position = 0
        · rw [if_pos hzero, if_neg fun hkey => hpos ⟨hzero, hkey⟩]
        · rw [if_neg hzero]
      rw [hkeep]
      apply hrefiled.same h.artistSortKeys
      intro k
      rw [hsorts, decide_eq_false, one_false, Int.add_zero]
      rintro ⟨hzero, _, hkey, hfull⟩
      exact hpos ⟨hzero, fun hnone => hfull (hkey.symm.trans hnone)⟩
  · exact hrefiled.same h.tagSpellings fun _ => rfl

theorem Tallied.deleteTrackAlbumArtist (h : c.Tallied) (hl : c.Linked) (ht : t ∈ c.tracks)
    (hr : r.track = t.id) (hmem : r ∈ c.trackAlbumArtists) :
    (c.deleteTrackAlbumArtist r).Tallied := by
  have hrefiled := refiled_deleteTrackAlbumArtist hl ht hr
  have hsame := same_unlisted hl hr hmem
  have hpositions : ∀ held ∈ (unlisted (c.file t) r).listings, held.position ≠ r.position := by
    intro held hheld hposition
    obtain ⟨hheld, hkey⟩ := Keyed.mem_without.mp hheld
    obtain ⟨_, htrack⟩ := List.mem_filter.mp hheld
    exact hkey (Prod.ext ((of_decide_eq_true htrack).trans hr.symm) hposition)
  rw [deleteTrackAlbumArtist_eq (hr ▸ hl.track? ht : c.track? r.track = some t)] at hrefiled ⊢
  refine ⟨?_, ?_, ?_, ?_, ?_, ?_, ?_⟩
  · exact hrefiled.same h.albumGroups fun _ => rfl
  · exact hrefiled.same h.albumCredits fun _ => rfl
  · exact hrefiled.same h.albumTags fun _ => rfl
  · exact hrefiled.same h.artistTags fun _ => rfl
  · refine hrefiled.lowerEach Filed.spells_counts h.artistSpellings
      (p := fun k => decide (r.artist = k.1 ∧ r.name = some k.2)) fun k => ?_
    rw [hsame.spells, Filed.spells_listing]
  · refine hrefiled.lowerEach Filed.sorts_counts h.artistSortKeys
      (p := fun k => decide (r.position = 0 ∧ r.artist = k.1 ∧
        t.fileAlbumArtistSortKey = k.2 ∧ k.2 ≠ [])) fun k => ?_
    rw [hsame.sorts (hl.placed t), Filed.sorts_listing hr hpositions]
    rfl
  · exact hrefiled.same h.tagSpellings fun _ => rfl

/-- What a listing does to the counts of rows: nothing. -/
theorem Counted.relisted {c' : Catalog} {x' : Filed} (h : c.Counted)
    (hr : Refiled c c' (c.file t) x') (htotals : c'.totals = c.totals)
    (htracks : c'.tracks = c.tracks) (halbums : c'.albums = c.albums)
    (hcredits : c'.albumArtists = c.albumArtists) (hartists : c'.artists = c.artists)
    (htags : c'.tags = c.tags) (halbumTags : c'.albumTags = c.albumTags)
    (hartistTags : c'.artistTags = c.artistTags) (hx : x'.track = t)
    (hxc : x'.credits = (c.file t).credits) (hxt : x'.tags = (c.file t).tags) : c'.Counted := by
  have hby : ∀ a, x'.byArtist a = (c.file t).byArtist a := by
    intro a
    unfold Filed.byArtist Filed.artists
    rw [hxc]
  have havailable : ∀ a, x'.availableBy a = (c.file t).availableBy a := by
    intro a
    unfold Filed.availableBy Filed.artists
    rw [hxc, hx]
    rfl
  have htagged : ∀ tag, x'.tagged tag = (c.file t).tagged tag := by
    intro tag
    unfold Filed.tagged Filed.tagIds
    rw [hxt]
  apply h.refiled hr htotals htracks halbums hcredits (by rw [hartists])
  · intro a ha
    rw [hartists] at ha
    exact ⟨a, ha, rfl, by rw [hby]; omega, by rw [havailable]; omega, rfl⟩
  · intro tag htag
    rw [htags] at htag
    refine ⟨tag, htag, rfl, by rw [htagged]; omega, ?_, ?_⟩
    · rw [halbumTags]
      omega
    · rw [hartistTags]
      omega

/-- A listing is no track of its artist, so no row's counts move. -/
theorem Counted.listingAdded (h : c.Counted) (hl : c.Linked) (ht : t ∈ c.tracks)
    (hr : r.track = t.id) : (c.listingAdded r).Counted := by
  have hrefiled := refiled_listingAdded hl ht hr
  rw [listingAdded_eq (hr ▸ hl.track? ht : c.track? r.track = some t)] at hrefiled ⊢
  exact h.relisted hrefiled rfl rfl rfl rfl rfl rfl rfl rfl rfl rfl rfl

theorem Counted.deleteTrackAlbumArtist (h : c.Counted) (hl : c.Linked) (ht : t ∈ c.tracks)
    (hr : r.track = t.id) : (c.deleteTrackAlbumArtist r).Counted := by
  have hrefiled := refiled_deleteTrackAlbumArtist hl ht hr
  rw [deleteTrackAlbumArtist_eq (hr ▸ hl.track? ht : c.track? r.track = some t)] at hrefiled ⊢
  exact h.relisted hrefiled rfl rfl rfl rfl rfl rfl rfl rfl rfl rfl rfl

/-! ### Tags -/

/-- The catalog with one tag of a track more, and its triggers. -/
def tagAdded (c : Catalog) (s : TrackTag) : Catalog :=
  { c with trackTags := c.trackTags ++ [s] }.trackTagsAdded s

/-- What a new tag and its triggers write, with the track looked up once. -/
theorem tagAdded_eq (ht : c.track? s.track = some t) :
    c.tagAdded s =
      Catalog.withArtistTags
        (Catalog.withAlbumTags
          { c.countTagTracks s.tag 1 with
            trackTags := c.trackTags ++ [s]
            tagSpellings := Tally.raise c.tagSpellings (s.tag, s.name) 1 }
          (Tally.raise c.albumTags (t.albumId, s.tag) 1))
        (((c.artistsOf s.track).map fun artist => (artist, s.tag)).foldl
          (fun t k => Tally.raise t k 1) c.artistTags) :=
  trackTagsAdded_eq (c := { c with trackTags := c.trackTags ++ [s] }) ht

theorem deleteTrackTag_eq (ht : c.track? s.track = some t) :
    c.deleteTrackTag s =
      Catalog.withArtistTags
        (Catalog.withAlbumTags
          { c.countTagTracks s.tag (-1) with
            trackTags := Keyed.without TrackTag.key c.trackTags s.key
            tagSpellings := Tally.lower c.tagSpellings
              (fun k => decide (s.tag = k.1 ∧ s.name = k.2)) 1 }
          (Tally.lower c.albumTags (fun k => decide (t.albumId = k.1 ∧ s.tag = k.2)) 1))
        (Tally.lower c.artistTags
          (fun k => decide (k.1 ∈ c.artistsOf s.track ∧ s.tag = k.2)) 1) :=
  trackTagsRemoved_eq
    (c := { c with trackTags := Keyed.without TrackTag.key c.trackTags s.key }) ht

theorem file_tagAdded (ht : c.track? s.track = some t) (v : Track) :
    (c.tagAdded s).file v = if v.id = s.track then (c.file v).tag s else c.file v := by
  rw [tagAdded_eq ht]
  by_cases hv : v.id = s.track
  · rw [if_pos hv]
    unfold Filed.tag file withArtistTags withAlbumTags
    congr 1
    exact filter_append_of_eq (decide_eq_true hv.symm)
  · rw [if_neg hv]
    unfold file withArtistTags withAlbumTags
    congr 1
    exact filter_append_of_ne fun h => hv (of_decide_eq_true h).symm

/-- A track without a tag. -/
def untagged (v : Filed) (s : TrackTag) : Filed :=
  { v with tags := Keyed.without TrackTag.key v.tags s.key }

theorem file_deleteTrackTag (ht : c.track? s.track = some t) (v : Track) :
    (c.deleteTrackTag s).file v = if v.id = s.track then untagged (c.file v) s else c.file v := by
  rw [deleteTrackTag_eq ht]
  by_cases hv : v.id = s.track
  · rw [if_pos hv]
    unfold untagged file withArtistTags withAlbumTags
    congr 1
    exact filter_without
  · rw [if_neg hv]
    unfold file withArtistTags withAlbumTags
    congr 1
    apply filter_without_of_ne
    intro held _ hheld hkey
    exact hv ((of_decide_eq_true hheld).symm.trans (Prod.ext_iff.mp hkey).1)

theorem refiled_tagAdded (hl : c.Linked) (ht : t ∈ c.tracks) (hs : s.track = t.id) :
    Refiled c (c.tagAdded s) (c.file t) ((c.file t).tag s) := by
  have htrack : c.track? s.track = some t := hs ▸ hl.track? ht
  have hfile := file_tagAdded htrack t
  rw [if_pos hs.symm] at hfile
  rw [← hfile]
  apply Refiled.of_links hl.tracks ht
  · rw [tagAdded_eq htrack]
    rfl
  · intro v hv
    rw [file_tagAdded htrack, if_neg (hs ▸ hv)]

theorem refiled_deleteTrackTag (hl : c.Linked) (ht : t ∈ c.tracks) (hs : s.track = t.id) :
    Refiled c (c.deleteTrackTag s) (c.file t) (untagged (c.file t) s) := by
  have htrack : c.track? s.track = some t := hs ▸ hl.track? ht
  have hfile := file_deleteTrackTag htrack t
  rw [if_pos hs.symm] at hfile
  rw [← hfile]
  apply Refiled.of_links hl.tracks ht
  · rw [deleteTrackTag_eq htrack]
    rfl
  · intro v hv
    rw [file_deleteTrackTag htrack, if_neg (hs ▸ hv)]

theorem same_untagged (hl : c.Linked) (hs : s.track = t.id) (hmem : s ∈ c.trackTags) :
    (c.file t).Same ((untagged (c.file t) s).tag s) where
  track := rfl
  credits := List.Perm.refl _
  listings := List.Perm.refl _
  tags := Filed.perm_without (hl.trackTags.sublist (List.filter_sublist.map _))
    (List.mem_filter.mpr ⟨hmem, decide_eq_true hs⟩)

theorem not_mem_untagged (hs : s.track = t.id) : s.tag ∉ (untagged (c.file t) s).tagIds := by
  intro htag
  obtain ⟨held, hheld, htag⟩ := List.mem_map.mp htag
  obtain ⟨hheld, hkey⟩ := Keyed.mem_without.mp hheld
  obtain ⟨_, htrack⟩ := List.mem_filter.mp hheld
  exact hkey (Prod.ext ((of_decide_eq_true htrack).trans hs.symm) htag)

theorem not_mem_tags (hs : s.track = t.id)
    (hnew : ∀ held ∈ c.trackTags, held.track = s.track → held.tag ≠ s.tag) :
    s.tag ∉ (c.file t).tagIds := by
  intro htag
  obtain ⟨held, hheld, htag⟩ := List.mem_map.mp htag
  obtain ⟨hheld, htrack⟩ := List.mem_filter.mp hheld
  exact hnew held hheld ((of_decide_eq_true htrack).trans hs.symm) htag

/-- A new tag raises the count rows by what it adds to the recount. -/
theorem Tallied.tagAdded (h : c.Tallied) (hl : c.Linked) (ht : t ∈ c.tracks) (hs : s.track = t.id)
    (hnew : ∀ held ∈ c.trackTags, held.track = s.track → held.tag ≠ s.tag) :
    (c.tagAdded s).Tallied := by
  have hrefiled := refiled_tagAdded hl ht hs
  have htag := not_mem_tags hs hnew
  rw [tagAdded_eq (hs ▸ hl.track? ht : c.track? s.track = some t)] at hrefiled ⊢
  refine ⟨?_, ?_, ?_, ?_, ?_, ?_, ?_⟩
  · exact hrefiled.same h.albumGroups fun _ => rfl
  · exact hrefiled.same h.albumCredits fun _ => rfl
  · exact hrefiled.raise_pair Filed.taggedOnAlbum_counts h.albumTags (Filed.taggedOnAlbum_tag htag)
  · apply hrefiled.raiseEach Filed.taggedByArtist_counts h.artistTags
    · exact (hl.artists_nodup s.track).map fun a b hab => (Prod.ext_iff.mp hab).1
    · intro k
      rw [Filed.taggedByArtist_tag htag]
      congr 1
      apply one_congr
      rw [hs, List.mem_map]
      constructor
      · rintro ⟨hartist, hk⟩
        exact ⟨k.1, hartist, Prod.ext rfl hk⟩
      · rintro ⟨artist, hartist, rfl⟩
        exact ⟨hartist, rfl⟩
  · exact hrefiled.same h.artistSpellings fun _ => rfl
  · exact hrefiled.same h.artistSortKeys fun _ => rfl
  · exact hrefiled.raise_pair Filed.spellsTag_counts h.tagSpellings Filed.spellsTag_tag

theorem Tallied.deleteTrackTag (h : c.Tallied) (hl : c.Linked) (ht : t ∈ c.tracks)
    (hs : s.track = t.id) (hmem : s ∈ c.trackTags) : (c.deleteTrackTag s).Tallied := by
  have hrefiled := refiled_deleteTrackTag hl ht hs
  have hsame := same_untagged hl hs hmem
  have htag := not_mem_untagged (c := c) hs
  rw [deleteTrackTag_eq (hs ▸ hl.track? ht : c.track? s.track = some t)] at hrefiled ⊢
  refine ⟨?_, ?_, ?_, ?_, ?_, ?_, ?_⟩
  · exact hrefiled.same h.albumGroups fun _ => rfl
  · exact hrefiled.same h.albumCredits fun _ => rfl
  · refine hrefiled.lowerEach Filed.taggedOnAlbum_counts h.albumTags
      (p := fun k => decide (t.albumId = k.1 ∧ s.tag = k.2)) fun k => ?_
    rw [hsame.taggedOnAlbum, Filed.taggedOnAlbum_tag htag]
    rfl
  · refine hrefiled.lowerEach Filed.taggedByArtist_counts h.artistTags
      (p := fun k => decide (k.1 ∈ c.artistsOf s.track ∧ s.tag = k.2)) fun k => ?_
    rw [hsame.taggedByArtist, Filed.taggedByArtist_tag htag, hs]
    rfl
  · exact hrefiled.same h.artistSpellings fun _ => rfl
  · exact hrefiled.same h.artistSortKeys fun _ => rfl
  · refine hrefiled.lowerEach Filed.spellsTag_counts h.tagSpellings
      (p := fun k => decide (s.tag = k.1 ∧ s.name = k.2)) fun k => ?_
    rw [hsame.spellsTag, Filed.spellsTag_tag]

/-- What a tag's triggers do to the counts of rows. -/
theorem Counted.retagged {c' : Catalog} {x' : Filed} {d : Int} (h : c.Counted)
    (hr : Refiled c c' (c.file t) x') (htotals : c'.totals = c.totals)
    (htracks : c'.tracks = c.tracks) (halbums : c'.albums = c.albums)
    (hcredits : c'.albumArtists = c.albumArtists) (hartists : c'.artists = c.artists)
    (hx : x'.track = t) (hxc : x'.credits = (c.file t).credits)
    (hxt : ∀ tag, x'.tagged tag = (c.file t).tagged tag + if tag = s.tag then d else 0)
    (htags : c'.tags = c.tags.map fun tag =>
      { tag with
        trackCount := tag.trackCount + if tag.id = s.tag then d else 0
        albumCount := tag.albumCount + (held c'.albumTags tag.id - held c.albumTags tag.id)
        artistCount := tag.artistCount + (held c'.artistTags tag.id - held c.artistTags tag.id) }) :
    c'.Counted := by
  have hby : ∀ a, x'.byArtist a = (c.file t).byArtist a := by
    intro a
    unfold Filed.byArtist Filed.artists
    rw [hxc]
  have havailable : ∀ a, x'.availableBy a = (c.file t).availableBy a := by
    intro a
    unfold Filed.availableBy Filed.artists
    rw [hxc, hx]
    rfl
  apply h.refiled hr htotals htracks halbums hcredits (by rw [hartists])
  · intro a ha
    rw [hartists] at ha
    exact ⟨a, ha, rfl, by rw [hby]; omega, by rw [havailable]; omega, rfl⟩
  · intro tag' htag'
    rw [htags] at htag'
    obtain ⟨tag, htag, rfl⟩ := List.mem_map.mp htag'
    refine ⟨tag, htag, rfl, ?_, rfl, rfl⟩
    rw [hxt]
    dsimp only
    omega

/-- The tags' rows once their albums and artists have followed the links. -/
theorem tags_following {counted : Catalog} (d : Int)
    (albumTags artistTags : Tally.Table (Id × Id) Int)
    (htags : counted.tags = (c.countTagTracks s.tag d).tags)
    (halbum : counted.albumTags = c.albumTags) (hartist : counted.artistTags = c.artistTags) :
    ((counted.withAlbumTags albumTags).withArtistTags artistTags).tags = c.tags.map fun tag =>
      { tag with
        trackCount := tag.trackCount + if tag.id = s.tag then d else 0
        albumCount := tag.albumCount + (held albumTags tag.id - held c.albumTags tag.id)
        artistCount := tag.artistCount + (held artistTags tag.id - held c.artistTags tag.id) } := by
  unfold withArtistTags withAlbumTags
  rw [htags, halbum, hartist]
  unfold countTagTracks
  rw [List.map_map, List.map_map]
  apply List.map_congr_left
  intro tag _
  rw [Function.comp_apply, Function.comp_apply]
  by_cases hid : tag.id = s.tag
  · rw [if_pos hid, if_pos hid]
  · rw [if_neg hid, if_neg hid, Int.add_zero]

/-- A new tag raises the tag's counts by what it adds to the recount. -/
theorem Counted.tagAdded (h : c.Counted) (hl : c.Linked) (ht : t ∈ c.tracks) (hs : s.track = t.id)
    (hnew : ∀ held ∈ c.trackTags, held.track = s.track → held.tag ≠ s.tag) :
    (c.tagAdded s).Counted := by
  have hrefiled := refiled_tagAdded hl ht hs
  have htag := not_mem_tags hs hnew
  rw [tagAdded_eq (hs ▸ hl.track? ht : c.track? s.track = some t)] at hrefiled ⊢
  refine h.retagged (s := s) (d := 1) hrefiled rfl rfl rfl rfl rfl rfl rfl ?_
    (tags_following 1 _ _ rfl rfl rfl)
  intro tag
  rw [Filed.tagged_tag htag, one]
  by_cases hid : tag = s.tag
  · rw [if_pos hid, if_pos (decide_eq_true hid.symm)]
  · rw [if_neg hid, if_neg (by simpa [eq_comm] using hid)]

theorem Counted.deleteTrackTag (h : c.Counted) (hl : c.Linked) (ht : t ∈ c.tracks)
    (hs : s.track = t.id) (hmem : s ∈ c.trackTags) : (c.deleteTrackTag s).Counted := by
  have hrefiled := refiled_deleteTrackTag hl ht hs
  have hsame := same_untagged hl hs hmem
  have htag := not_mem_untagged (c := c) hs
  rw [deleteTrackTag_eq (hs ▸ hl.track? ht : c.track? s.track = some t)] at hrefiled ⊢
  refine h.retagged (s := s) (d := -1) hrefiled rfl rfl rfl rfl rfl rfl rfl ?_
    (tags_following (-1) _ _ rfl rfl rfl)
  intro tag
  rw [hsame.tagged, Filed.tagged_tag htag, one]
  by_cases hid : tag = s.tag
  · rw [if_pos hid, if_pos (decide_eq_true hid.symm)]
    omega
  · rw [if_neg hid, if_neg (by simpa [eq_comm] using hid)]
    omega

end Catalog

end JewelCase.Content
