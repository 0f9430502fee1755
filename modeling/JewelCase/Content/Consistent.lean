import JewelCase.Content.TagCounts

/-!
# What keeps the counts as they are

Links that go leave the rest in place, and a change of what nothing is counted from leaves every count
right. With what each link adds, a link inserted or deleted keeps the catalog consistent.
-/
namespace JewelCase.Content

set_option autoImplicit false

open Library

/-- What a track's row says of other rows. -/
def Track.place (t : Track) : Id × Id × List Id := (t.id, t.albumId, t.albumArtistIds)

/-- A track without what it copies of other rows, and what no count reads of it. -/
def Track.plain (t : Track) : Track :=
  { t with
    artistSortKey := [], albumSortKey := [], title := [], path := [], rootId := 0
    trackNumber := none, imageId := none, imageEmbedded := false, artistImageId := none
    biographyId := none }

def Totals.counts (t : Totals) : Int × Int × Int × Int :=
  (t.trackCount, t.albumCount, t.artistCount, t.durationUs)

def Artist.counts (a : Artist) : Id × Int × Int × Int :=
  (a.id, a.albumCount, a.trackCount, a.availableTrackCount)

def Tag.counts (t : Tag) : Id × Int × Int × Int := (t.id, t.trackCount, t.albumCount, t.artistCount)

namespace Catalog

variable {c c' c'' : Catalog}

/-! ### Fewer links -/

/-- The same rows, with no link that was not there. -/
structure Fewer (c c' : Catalog) : Prop where
  tracks : c'.tracks.map Track.place = c.tracks.map Track.place
  albums : c'.albums.map Album.id = c.albums.map Album.id
  artists : c'.artists.map Artist.id = c.artists.map Artist.id
  tags : c'.tags.map Tag.id = c.tags.map Tag.id
  trackArtists : c'.trackArtists.Sublist c.trackArtists
  trackAlbumArtists : c'.trackAlbumArtists.Sublist c.trackAlbumArtists
  trackTags : c'.trackTags.Sublist c.trackTags
  albumArtists : c'.albumArtists.Sublist c.albumArtists

theorem exists_of_map {α β : Type} {key : α → β} {xs ys : List α} (h : ys.map key = xs.map key)
    {k : β} (hk : ∃ x ∈ xs, key x = k) : ∃ y ∈ ys, key y = k := by
  rw [← List.mem_map, h, List.mem_map]
  exact hk

theorem map_id_of_place {xs ys : List Track} (h : ys.map Track.place = xs.map Track.place) :
    ys.map Track.id = xs.map Track.id := by
  have hfst := congrArg (List.map Prod.fst) h
  rw [List.map_map, List.map_map] at hfst
  exact hfst

theorem exists_of_place {xs ys : List Track} (h : ys.map Track.place = xs.map Track.place) {y : Track}
    (hy : y ∈ ys) :
    ∃ x ∈ xs, x.id = y.id ∧ x.albumId = y.albumId ∧ x.albumArtistIds = y.albumArtistIds := by
  have hmem : y.place ∈ xs.map Track.place := h ▸ List.mem_map_of_mem hy
  obtain ⟨x, hx, hplace⟩ := List.mem_map.mp hmem
  obtain ⟨hid, hrest⟩ := Prod.ext_iff.mp hplace
  obtain ⟨halbum, hlisted⟩ := Prod.ext_iff.mp hrest
  exact ⟨x, hx, hid, halbum, hlisted⟩

theorem Linked.fewer (h : c.Linked) (hf : Fewer c c') : c'.Linked where
  tracks := map_id_of_place hf.tracks ▸ h.tracks
  albums := hf.albums ▸ h.albums
  artists := hf.artists ▸ h.artists
  tags := hf.tags ▸ h.tags
  credits := h.credits.sublist (hf.trackArtists.map _)
  creditArtists := h.creditArtists.sublist (hf.trackArtists.map _)
  listings := h.listings.sublist (hf.trackAlbumArtists.map _)
  trackTags := h.trackTags.sublist (hf.trackTags.map _)
  albumArtists := h.albumArtists.sublist (hf.albumArtists.map _)
  creditTracks := fun r hr =>
    exists_of_map (map_id_of_place hf.tracks) (h.creditTracks r (hf.trackArtists.subset hr))
  listingTracks := fun r hr =>
    exists_of_map (map_id_of_place hf.tracks) (h.listingTracks r (hf.trackAlbumArtists.subset hr))
  tagTracks := fun r hr =>
    exists_of_map (map_id_of_place hf.tracks) (h.tagTracks r (hf.trackTags.subset hr))
  creditRows := fun r hr =>
    exists_of_map hf.artists (h.creditRows r (hf.trackArtists.subset hr))
  listingRows := fun r hr =>
    exists_of_map hf.artists (h.listingRows r (hf.trackAlbumArtists.subset hr))
  tagRows := fun r hr => exists_of_map hf.tags (h.tagRows r (hf.trackTags.subset hr))
  albumRows := fun t ht => by
    obtain ⟨held, hheld, _, halbum, _⟩ := exists_of_place hf.tracks ht
    exact exists_of_map hf.albums (halbum ▸ h.albumRows held hheld)
  listedRows := fun t ht artist hartist => by
    obtain ⟨held, hheld, _, _, hlisted⟩ := exists_of_place hf.tracks ht
    exact exists_of_map hf.artists (h.listedRows held hheld artist (hlisted ▸ hartist))
  albumArtistRows := fun r hr =>
    exists_of_map hf.artists (h.albumArtistRows r (hf.albumArtists.subset hr))
  artistAlbums := fun r hr =>
    exists_of_map hf.albums (h.artistAlbums r (hf.albumArtists.subset hr))

/-! ### Nothing counted differs -/

/-- The same rows and links, but for what nothing is counted from. -/
structure Alike (c c' : Catalog) : Prop where
  tracks : c'.tracks.map Track.plain = c.tracks.map Track.plain
  albums : c'.albums.map Album.id = c.albums.map Album.id
  artists : c'.artists.map Artist.counts = c.artists.map Artist.counts
  tags : c'.tags.map Tag.counts = c.tags.map Tag.counts
  trackArtists : c'.trackArtists = c.trackArtists
  trackAlbumArtists : c'.trackAlbumArtists = c.trackAlbumArtists
  trackTags : c'.trackTags = c.trackTags
  albumArtists : c'.albumArtists = c.albumArtists
  albumCredits : c'.albumCredits = c.albumCredits
  albumTags : c'.albumTags = c.albumTags
  artistTags : c'.artistTags = c.artistTags
  artistSpellings : c'.artistSpellings = c.artistSpellings
  artistSortKeys : c'.artistSortKeys = c.artistSortKeys
  tagSpellings : c'.tagSpellings = c.tagSpellings
  albumGroups : c'.albumGroups = c.albumGroups
  totals : c'.totals.counts = c.totals.counts

theorem Alike.refl (c : Catalog) : Alike c c :=
  ⟨rfl, rfl, rfl, rfl, rfl, rfl, rfl, rfl, rfl, rfl, rfl, rfl, rfl, rfl, rfl, rfl⟩

theorem Alike.trans (h : Alike c c') (h' : Alike c' c'') : Alike c c'' where
  tracks := h'.tracks.trans h.tracks
  albums := h'.albums.trans h.albums
  artists := h'.artists.trans h.artists
  tags := h'.tags.trans h.tags
  trackArtists := h'.trackArtists.trans h.trackArtists
  trackAlbumArtists := h'.trackAlbumArtists.trans h.trackAlbumArtists
  trackTags := h'.trackTags.trans h.trackTags
  albumArtists := h'.albumArtists.trans h.albumArtists
  albumCredits := h'.albumCredits.trans h.albumCredits
  albumTags := h'.albumTags.trans h.albumTags
  artistTags := h'.artistTags.trans h.artistTags
  artistSpellings := h'.artistSpellings.trans h.artistSpellings
  artistSortKeys := h'.artistSortKeys.trans h.artistSortKeys
  tagSpellings := h'.tagSpellings.trans h.tagSpellings
  albumGroups := h'.albumGroups.trans h.albumGroups
  totals := h'.totals.trans h.totals

theorem map_comp_eq {α β γ : Type} {f : α → β} {xs ys : List α} (h : ys.map f = xs.map f)
    (g : β → γ) : ys.map (g ∘ f) = xs.map (g ∘ f) := by
  rw [← List.map_map, h, List.map_map]

/-- Where nothing counted differs, no row or link is new. -/
theorem Alike.fewer (h : Alike c c') : Fewer c c' where
  tracks := map_comp_eq h.tracks Track.place
  albums := h.albums
  artists := map_comp_eq h.artists Prod.fst
  tags := map_comp_eq h.tags Prod.fst
  trackArtists := h.trackArtists ▸ List.Sublist.refl _
  trackAlbumArtists := h.trackAlbumArtists ▸ List.Sublist.refl _
  trackTags := h.trackTags ▸ List.Sublist.refl _
  albumArtists := h.albumArtists ▸ List.Sublist.refl _

/-- A recount of what reads a track as if plain. -/
theorem Alike.recount {κ V : Type} [Tally.Amount V] (h : Alike c c') {w : Filed → κ → V}
    (hw : ∀ v : Filed, w { v with track := v.track.plain } = w v) (k : κ) :
    Tally.recount w c'.filed k = Tally.recount w c.filed k := by
  have hfiled : c'.filed.map (fun v => w v k) = c.filed.map (fun v => w v k) := by
    have hplain : ∀ (d : Catalog) (t : Track), w (d.file t) k = w (d.file t.plain) k := by
      intro d t
      rw [← hw (d.file t)]
      rfl
    have hfile : c'.file = c.file := by
      funext t
      unfold file
      rw [h.trackArtists, h.trackAlbumArtists, h.trackTags]
    unfold filed
    rw [List.map_map, List.map_map, hfile]
    have hmap := map_comp_eq h.tracks fun t => w (c.file t) k
    calc c'.tracks.map ((fun v => w v k) ∘ c.file)
        = c'.tracks.map ((fun t => w (c.file t) k) ∘ Track.plain) :=
          List.map_congr_left fun t _ => hplain c t
      _ = c.tracks.map ((fun t => w (c.file t) k) ∘ Track.plain) := hmap
      _ = c.tracks.map ((fun v => w v k) ∘ c.file) :=
          List.map_congr_left fun t _ => (hplain c t).symm
  unfold Tally.recount
  rw [hfiled]

/-- The count rows stay right where nothing they count differs. -/
theorem Alike.tallied (h : Alike c c') (ht : c.Tallied) : c'.Tallied where
  albumGroups := h.albumGroups ▸ ht.albumGroups.congr (h.recount fun _ => rfl)
  albumCredits := h.albumCredits ▸ ht.albumCredits.congr (h.recount fun _ => rfl)
  albumTags := h.albumTags ▸ ht.albumTags.congr (h.recount fun _ => rfl)
  artistTags := h.artistTags ▸ ht.artistTags.congr (h.recount fun _ => rfl)
  artistSpellings := h.artistSpellings ▸ ht.artistSpellings.congr (h.recount fun _ => rfl)
  artistSortKeys := h.artistSortKeys ▸ ht.artistSortKeys.congr (h.recount fun _ => rfl)
  tagSpellings := h.tagSpellings ▸ ht.tagSpellings.congr (h.recount fun _ => rfl)

theorem Alike.artist (h : Alike c c') {a' : Artist} (ha' : a' ∈ c'.artists) :
    ∃ a ∈ c.artists, a'.counts = a.counts := by
  have hmem : a'.counts ∈ c.artists.map Artist.counts := h.artists ▸ List.mem_map_of_mem ha'
  obtain ⟨a, ha, hcounts⟩ := List.mem_map.mp hmem
  exact ⟨a, ha, hcounts.symm⟩

theorem Alike.tag (h : Alike c c') {t' : Tag} (ht' : t' ∈ c'.tags) :
    ∃ t ∈ c.tags, t'.counts = t.counts := by
  have hmem : t'.counts ∈ c.tags.map Tag.counts := h.tags ▸ List.mem_map_of_mem ht'
  obtain ⟨t, ht, hcounts⟩ := List.mem_map.mp hmem
  exact ⟨t, ht, hcounts.symm⟩

theorem length_of_map {α β : Type} {f : α → β} {xs ys : List α} (h : ys.map f = xs.map f) :
    ys.length = xs.length := by
  have hlength := congrArg List.length h
  rwa [List.length_map, List.length_map] at hlength

theorem Alike.counted (h : Alike c c') (hc : c.Counted) : c'.Counted where
  tracks := by
    rw [length_of_map h.tracks, ← hc.tracks]
    exact congrArg Prod.fst h.totals
  albums := by
    rw [length_of_map h.albums, ← hc.albums]
    exact congrArg (fun p => p.2.1) h.totals
  artists := by
    rw [length_of_map h.artists, ← hc.artists]
    exact congrArg (fun p => p.2.2.1) h.totals
  duration := by
    have hdurations : c'.tracks.map Track.durationUs = c.tracks.map Track.durationUs :=
      map_comp_eq h.tracks Track.durationUs
    rw [hdurations, ← hc.duration]
    exact congrArg (fun p => p.2.2.2) h.totals
  artistTracks := fun a' ha' => by
    obtain ⟨a, ha, hcounts⟩ := h.artist ha'
    have hid : a'.id = a.id := congrArg Prod.fst hcounts
    have htracks : a'.trackCount = a.trackCount := congrArg (fun p => p.2.2.1) hcounts
    rw [htracks, hid, h.recount fun _ => rfl, hc.artistTracks a ha]
  artistAvailable := fun a' ha' => by
    obtain ⟨a, ha, hcounts⟩ := h.artist ha'
    have hid : a'.id = a.id := congrArg Prod.fst hcounts
    have havailable : a'.availableTrackCount = a.availableTrackCount :=
      congrArg (fun p => p.2.2.2) hcounts
    rw [havailable, hid, h.recount fun _ => rfl, hc.artistAvailable a ha]
  artistAlbums := fun a' ha' => by
    obtain ⟨a, ha, hcounts⟩ := h.artist ha'
    have hid : a'.id = a.id := congrArg Prod.fst hcounts
    have halbums : a'.albumCount = a.albumCount := congrArg (fun p => p.2.1) hcounts
    rw [halbums, hid, h.albumArtists, hc.artistAlbums a ha]
  tagTracks := fun t' ht' => by
    obtain ⟨t, ht, hcounts⟩ := h.tag ht'
    have hid : t'.id = t.id := congrArg Prod.fst hcounts
    have htracks : t'.trackCount = t.trackCount := congrArg (fun p => p.2.1) hcounts
    rw [htracks, hid, h.recount fun _ => rfl, hc.tagTracks t ht]
  tagAlbums := fun t' ht' => by
    obtain ⟨t, ht, hcounts⟩ := h.tag ht'
    have hid : t'.id = t.id := congrArg Prod.fst hcounts
    have halbums : t'.albumCount = t.albumCount := congrArg (fun p => p.2.2.1) hcounts
    rw [halbums, hid, h.albumTags, hc.tagAlbums t ht]
  tagArtists := fun t' ht' => by
    obtain ⟨t, ht, hcounts⟩ := h.tag ht'
    have hid : t'.id = t.id := congrArg Prod.fst hcounts
    have hartists : t'.artistCount = t.artistCount := congrArg (fun p => p.2.2.2) hcounts
    rw [hartists, hid, h.artistTags, hc.tagArtists t ht]

/-- What writes nothing that is counted keeps the counts. -/
theorem Consistent.alike (h : c.Consistent) (ha : Alike c c') : c'.Consistent :=
  ⟨ha.tallied h.tallied, ha.counted h.counted, h.linked.fewer ha.fewer⟩

end Catalog

end JewelCase.Content
