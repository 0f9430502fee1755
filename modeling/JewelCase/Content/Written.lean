import JewelCase.Content.Recomputed

/-!
# A file written

What each part of a transaction leaves of the catalog: other tracks keep their rows and links, new rows
are only of what the transaction touches, and what a track pointed at before is touched. So once it is
written all is counted, and a row that no track needs any more is still to be brought up to date.
-/
namespace JewelCase.Content

set_option autoImplicit false

open Library

/-- Everything the one names, the other does. -/
structure Touched.Within (touched more : Touched) : Prop where
  albums : ∀ id ∈ touched.albums, id ∈ more.albums
  artists : ∀ id ∈ touched.artists, id ∈ more.artists
  tags : ∀ id ∈ touched.tags, id ∈ more.tags

theorem Touched.Within.refl (touched : Touched) : touched.Within touched :=
  ⟨fun _ => id, fun _ => id, fun _ => id⟩

theorem Touched.Within.trans {a b c : Touched} (h : a.Within b) (h' : b.Within c) : a.Within c :=
  ⟨fun id hid => h'.albums id (h.albums id hid), fun id hid => h'.artists id (h.artists id hid),
    fun id hid => h'.tags id (h.tags id hid)⟩

namespace Catalog

variable {c c' c'' : Catalog} {rules : Rules} {now : Int} {track : Id} {touched more : Touched}

/-! ### What is written beside a track -/

/-- The links of other tracks. -/
def ofOthers (rows : List Credit) (track : Id) : List Credit :=
  rows.filter fun r => !decide (r.track = track)

/-- Rows are kept, and new ones are of what is touched. -/
structure Grows (touched rows rows' : List Id) : Prop where
  kept : ∀ id ∈ rows, id ∈ rows'
  added : ∀ id ∈ rows', id ∈ rows ∨ id ∈ touched

section Grows

variable {ids ids' rows rows' rows'' : List Id}

theorem Grows.refl (ids rows : List Id) : Grows ids rows rows := ⟨fun _ => id, fun _ => Or.inl⟩

theorem Grows.of_eq (ids : List Id) (h : rows' = rows) : Grows ids rows rows' := h ▸ .refl ids rows

theorem Grows.trans (h : Grows ids rows rows') (h' : Grows ids rows' rows'') :
    Grows ids rows rows'' :=
  ⟨fun id hid => h'.kept id (h.kept id hid), fun id hid =>
    (h'.added id hid).elim (h.added id) Or.inr⟩

theorem Grows.within (h : Grows ids rows rows') (hids : ∀ id ∈ ids, id ∈ ids') :
    Grows ids' rows rows' :=
  ⟨h.kept, fun id hid => (h.added id hid).imp_right (hids id)⟩

theorem Grows.append {id : Id} (h : id ∈ ids) : Grows ids rows (rows ++ [id]) := by
  refine ⟨fun _ hmem => List.mem_append_left _ hmem, fun other hmem => ?_⟩
  refine (List.mem_append.mp hmem).imp_right fun hlast => ?_
  rw [List.mem_singleton.mp hlast]
  exact h

end Grows

/-- Other tracks keep their rows and links, new rows are of what is touched, and the feed stays. -/
structure Writes (track : Id) (touched : Touched) (c c' : Catalog) : Prop where
  tracks : Keyed.without Track.id c'.tracks track = Keyed.without Track.id c.tracks track
  credits : ofOthers c'.trackArtists track = ofOthers c.trackArtists track
  listings : ofOthers c'.trackAlbumArtists track = ofOthers c.trackAlbumArtists track
  trackTags : (c'.trackTags.filter fun r => !decide (r.track = track)) =
    c.trackTags.filter fun r => !decide (r.track = track)
  albums : Grows touched.albums (c.albums.map Album.id) (c'.albums.map Album.id)
  artists : Grows touched.artists (c.artists.map Artist.id) (c'.artists.map Artist.id)
  tags : Grows touched.tags (c.tags.map Tag.id) (c'.tags.map Tag.id)
  feed : c'.feed = c.feed
  lastSeq : c'.lastSeq = c.lastSeq

theorem Writes.refl (track : Id) (touched : Touched) (c : Catalog) : Writes track touched c c :=
  ⟨rfl, rfl, rfl, rfl, .refl _ _, .refl _ _, .refl _ _, rfl, rfl⟩

theorem Writes.trans (h : Writes track touched c c') (h' : Writes track touched c' c'') :
    Writes track touched c c'' where
  tracks := h'.tracks.trans h.tracks
  credits := h'.credits.trans h.credits
  listings := h'.listings.trans h.listings
  trackTags := h'.trackTags.trans h.trackTags
  albums := h.albums.trans h'.albums
  artists := h.artists.trans h'.artists
  tags := h.tags.trans h'.tags
  feed := h'.feed.trans h.feed
  lastSeq := h'.lastSeq.trans h.lastSeq

theorem Writes.within (h : Writes track touched c c') (hw : touched.Within more) :
    Writes track more c c' :=
  { h with
    albums := h.albums.within hw.albums
    artists := h.artists.within hw.artists
    tags := h.tags.within hw.tags }

theorem map_id_bare (c : Catalog) : c.bare.artists.map Artist.id = c.artists.map Artist.id :=
  List.map_map

theorem map_id_bare_tags (c : Catalog) : c.bare.tags.map Tag.id = c.tags.map Tag.id :=
  List.map_map

/-- What a statement writes of rows and links is read off the catalog without its counts. -/
theorem writes_bare : Writes track touched c.bare c'.bare ↔ Writes track touched c c' := by
  constructor
  · intro h
    have hartists := h.artists
    have htags := h.tags
    rw [map_id_bare, map_id_bare] at hartists
    rw [map_id_bare_tags, map_id_bare_tags] at htags
    exact ⟨h.tracks, h.credits, h.listings, h.trackTags, h.albums, hartists, htags, h.feed,
      h.lastSeq⟩
  · intro h
    have hartists := h.artists
    have htags := h.tags
    rw [← map_id_bare, ← map_id_bare c'] at hartists
    rw [← map_id_bare_tags, ← map_id_bare_tags c'] at htags
    exact ⟨h.tracks, h.credits, h.listings, h.trackTags, h.albums, hartists, htags, h.feed,
      h.lastSeq⟩

/-- The images and the biography that a file brings are no rows or links of a track. -/
theorem writes_sidecarRows (rec : Record) (track : Id) (touched : Touched) :
    Writes track touched c (c.sidecarRows rec) :=
  ⟨rfl, rfl, rfl, rfl, .refl _ _, .refl _ _, .refl _ _, rfl, rfl⟩

/-- A row that other tracks need, or that is touched. -/
structure Apart (c : Catalog) (track : Id) (touched : Touched) : Prop where
  albums : Owed (c.albums.map Album.id) (fun id => ∃ t ∈ c.tracks, t.id ≠ track ∧ t.albumId = id)
    touched.albums
  artists : Owed (c.artists.map Artist.id)
    (fun id => ∃ r ∈ c.trackArtists ++ c.trackAlbumArtists, r.track ≠ track ∧ r.artist = id)
    touched.artists
  tags : Owed (c.tags.map Tag.id) (fun id => ∃ r ∈ c.trackTags, r.track ≠ track ∧ r.tag = id)
    touched.tags

theorem mem_ofOthers {rows : List Credit} {r : Credit} :
    r ∈ ofOthers rows track ↔ r ∈ rows ∧ r.track ≠ track := by
  unfold ofOthers
  rw [List.mem_filter, Bool.not_eq_true', decide_eq_false_iff_not]

theorem mem_tags_others {rows : List TrackTag} {r : TrackTag} :
    r ∈ (rows.filter fun r => !decide (r.track = track)) ↔ r ∈ rows ∧ r.track ≠ track := by
  rw [List.mem_filter, Bool.not_eq_true', decide_eq_false_iff_not]

theorem credited_iff {artist : Id} :
    c.credited artist = true ↔ ∃ r ∈ c.trackArtists ++ c.trackAlbumArtists, r.artist = artist := by
  unfold credited
  rw [← List.any_append, List.any_eq_true]
  simp only [decide_eq_true_eq]

theorem carried_iff {tag : Id} : c.carried tag = true ↔ ∃ r ∈ c.trackTags, r.tag = tag := by
  unfold carried
  rw [List.any_eq_true]
  simp only [decide_eq_true_eq]

/-- Rows that other tracks need, or that are touched, leave nothing over. -/
theorem Apart.pending (h : Apart c track touched) : Pending c touched where
  albums := fun id hid => by
    refine (h.albums id hid).imp_left ?_
    rintro ⟨t, ht, _, halbum⟩
    exact ⟨t, ht, halbum⟩
  artists := fun id hid => by
    refine (h.artists id hid).imp_left ?_
    rintro ⟨r, hr, _, hartist⟩
    exact credited_iff.mpr ⟨r, hr, hartist⟩
  tags := fun id hid => by
    refine (h.tags id hid).imp_left ?_
    rintro ⟨r, hr, _, htag⟩
    exact carried_iff.mpr ⟨r, hr, htag⟩

/-- Rows that other tracks need still are needed. -/
theorem Apart.writes (h : Apart c track touched) (hw : Writes track more c c')
    (hmore : touched.Within more) : Apart c' track more where
  albums := fun id hid => by
    rcases hw.albums.added id hid with hid | hid
    · refine (h.albums id hid).imp ?_ (hmore.albums id)
      rintro ⟨t, ht, hne, halbum⟩
      have hmem : t ∈ Keyed.without Track.id c'.tracks track :=
        hw.tracks ▸ Keyed.mem_without.mpr ⟨ht, hne⟩
      exact ⟨t, (Keyed.mem_without.mp hmem).1, hne, halbum⟩
    · exact Or.inr hid
  artists := fun id hid => by
    rcases hw.artists.added id hid with hid | hid
    · refine (h.artists id hid).imp ?_ (hmore.artists id)
      rintro ⟨r, hr, hne, hartist⟩
      refine ⟨r, List.mem_append.mpr ?_, hne, hartist⟩
      rcases List.mem_append.mp hr with hr | hr
      · exact Or.inl (mem_ofOthers.mp (hw.credits ▸ mem_ofOthers.mpr ⟨hr, hne⟩)).1
      · exact Or.inr (mem_ofOthers.mp (hw.listings ▸ mem_ofOthers.mpr ⟨hr, hne⟩)).1
    · exact Or.inr hid
  tags := fun id hid => by
    rcases hw.tags.added id hid with hid | hid
    · refine (h.tags id hid).imp ?_ (hmore.tags id)
      rintro ⟨r, hr, hne, htag⟩
      exact ⟨r, (mem_tags_others.mp (hw.trackTags ▸ mem_tags_others.mpr ⟨hr, hne⟩)).1, hne, htag⟩
    · exact Or.inr hid

theorem within_touch (c : Catalog) (touched : Touched) (track : Id) :
    touched.Within (c.touch touched track) :=
  ⟨fun _ hid => List.mem_union_iff.mpr (Or.inl hid), fun _ hid => List.mem_union_iff.mpr (Or.inl hid),
    fun _ hid => List.mem_union_iff.mpr (Or.inl hid)⟩

/-- What a track points at is touched, so a row is apart from it. -/
theorem Pending.touch (h : Pending c touched) (hl : c.Linked) (track : Id) :
    Apart c track (c.touch touched track) where
  albums := fun id hid => by
    rcases h.albums id hid with ⟨t, ht, halbum⟩ | hid
    · by_cases heq : t.id = track
      · have hfind : c.albumOf track = some id := by
          have hfound := (Keyed.find_eq_some hl.tracks).mpr ⟨ht, heq⟩
          unfold albumOf track?
          rw [hfound, Option.map_some, halbum]
        right
        refine List.mem_union_iff.mpr (Or.inr ?_)
        rw [hfind]
        exact List.mem_singleton_self id
      · exact Or.inl ⟨t, ht, heq, halbum⟩
    · exact Or.inr ((within_touch c touched track).albums id hid)
  artists := fun id hid => by
    rcases h.artists id hid with hcredited | hid
    · obtain ⟨r, hr, hartist⟩ := credited_iff.mp hcredited
      by_cases heq : r.track = track
      · right
        refine List.mem_union_iff.mpr (Or.inr (List.mem_append.mpr ?_))
        rw [← hartist]
        rcases List.mem_append.mp hr with hr | hr
        · exact Or.inl (List.mem_map_of_mem (List.mem_filter.mpr ⟨hr, decide_eq_true heq⟩))
        · exact Or.inr (List.mem_map_of_mem (List.mem_filter.mpr ⟨hr, decide_eq_true heq⟩))
      · exact Or.inl ⟨r, hr, heq, hartist⟩
    · exact Or.inr ((within_touch c touched track).artists id hid)
  tags := fun id hid => by
    rcases h.tags id hid with hcarried | hid
    · obtain ⟨r, hr, htag⟩ := carried_iff.mp hcarried
      by_cases heq : r.track = track
      · right
        refine List.mem_union_iff.mpr (Or.inr ?_)
        rw [← htag]
        exact List.mem_map_of_mem (List.mem_filter.mpr ⟨hr, decide_eq_true heq⟩)
      · exact Or.inl ⟨r, hr, heq, htag⟩
    · exact Or.inr ((within_touch c touched track).tags id hid)

/-- A track that has no row needs none. -/
theorem Pending.apart (h : Pending c touched) (hl : c.Linked)
    (hnew : ∀ t ∈ c.tracks, t.id ≠ track) : Apart c track touched where
  albums := fun id hid => (h.albums id hid).imp_left fun ⟨t, ht, halbum⟩ =>
    ⟨t, ht, hnew t ht, halbum⟩
  artists := fun id hid => (h.artists id hid).imp_left fun hcredited => by
    obtain ⟨r, hr, hartist⟩ := credited_iff.mp hcredited
    refine ⟨r, hr, ?_, hartist⟩
    rcases List.mem_append.mp hr with hr | hr
    · obtain ⟨t, ht, hid⟩ := hl.creditTracks r hr
      exact hid ▸ hnew t ht
    · obtain ⟨t, ht, hid⟩ := hl.listingTracks r hr
      exact hid ▸ hnew t ht
  tags := fun id hid => (h.tags id hid).imp_left fun hcarried => by
    obtain ⟨r, hr, htag⟩ := carried_iff.mp hcarried
    obtain ⟨t, ht, hid⟩ := hl.tagTracks r hr
    exact ⟨r, hr, hid ▸ hnew t ht, htag⟩

/-- Each artist that another track's row lists has its listing. -/
theorem Writes.listsEach (h : Writes track touched c c') (hl : c.ListsEach)
    (htrack : ∀ t ∈ c'.tracks, t.id = track → ∀ artist ∈ t.albumArtistIds,
      ∃ r ∈ c'.trackAlbumArtists, r.track = t.id ∧ r.artist = artist) : c'.ListsEach := by
  intro t ht artist hartist
  by_cases heq : t.id = track
  · exact htrack t ht heq artist hartist
  · have hmem : t ∈ Keyed.without Track.id c.tracks track :=
      h.tracks ▸ Keyed.mem_without.mpr ⟨ht, heq⟩
    obtain ⟨r, hr, hid, hlisted⟩ := hl t (Keyed.mem_without.mp hmem).1 artist hartist
    have hother : r ∈ ofOthers c'.trackAlbumArtists track :=
      h.listings ▸ mem_ofOthers.mpr ⟨hr, hid ▸ heq⟩
    exact ⟨r, (mem_ofOthers.mp hother).1, hid, hlisted⟩

/-! ### Finding or creating -/

/-- The same tracks and links, and new rows only of what is touched. -/
structure Adds (touched : Touched) (c c' : Catalog) : Prop where
  tracks : c'.tracks = c.tracks
  trackArtists : c'.trackArtists = c.trackArtists
  trackAlbumArtists : c'.trackAlbumArtists = c.trackAlbumArtists
  trackTags : c'.trackTags = c.trackTags
  albums : Grows touched.albums (c.albums.map Album.id) (c'.albums.map Album.id)
  artists : Grows touched.artists (c.artists.map Artist.id) (c'.artists.map Artist.id)
  tags : c'.tags = c.tags
  feed : c'.feed = c.feed
  lastSeq : c'.lastSeq = c.lastSeq

theorem Adds.refl (touched : Touched) (c : Catalog) : Adds touched c c :=
  ⟨rfl, rfl, rfl, rfl, .refl _ _, .refl _ _, rfl, rfl, rfl⟩

theorem Adds.trans (h : Adds touched c c') (h' : Adds touched c' c'') : Adds touched c c'' where
  tracks := h'.tracks.trans h.tracks
  trackArtists := h'.trackArtists.trans h.trackArtists
  trackAlbumArtists := h'.trackAlbumArtists.trans h.trackAlbumArtists
  trackTags := h'.trackTags.trans h.trackTags
  albums := h.albums.trans h'.albums
  artists := h.artists.trans h'.artists
  tags := h'.tags.trans h.tags
  feed := h'.feed.trans h.feed
  lastSeq := h'.lastSeq.trans h.lastSeq

theorem Adds.writes (h : Adds touched c c') (track : Id) : Writes track touched c c' where
  tracks := by rw [h.tracks]
  credits := by rw [h.trackArtists]
  listings := by rw [h.trackAlbumArtists]
  trackTags := by rw [h.trackTags]
  albums := h.albums
  artists := h.artists
  tags := .of_eq _ (by rw [h.tags])
  feed := h.feed
  lastSeq := h.lastSeq

theorem mem_map_append {α : Type} {key : α → Id} {rows : List α} {x : α} {id : Id} :
    id ∈ (rows ++ [x]).map key ↔ id ∈ rows.map key ∨ id = key x := by
  rw [List.map_append, List.mem_append, List.map_singleton, List.mem_singleton]

/-- An artist that a file names first is a new row that it touched. -/
theorem adds_insertArtist {a : Artist} (hid : a.id ∈ touched.artists)
    (hc' : c.insertArtist a = some c') : Adds touched c c' ∧ a.id ∈ c'.artists.map Artist.id := by
  unfold insertArtist at hc'
  split at hc'
  · cases hc'
  rw [← Option.some.inj hc']
  refine ⟨⟨rfl, rfl, rfl, rfl, .refl _ _, ?_, rfl, rfl, rfl⟩, mem_map_append.mpr (Or.inr rfl)⟩
  rw [List.map_append]
  exact .append hid

theorem adds_insertAlbum {a : Album} (hid : a.id ∈ touched.albums)
    (hc' : c.insertAlbum a = some c') : Adds touched c c' ∧ a.id ∈ c'.albums.map Album.id := by
  unfold insertAlbum at hc'
  split at hc'
  · cases hc'
  rw [← Option.some.inj hc']
  refine ⟨⟨rfl, rfl, rfl, rfl, ?_, .refl _ _, rfl, rfl, rfl⟩, mem_map_append.mpr (Or.inr rfl)⟩
  rw [List.map_append]
  exact .append hid

theorem found_row {α κ : Type} [DecidableEq κ] {key : α → κ} {id : α → Id} {rows : List α} {k : κ}
    {x : α} (h : Keyed.find key rows k = some x) : id x ∈ rows.map id := by
  unfold Keyed.find at h
  exact List.mem_map_of_mem (List.mem_of_find?_eq_some h)

/-- An artist found or created has a row, and the counts stay right. -/
theorem Consistent.findOrCreateArtist (h : c.Consistent) {draws : Draws} {name : Option Text}
    {id : Id} (hc' : c.findOrCreateArtist rules draws name = some (c', id))
    (hid : id ∈ touched.artists) :
    c'.Consistent ∧ Adds touched c c' ∧ id ∈ c'.artists.map Artist.id := by
  unfold Catalog.findOrCreateArtist at hc'
  dsimp only at hc'
  cases hfind : Keyed.find Artist.nameKey c.artists ((name.map rules.nameKey).getD []) with
  | some artist =>
    rw [hfind] at hc'
    obtain ⟨rfl, rfl⟩ := Prod.ext_iff.mp (Option.some.inj hc')
    exact ⟨h, Adds.refl touched c, found_row hfind⟩
  | none =>
    rw [hfind] at hc'
    obtain ⟨added, hadded, hrest⟩ := Option.bind_eq_some_iff.mp hc'
    obtain ⟨rfl, rfl⟩ := Prod.ext_iff.mp (Option.some.inj hrest)
    obtain ⟨hadds, hrow⟩ := adds_insertArtist hid hadded
    exact ⟨h.insertArtist rfl hadded, hadds, hrow⟩

/-- An album found or created has a row, and the counts stay right. -/
theorem Consistent.findOrCreateAlbum (h : c.Consistent) {draws : Draws} {title : Option Text}
    {artistsKey : Text} {sortKey : SortKey} {id : Id}
    (hc' : c.findOrCreateAlbum rules draws title artistsKey sortKey = some (c', id))
    (hid : id ∈ touched.albums) :
    c'.Consistent ∧ Adds touched c c' ∧ id ∈ c'.albums.map Album.id := by
  unfold Catalog.findOrCreateAlbum at hc'
  dsimp only at hc'
  cases hfind : Keyed.find (fun a : Album => (a.titleKey, a.artistsKey)) c.albums
      ((title.map rules.nameKey).getD [], artistsKey) with
  | some album =>
    rw [hfind] at hc'
    obtain ⟨rfl, rfl⟩ := Prod.ext_iff.mp (Option.some.inj hc')
    exact ⟨h, Adds.refl touched c, found_row hfind⟩
  | none =>
    rw [hfind] at hc'
    obtain ⟨added, hadded, hrest⟩ := Option.bind_eq_some_iff.mp hc'
    obtain ⟨rfl, rfl⟩ := Prod.ext_iff.mp (Option.some.inj hrest)
    obtain ⟨hadds, hrow⟩ := adds_insertAlbum hid hadded
    exact ⟨h.insertAlbum hadded, hadds, hrow⟩

/-- Every artist that a file names has a row once it is credited. -/
theorem Consistent.artistIds (h : c.Consistent) (touched : Touched) {draws : Draws}
    {names : List (Option Text)} {credits : List Named}
    (hc' : Catalog.artistIds rules draws c names = some (c', credits))
    (hids : ∀ credit ∈ credits, credit.1 ∈ touched.artists) :
    c'.Consistent ∧ Adds touched c c' ∧
      ∀ credit ∈ credits, credit.1 ∈ c'.artists.map Artist.id := by
  induction names generalizing c credits with
  | nil =>
    obtain ⟨rfl, rfl⟩ := Prod.ext_iff.mp (Option.some.inj hc')
    exact ⟨h, Adds.refl touched c, fun _ hmem => absurd hmem List.not_mem_nil⟩
  | cons name names ih =>
    unfold Catalog.artistIds at hc'
    obtain ⟨⟨mid, id⟩, hmid, hrest⟩ := Option.bind_eq_some_iff.mp hc'
    obtain ⟨⟨last, rest⟩, hlast, hdone⟩ := Option.bind_eq_some_iff.mp hrest
    obtain ⟨rfl, rfl⟩ := Prod.ext_iff.mp (Option.some.inj hdone)
    obtain ⟨hcons, hadds, hrow⟩ := h.findOrCreateArtist hmid (hids _ List.mem_cons_self)
    obtain ⟨hcons', hadds', hrows⟩ := ih hcons hlast
      fun credit hmem => hids credit (List.mem_cons_of_mem _ hmem)
    refine ⟨hcons', hadds.trans hadds', fun credit hmem => ?_⟩
    rcases List.mem_cons.mp hmem with rfl | hmem
    · exact hadds'.artists.kept _ hrow
    · exact hrows credit hmem

/-- What is kept once lists every artist. -/
theorem mem_listedOnce {listed : List Named} (held : List Id) {credit : Named}
    (h : credit ∈ listed) :
    credit.1 ∈ held ∨ credit.1 ∈ (listedOnce held listed).map Prod.fst := by
  induction listed generalizing held with
  | nil => cases h
  | cons first rest ih =>
    unfold listedOnce
    by_cases hheld : held.contains first.1 = true
    · rw [if_pos hheld]
      rcases List.mem_cons.mp h with rfl | h
      · exact Or.inl (List.contains_iff_mem.mp hheld)
      · exact ih held h
    · rw [if_neg hheld, List.map_cons, List.mem_cons]
      rcases List.mem_cons.mp h with rfl | h
      · exact Or.inr (Or.inl rfl)
      · rcases ih (first.1 :: held) h with hmem | hmem
        · rcases List.mem_cons.mp hmem with heq | hmem
          · exact Or.inr (Or.inl heq)
          · exact Or.inl hmem
        · exact Or.inr (Or.inr hmem)

theorem listedOnce_sublist (held : List Id) (listed : List Named) :
    (listedOnce held listed).Sublist listed := by
  induction listed generalizing held with
  | nil => exact List.Sublist.refl _
  | cons first rest ih =>
    unfold listedOnce
    split
    · exact (ih held).cons first
    · exact (ih (first.1 :: held)).cons_cons first

/-- What a file's credits and its album refer to. -/
structure Placed (c : Catalog) (credits : Credits) : Prop where
  artists : ∀ credit ∈ credits.artists, credit.1 ∈ c.artists.map Artist.id
  albumArtists : ∀ credit ∈ credits.albumArtists, credit.1 ∈ c.artists.map Artist.id
  album : credits.albumId ∈ c.albums.map Album.id

/-- A file's artists, album artists and album have rows, and the counts stay right. -/
theorem Consistent.credits (h : c.Consistent) {draws : Draws} {rec : Record} {credits : Credits}
    (hc' : c.credits rules draws rec = some (c', credits))
    (hartists : ∀ id ∈ (credits.artists ++ credits.albumArtists).map Prod.fst, id ∈ touched.artists)
    (halbum : credits.albumId ∈ touched.albums) :
    c'.Consistent ∧ Adds touched c c' ∧ Placed c' credits := by
  unfold Catalog.credits at hc'
  obtain ⟨⟨first, artists⟩, hfirst, hrest⟩ := Option.bind_eq_some_iff.mp hc'
  obtain ⟨⟨second, listed⟩, hsecond, hrest⟩ := Option.bind_eq_some_iff.mp hrest
  obtain ⟨⟨last, album⟩, hlast, hdone⟩ := Option.bind_eq_some_iff.mp hrest
  obtain ⟨rfl, rfl⟩ := Prod.ext_iff.mp (Option.some.inj hdone)
  dsimp only at hartists halbum
  rw [List.map_append] at hartists
  obtain ⟨hcons, hadds, hrows⟩ := h.artistIds touched hfirst fun credit hmem =>
    hartists _ (List.mem_append_left _ (List.mem_map_of_mem hmem))
  obtain ⟨hcons', hadds', hrows'⟩ := hcons.artistIds touched hsecond
    fun credit hmem => by
      rcases mem_listedOnce [] hmem with hmem | hmem
      · cases hmem
      · exact hartists _ (List.mem_append_right _ hmem)
  obtain ⟨hcons'', hadds'', hrow⟩ := hcons'.findOrCreateAlbum hlast halbum
  refine ⟨hcons'', (hadds.trans hadds').trans hadds'', ⟨fun credit hmem => ?_,
    fun credit hmem => ?_, hrow⟩⟩
  · exact hadds''.artists.kept _ (hadds'.artists.kept _ (hrows credit hmem))
  · exact hadds''.artists.kept _ (hrows' credit ((listedOnce_sublist [] listed).subset hmem))

/-! ### A file's row -/

theorem without_replaced (tracks : List Track) {new : Track} (hid : new.id = track) :
    Keyed.without Track.id (tracks.map fun t => if t.id = new.id then new else t) track =
      Keyed.without Track.id tracks track := by
  induction tracks with
  | nil => rfl
  | cons t tracks ih =>
    unfold Keyed.without at ih ⊢
    rw [List.map_cons]
    by_cases heq : t.id = new.id
    · rw [if_pos heq, List.filter_cons_of_neg (by simp [hid]),
        List.filter_cons_of_neg (by simp [heq, hid]), ih]
    · rw [if_neg heq, List.filter_cons_of_pos (by simpa [hid] using heq),
        List.filter_cons_of_pos (by simpa [hid] using heq), ih]

/-- Updating a track writes no row or link of another. -/
theorem writes_updateTrack (old : Track) {new : Track} (touched : Touched) (hid : new.id = track) :
    Writes track touched c (c.updateTrack old new) := by
  rw [← writes_bare, bare_updateTrack]
  exact ⟨without_replaced c.tracks hid, rfl, rfl, rfl, .refl _ _, .refl _ _, .refl _ _, rfl, rfl⟩

theorem writes_insertTrack {t : Track} (touched : Touched) (hid : t.id = track) :
    Writes track touched c (c.insertTrack t) := by
  refine ⟨?_, rfl, rfl, rfl, .refl _ _, .refl _ _, .refl _ _, rfl, rfl⟩
  unfold insertTrack Keyed.without
  rw [List.filter_append, List.filter_cons_of_neg (by simp [hid]), List.filter_nil, List.append_nil]

theorem writes_deleteTrack (t : Track) (touched : Touched) :
    Writes t.id touched c (c.deleteTrack t) := by
  rw [← writes_bare, bare_deleteTrack]
  refine ⟨?_, ?_, ?_, ?_, .refl _ _, .refl _ _, .refl _ _, rfl, rfl⟩
  · unfold Keyed.without
    exact List.filter_filter.trans (List.filter_congr fun _ _ => Bool.and_self _)
  all_goals exact List.filter_filter.trans (List.filter_congr fun _ _ => Bool.and_self _)

/-- A track's row, which lists the album artists its file credits. -/
structure HasRow (c : Catalog) (track : Id) (credits : Credits) : Prop where
  row : ∃ t ∈ c.tracks, t.id = track
  listed : ∀ t ∈ c.tracks, t.id = track → t.albumArtistIds = credits.albumArtists.map Prod.fst

theorem tracks_updateTrack (old new : Track) :
    (c.updateTrack old new).tracks = c.tracks.map fun t => if t.id = new.id then new else t :=
  congrArg Catalog.tracks (bare_updateTrack (c := c) old new)

theorem artists_updateTrack (old new : Track) :
    (c.updateTrack old new).artists.map Artist.id = c.artists.map Artist.id := by
  have hbare := congrArg Catalog.artists (bare_updateTrack (c := c) old new)
  rw [← map_id_bare, ← map_id_bare c, hbare]

/-- A file's row, updated, lists the album artists it credits. -/
theorem hasRow_updateTrack {credits : Credits} {old new : Track} (hold : old ∈ c.tracks)
    (hid : new.id = old.id) (hlisted : new.albumArtistIds = credits.albumArtists.map Prod.fst) :
    HasRow (c.updateTrack old new) new.id credits := by
  constructor
  · rw [tracks_updateTrack]
    exact ⟨_, List.mem_map_of_mem hold, by rw [if_pos hid.symm]⟩
  · rw [tracks_updateTrack]
    intro t' ht' hid'
    obtain ⟨t, _, rfl⟩ := List.mem_map.mp ht'
    by_cases heq : t.id = new.id
    · rw [if_pos heq]
      exact hlisted
    · rw [if_neg heq] at hid'
      exact absurd hid' heq

theorem hasRow_insertTrack {credits : Credits} {t : Track} (hnew : ∀ held ∈ c.tracks, held.id ≠ t.id)
    (hlisted : t.albumArtistIds = credits.albumArtists.map Prod.fst) :
    HasRow (c.insertTrack t) t.id credits := by
  refine ⟨⟨t, List.mem_append_right _ (List.mem_singleton_self t), rfl⟩, fun held hheld hid => ?_⟩
  rcases List.mem_append.mp hheld with hheld | hheld
  · exact absurd hid (hnew held hheld)
  · rw [List.mem_singleton.mp hheld]
    exact hlisted

/-- What writing a track's row leaves. -/
theorem Consistent.writeRow (h : c.Consistent) {rec : Record} {root : Id} {credits : Credits}
    (hp : Placed c credits) (touched : Touched) (hc' : c.writeRow rec track root credits = some c') :
    c'.Consistent ∧ Writes track touched c c' ∧ HasRow c' track credits ∧
      c'.artists.map Artist.id = c.artists.map Artist.id := by
  have hside := alike_sidecarRows (c := c) rec
  have hconsistent := h.alike hside
  have hwrites : Writes track touched c (c.sidecarRows rec) := writes_sidecarRows rec track touched
  unfold Catalog.writeRow at hc'
  dsimp only at hc'
  have halbum : ∃ a ∈ c.albums, a.id = credits.albumId := List.mem_map.mp hp.album
  have hlisted : ∀ artist ∈ credits.albumArtists.map Prod.fst, ∃ a ∈ c.artists, a.id = artist := by
    intro artist hartist
    obtain ⟨credit, hcredit, rfl⟩ := List.mem_map.mp hartist
    exact List.mem_map.mp (hp.albumArtists credit hcredit)
  cases hfind : (c.sidecarRows rec).track? track with
  | some old =>
    rw [hfind] at hc'
    obtain ⟨hold, hid⟩ := find_mem hfind
    rw [← Option.some.inj hc']
    exact ⟨hconsistent.updateTrack hold hid.symm halbum hlisted,
      hwrites.trans (writes_updateTrack old touched rfl), hasRow_updateTrack hold hid.symm rfl,
      artists_updateTrack _ _⟩
  | none =>
    rw [hfind] at hc'
    dsimp only at hc'
    split at hc'
    · cases hc'
    rw [← Option.some.inj hc']
    have hnew : ∀ held ∈ c.tracks, held.id ≠ track := fun held hheld hid =>
      find_none hfind (List.mem_map.mpr ⟨held, hheld, hid⟩)
    exact ⟨hconsistent.insertTrack hnew halbum hlisted,
      hwrites.trans (writes_insertTrack touched rfl), hasRow_insertTrack hnew rfl, rfl⟩

end Catalog

end JewelCase.Content
