import JewelCase.Content.Written

/-!
# A file's links written

Once a file's row is written its links are replaced one row at a time, each naming rows that are there.
-/
namespace JewelCase.Content

set_option autoImplicit false

open Library

namespace Catalog

variable {c c' c'' : Catalog} {rules : Rules} {now : Int} {track : Id} {touched more : Touched}

/-! ### Credits and listings -/

/-- The same rows, and the same links of other tracks. -/
structure Relinks (track : Id) (c c' : Catalog) : Prop where
  tracks : c'.tracks = c.tracks
  albums : c'.albums = c.albums
  artists : c'.artists.map Artist.id = c.artists.map Artist.id
  tags : c'.tags.map Tag.id = c.tags.map Tag.id
  credits : ofOthers c'.trackArtists track = ofOthers c.trackArtists track
  listings : ofOthers c'.trackAlbumArtists track = ofOthers c.trackAlbumArtists track
  trackTags : (c'.trackTags.filter fun r => !decide (r.track = track)) =
    c.trackTags.filter fun r => !decide (r.track = track)
  feed : c'.feed = c.feed
  lastSeq : c'.lastSeq = c.lastSeq

theorem Relinks.refl (track : Id) (c : Catalog) : Relinks track c c :=
  ⟨rfl, rfl, rfl, rfl, rfl, rfl, rfl, rfl, rfl⟩

theorem Relinks.trans (h : Relinks track c c') (h' : Relinks track c' c'') : Relinks track c c'' where
  tracks := h'.tracks.trans h.tracks
  albums := h'.albums.trans h.albums
  artists := h'.artists.trans h.artists
  tags := h'.tags.trans h.tags
  credits := h'.credits.trans h.credits
  listings := h'.listings.trans h.listings
  trackTags := h'.trackTags.trans h.trackTags
  feed := h'.feed.trans h.feed
  lastSeq := h'.lastSeq.trans h.lastSeq

/-- A change of a track's links is a write of that track. -/
theorem Relinks.writes (h : Relinks track c c') (touched : Touched) :
    Writes track touched c c' where
  tracks := by rw [h.tracks]
  credits := h.credits
  listings := h.listings
  trackTags := h.trackTags
  albums := .of_eq _ (by rw [h.albums])
  artists := .of_eq _ h.artists
  tags := .of_eq _ h.tags
  feed := h.feed
  lastSeq := h.lastSeq

theorem relinks_bare : Relinks track c.bare c'.bare → Relinks track c c' := by
  intro h
  have hartists := h.artists
  have htags := h.tags
  rw [map_id_bare, map_id_bare] at hartists
  rw [map_id_bare_tags, map_id_bare_tags] at htags
  exact ⟨h.tracks, h.albums, hartists, htags, h.credits, h.listings, h.trackTags, h.feed,
    h.lastSeq⟩

theorem ofOthers_twice (rows : List Credit) (track : Id) :
    ofOthers (rows.filter fun r => !decide (r.track = track)) track = ofOthers rows track :=
  List.filter_filter.trans (List.filter_congr fun _ _ => Bool.and_self _)

theorem relinks_deleteTrackArtists (track : Id) : Relinks track c (c.deleteTrackArtists track) := by
  apply relinks_bare
  rw [bare_deleteTrackArtists]
  exact ⟨rfl, rfl, rfl, rfl, ofOthers_twice c.trackArtists track, rfl, rfl, rfl, rfl⟩

theorem relinks_deleteTrackAlbumArtists (track : Id) :
    Relinks track c (c.deleteTrackAlbumArtists track) := by
  apply relinks_bare
  rw [bare_deleteTrackAlbumArtists]
  exact ⟨rfl, rfl, rfl, rfl, rfl, ofOthers_twice c.trackAlbumArtists track, rfl, rfl, rfl⟩

theorem relinks_deleteTrackTags (track : Id) : Relinks track c (c.deleteTrackTags track) := by
  apply relinks_bare
  rw [bare_deleteTrackTags]
  exact ⟨rfl, rfl, rfl, rfl, rfl, rfl,
    List.filter_filter.trans (List.filter_congr fun _ _ => Bool.and_self _), rfl, rfl⟩

theorem ofOthers_append {rows : List Credit} {r : Credit} (hr : r.track = track) :
    ofOthers (rows ++ [r]) track = ofOthers rows track := by
  unfold ofOthers
  rw [List.filter_append, List.filter_cons_of_neg (by simp [hr]), List.filter_nil, List.append_nil]

theorem relinks_insertTrackArtist {r : Credit} (hr : r.track = track) :
    Relinks track c (c.insertTrackArtist r) := by
  unfold insertTrackArtist
  split
  · exact Relinks.refl track c
  · apply relinks_bare
    rw [bare_trackArtistsAdded]
    exact ⟨rfl, rfl, rfl, rfl, ofOthers_append hr, rfl, rfl, rfl, rfl⟩

theorem relinks_insertTrackAlbumArtist {r : Credit} (hr : r.track = track)
    (hc' : c.insertTrackAlbumArtist r = some c') :
    Relinks track c c' ∧ c'.trackAlbumArtists = c.trackAlbumArtists ++ [r] := by
  unfold insertTrackAlbumArtist at hc'
  split at hc'
  · cases hc'
  · rw [← Option.some.inj hc']
    exact ⟨⟨rfl, rfl, rfl, rfl, rfl, ofOthers_append hr, rfl, rfl, rfl⟩, rfl⟩

theorem exists_row {α : Type} {key : α → Id} {rows : List α} {id : Id} (h : id ∈ rows.map key) :
    ∃ x ∈ rows, key x = id := List.mem_map.mp h

/-- Credits inserted one after another keep the counts, and change their track's links alone. -/
theorem Consistent.insertCredits (h : c.Consistent) (ht : ∃ t ∈ c.tracks, t.id = track)
    (rows : List Credit) (htrack : ∀ r ∈ rows, r.track = track)
    (hrows : ∀ r ∈ rows, r.artist ∈ c.artists.map Artist.id) :
    (rows.foldl Catalog.insertTrackArtist c).Consistent ∧
      Relinks track c (rows.foldl Catalog.insertTrackArtist c) := by
  induction rows generalizing c with
  | nil => exact ⟨h, Relinks.refl track c⟩
  | cons r rows ih =>
    have hr := htrack r List.mem_cons_self
    have hrelinks := relinks_insertTrackArtist (c := c) hr
    obtain ⟨hconsistent, hrest⟩ := ih
      (h.insertTrackArtist (hr ▸ ht) (exists_row (hrows r List.mem_cons_self)))
      (hrelinks.tracks ▸ ht) (fun s hs => htrack s (List.mem_cons_of_mem r hs))
      fun s hs => hrelinks.artists ▸ hrows s (List.mem_cons_of_mem r hs)
    exact ⟨hconsistent, hrelinks.trans hrest⟩

/-- Listings inserted one after another keep the counts, and all are there in the end. -/
theorem Consistent.insertListings (h : c.Consistent) (ht : ∃ t ∈ c.tracks, t.id = track)
    {rows : List Credit} (htrack : ∀ r ∈ rows, r.track = track)
    (hrows : ∀ r ∈ rows, r.artist ∈ c.artists.map Artist.id)
    (hc' : rows.foldlM Catalog.insertTrackAlbumArtist c = some c') :
    c'.Consistent ∧ Relinks track c c' ∧
      c'.trackAlbumArtists = c.trackAlbumArtists ++ rows := by
  induction rows generalizing c with
  | nil =>
    rw [← Option.some.inj hc']
    exact ⟨h, Relinks.refl track c, (List.append_nil _).symm⟩
  | cons r rows ih =>
    rw [List.foldlM_cons] at hc'
    obtain ⟨mid, hmid, hrest⟩ := Option.bind_eq_some_iff.mp hc'
    have hr := htrack r List.mem_cons_self
    obtain ⟨hrelinks, hlistings⟩ := relinks_insertTrackAlbumArtist hr hmid
    obtain ⟨hconsistent, hrelinks', hlistings'⟩ := ih
      (h.insertTrackAlbumArtist (hr ▸ ht) (exists_row (hrows r List.mem_cons_self)) hmid)
      (hrelinks.tracks ▸ ht) (fun s hs => htrack s (List.mem_cons_of_mem r hs))
      (fun s hs => hrelinks.artists ▸ hrows s (List.mem_cons_of_mem r hs)) hrest
    exact ⟨hconsistent, hrelinks.trans hrelinks', by
      rw [hlistings', hlistings, List.append_assoc, List.singleton_append]⟩

theorem mem_creditRows {credits : List Named} {r : Credit} (h : r ∈ creditRows rules track credits) :
    r.track = track ∧ ∃ credit ∈ credits, credit.1 = r.artist := by
  obtain ⟨⟨credit, position⟩, hmem, rfl⟩ := List.mem_map.mp h
  exact ⟨rfl, credit, List.fst_mem_of_mem_zipIdx hmem, rfl⟩

theorem exists_creditRow (rules : Rules) (track : Id) {credits : List Named} {credit : Named}
    (h : credit ∈ credits) :
    ∃ r ∈ creditRows rules track credits, r.track = track ∧ r.artist = credit.1 := by
  obtain ⟨position, hposition, hcredit⟩ := List.mem_iff_getElem.mp h
  have hmem : (credits[position], position) ∈ credits.zipIdx :=
    List.mem_zipIdx_iff_getElem?.mpr (List.getElem?_eq_getElem hposition)
  exact ⟨_, List.mem_map_of_mem hmem, rfl, congrArg Prod.fst hcredit⟩

/-! ### Tags -/

theorem mem_tagsOf {tag : Id} : tag ∈ c.tagsOf track ↔ ∃ r ∈ c.trackTags, r.track = track ∧ r.tag = tag := by
  unfold tagsOf
  rw [List.mem_map]
  simp only [List.mem_filter, decide_eq_true_eq, and_assoc]

/-- New tags are ones the track carries, and what it carries is touched. -/
structure Retags (track : Id) (s s' : Catalog × Touched) : Prop where
  tracks : s'.1.tracks = s.1.tracks
  albums : s'.1.albums = s.1.albums
  artists : s'.1.artists.map Artist.id = s.1.artists.map Artist.id
  credits : s'.1.trackArtists = s.1.trackArtists
  listings : s'.1.trackAlbumArtists = s.1.trackAlbumArtists
  trackTags : (s'.1.trackTags.filter fun r => !decide (r.track = track)) =
    s.1.trackTags.filter fun r => !decide (r.track = track)
  tags : Grows (s'.1.tagsOf track) (s.1.tags.map Tag.id) (s'.1.tags.map Tag.id)
  carried : ∀ id ∈ s.1.tagsOf track, id ∈ s'.1.tagsOf track
  reached : ∀ id ∈ s'.1.tagsOf track, id ∈ s.1.tagsOf track ∨ id ∈ s'.2.tags
  touchedAlbums : s'.2.albums = s.2.albums
  touchedArtists : s'.2.artists = s.2.artists
  touchedTags : ∀ id ∈ s.2.tags, id ∈ s'.2.tags
  feed : s'.1.feed = s.1.feed
  lastSeq : s'.1.lastSeq = s.1.lastSeq

theorem Retags.refl (track : Id) (s : Catalog × Touched) : Retags track s s :=
  ⟨rfl, rfl, rfl, rfl, rfl, rfl, .refl _ _, fun _ => id, fun _ => Or.inl, rfl, rfl, fun _ => id, rfl,
    rfl⟩

theorem Retags.trans {s s' s'' : Catalog × Touched} (h : Retags track s s')
    (h' : Retags track s' s'') : Retags track s s'' where
  tracks := h'.tracks.trans h.tracks
  albums := h'.albums.trans h.albums
  artists := h'.artists.trans h.artists
  credits := h'.credits.trans h.credits
  listings := h'.listings.trans h.listings
  trackTags := h'.trackTags.trans h.trackTags
  tags := (h.tags.within h'.carried).trans h'.tags
  carried := fun id hid => h'.carried id (h.carried id hid)
  reached := fun id hid => (h'.reached id hid).elim
    (fun hmem => (h.reached id hmem).imp_right (h'.touchedTags id)) Or.inr
  touchedAlbums := h'.touchedAlbums.trans h.touchedAlbums
  touchedArtists := h'.touchedArtists.trans h.touchedArtists
  touchedTags := fun id hid => h'.touchedTags id (h.touchedTags id hid)
  feed := h'.feed.trans h.feed
  lastSeq := h'.lastSeq.trans h.lastSeq

/-- A tag found or created has a row, and the counts stay right. -/
theorem Consistent.findOrCreateTag (h : c.Consistent) {draws : Draws} {type name : Text} {id : Id}
    (hc' : c.findOrCreateTag rules draws type name = some (c', id)) :
    c'.Consistent ∧ c'.bare = { c.bare with tags := c'.bare.tags } ∧ id ∈ c'.tags.map Tag.id ∧
      Grows [id] (c.tags.map Tag.id) (c'.tags.map Tag.id) := by
  unfold Catalog.findOrCreateTag at hc'
  dsimp only at hc'
  cases hfind : Keyed.find (fun t : Tag => (t.type, t.nameKey)) c.tags (type, rules.tagKey name) with
  | some tag =>
    rw [hfind] at hc'
    obtain ⟨rfl, rfl⟩ := Prod.ext_iff.mp (Option.some.inj hc')
    exact ⟨h, rfl, found_row hfind, .refl _ _⟩
  | none =>
    rw [hfind] at hc'
    obtain ⟨added, hadded, hrest⟩ := Option.bind_eq_some_iff.mp hc'
    obtain ⟨rfl, rfl⟩ := Prod.ext_iff.mp (Option.some.inj hrest)
    refine ⟨h.insertTag rfl hadded, ?_⟩
    unfold Catalog.insertTag at hadded
    split at hadded
    · cases hadded
    rw [← Option.some.inj hadded]
    refine ⟨rfl, mem_map_append.mpr (Or.inr rfl), ?_⟩
    rw [List.map_append]
    exact .append (List.mem_singleton_self _)

/-- The tags and their types. -/
def tagTypes (c : Catalog) : List (Id × Text) := c.tags.map fun t => (t.id, t.type)

theorem tagTypes_bare (c : Catalog) : c.bare.tagTypes = c.tagTypes := List.map_map

theorem trackTags_insertTrackTag (r : TrackTag) :
    (c.insertTrackTag r).trackTags =
      if c.trackTags.any fun held => decide (held.key = r.key) then c.trackTags
      else c.trackTags ++ [r] := by
  unfold insertTrackTag
  split
  · rfl
  · exact congrArg Catalog.trackTags
      (bare_trackTagsAdded (c := { c with trackTags := c.trackTags ++ [r] }) r)

theorem bare_insertTrackTag (r : TrackTag) :
    (c.insertTrackTag r).bare = { c.bare with trackTags := (c.insertTrackTag r).trackTags } := by
  rw [trackTags_insertTrackTag]
  unfold insertTrackTag
  split
  · rfl
  · exact bare_trackTagsAdded (c := { c with trackTags := c.trackTags ++ [r] }) r

theorem mem_tagsOf_insertTrackTag {r : TrackTag} (hr : r.track = track) {id : Id} :
    id ∈ (c.insertTrackTag r).tagsOf track ↔ id ∈ c.tagsOf track ∨ id = r.tag := by
  rw [mem_tagsOf, mem_tagsOf, trackTags_insertTrackTag]
  by_cases hany : (c.trackTags.any fun held => decide (held.key = r.key)) = true
  · rw [if_pos hany]
    refine ⟨Or.inl, fun h => h.elim (fun h => h) ?_⟩
    rintro rfl
    obtain ⟨held, hheld, hkey⟩ := List.any_eq_true.mp hany
    obtain ⟨htrack, htag⟩ := Prod.ext_iff.mp (of_decide_eq_true hkey)
    exact ⟨held, hheld, htrack.trans hr, htag⟩
  · rw [if_neg hany]
    constructor
    · rintro ⟨held, hheld, htrack, rfl⟩
      rcases List.mem_append.mp hheld with hheld | hheld
      · exact Or.inl ⟨held, hheld, htrack, rfl⟩
      · exact Or.inr (congrArg TrackTag.tag (List.mem_singleton.mp hheld))
    · rintro (⟨held, hheld, htrack, rfl⟩ | rfl)
      · exact ⟨held, List.mem_append_left _ hheld, htrack, rfl⟩
      · exact ⟨r, List.mem_append_right _ (List.mem_singleton_self r), hr, rfl⟩

theorem trackTags_insertTrackTag_others {r : TrackTag} (hr : r.track = track) :
    ((c.insertTrackTag r).trackTags.filter fun r => !decide (r.track = track)) =
      c.trackTags.filter fun r => !decide (r.track = track) := by
  rw [trackTags_insertTrackTag]
  split
  · rfl
  · rw [List.filter_append, List.filter_cons_of_neg (by simp [hr]), List.filter_nil, List.append_nil]

/-- One tag of a track found or made, and linked. -/
theorem Consistent.tagLinked (h : c.Consistent) (ht : ∃ t ∈ c.tracks, t.id = track)
    (touched : Touched) {draws : Draws} {type name : Text} (written : Text) {tag : Id}
    (hc' : c.findOrCreateTag rules draws type name = some (c', tag)) :
    (c'.insertTrackTag ⟨track, tag, written⟩).Consistent ∧
      Retags track (c, touched) (c'.insertTrackTag ⟨track, tag, written⟩,
        { touched with tags := touched.tags ∪ [tag] }) := by
  obtain ⟨hconsistent, hbare, hrow, htags⟩ := h.findOrCreateTag hc'
  have htracks : c'.tracks = c.tracks := by
    have h := congrArg Catalog.tracks hbare
    exact h
  have halbums : c'.albums = c.albums := by
    have h := congrArg Catalog.albums hbare
    exact h
  have hartists : c'.bare.artists = c.bare.artists := by
    have h := congrArg Catalog.artists hbare
    exact h
  have hcredits : c'.trackArtists = c.trackArtists := by
    have h := congrArg Catalog.trackArtists hbare
    exact h
  have hlistings : c'.trackAlbumArtists = c.trackAlbumArtists := by
    have h := congrArg Catalog.trackAlbumArtists hbare
    exact h
  have hlinks : c'.trackTags = c.trackTags := by
    have h := congrArg Catalog.trackTags hbare
    exact h
  have hfeed : c'.feed = c.feed := by
    have h := congrArg Catalog.feed hbare
    exact h
  have hlastSeq : c'.lastSeq = c.lastSeq := by
    have h := congrArg Catalog.lastSeq hbare
    exact h
  have hlinked := bare_insertTrackTag (c := c') ⟨track, tag, written⟩
  have hmem : ∀ {id : Id}, id ∈ (c'.insertTrackTag ⟨track, tag, written⟩).tagsOf track ↔
      id ∈ c.tagsOf track ∨ id = tag := by
    intro id
    rw [mem_tagsOf_insertTrackTag rfl, mem_tagsOf, mem_tagsOf, hlinks]
  refine ⟨hconsistent.insertTrackTag (htracks ▸ ht) (exists_row hrow), ?_⟩
  exact
    { tracks := by
        have h := congrArg Catalog.tracks hlinked
        exact h.trans htracks
      albums := by
        have h := congrArg Catalog.albums hlinked
        exact h.trans halbums
      artists := by
        have h := congrArg Catalog.artists hlinked
        rw [← map_id_bare, h, ← map_id_bare c, ← hartists]
      credits := by
        have h := congrArg Catalog.trackArtists hlinked
        exact h.trans hcredits
      listings := by
        have h := congrArg Catalog.trackAlbumArtists hlinked
        exact h.trans hlistings
      trackTags := by
        have hothers := trackTags_insertTrackTag_others (c := c') (r := ⟨track, tag, written⟩) rfl
        exact hothers.trans (by rw [hlinks])
      tags := by
        have h := congrArg Catalog.tags hlinked
        rw [← map_id_bare_tags (c'.insertTrackTag _), h]
        change Grows _ _ (c'.bare.tags.map Tag.id)
        rw [map_id_bare_tags]
        refine htags.within fun id hid => hmem.mpr (Or.inr ?_)
        exact List.mem_singleton.mp hid
      carried := fun id hid => hmem.mpr (Or.inl hid)
      reached := fun id hid => (hmem.mp hid).imp_right fun heq =>
        List.mem_union_iff.mpr (Or.inr (List.mem_singleton.mpr heq))
      touchedAlbums := rfl
      touchedArtists := rfl
      touchedTags := fun id hid => List.mem_union_iff.mpr (Or.inl hid)
      feed := by
        have h := congrArg Catalog.feed hlinked
        exact h.trans hfeed
      lastSeq := by
        have h := congrArg Catalog.lastSeq hlinked
        exact h.trans hlastSeq }

/-- A file's tags replaced keep the counts, and change what its track carries alone. -/
theorem Consistent.replaceTags (h : c.Consistent) (ht : ∃ t ∈ c.tracks, t.id = track) {draws : Draws}
    {tagValues : List (Text × List Text)} {s' : Catalog × Touched}
    (hs' : c.replaceTags rules draws track tagValues touched = some s') :
    s'.1.Consistent ∧ Retags track (c.deleteTrackTags track, touched) s' := by
  unfold Catalog.replaceTags at hs'
  have hdeleted := relinks_deleteTrackTags (c := c) track
  refine foldlM_keeps (p := fun s : Catalog × Touched =>
      s.1.Consistent ∧ Retags track (c.deleteTrackTags track, touched) s)
    (fun {s s''} {named} hs hx => ?_) ⟨h.deleteTrackTags track, Retags.refl track _⟩ hs'
  obtain ⟨hconsistent, hretags⟩ := hs
  obtain ⟨⟨found, tag⟩, hfound, hlinked⟩ := Option.bind_eq_some_iff.mp hx
  have htrack : ∃ t ∈ s.1.tracks, t.id = track := by
    rw [hretags.tracks]
    exact hdeleted.tracks ▸ ht
  obtain ⟨hconsistent', hretags'⟩ := hconsistent.tagLinked htrack s.2 (rules.trim named.2) hfound
  rw [← Option.some.inj hlinked]
  exact ⟨hconsistent', hretags.trans hretags'⟩

theorem tagsOf_deleteTrackTags (c : Catalog) (track : Id) :
    ∀ id, id ∉ (c.deleteTrackTags track).tagsOf track := by
  intro id hid
  obtain ⟨r, hr, htrack, _⟩ := mem_tagsOf.mp hid
  have htags := congrArg Catalog.trackTags (bare_deleteTrackTags (c := c) track)
  change (c.deleteTrackTags track).trackTags = c.trackTags.filter _ at htags
  rw [htags] at hr
  exact (mem_tags_others.mp hr).2 htrack

theorem Retags.within {s s' : Catalog × Touched} (h : Retags track s s') : s.2.Within s'.2 :=
  ⟨fun _ hid => h.touchedAlbums ▸ hid, fun _ hid => h.touchedArtists ▸ hid, h.touchedTags⟩

/-- A track's tags written anew are all touched. -/
theorem Retags.writes {s' : Catalog × Touched}
    (h : Retags track (c.deleteTrackTags track, touched) s') : Writes track s'.2 c s'.1 := by
  refine ((relinks_deleteTrackTags track).writes s'.2).trans ?_
  exact
    { tracks := by rw [h.tracks]
      credits := by rw [h.credits]
      listings := by rw [h.listings]
      trackTags := h.trackTags
      albums := .of_eq _ (by rw [h.albums])
      artists := .of_eq _ h.artists
      tags := h.tags.within fun id hcarried =>
        (h.reached id hcarried).resolve_left (tagsOf_deleteTrackTags c track id)
      feed := h.feed
      lastSeq := h.lastSeq }

/-! ### A file -/

/-- Each artist that a track's row lists has its listing. -/
def Lists (c : Catalog) (track : Id) : Prop :=
  ∀ t ∈ c.tracks, t.id = track → ∀ artist ∈ t.albumArtistIds,
    ∃ r ∈ c.trackAlbumArtists, r.track = t.id ∧ r.artist = artist

/-- A file's links replaced keep the counts, and change its track's links alone. -/
theorem Consistent.replaceLinks (h : c.Consistent) {draws : Draws} {credits : Credits}
    (hrow : HasRow c track credits)
    (hartists : ∀ credit ∈ credits.artists, credit.1 ∈ c.artists.map Artist.id)
    (halbumArtists : ∀ credit ∈ credits.albumArtists, credit.1 ∈ c.artists.map Artist.id)
    {tagValues : List (Text × List Text)} {s' : Catalog × Touched}
    (hs' : c.replaceLinks rules draws track credits tagValues touched = some s') :
    s'.1.Consistent ∧ Writes track s'.2 c s'.1 ∧ touched.Within s'.2 ∧ Lists s'.1 track ∧
      s'.1.tracks = c.tracks := by
  unfold Catalog.replaceLinks at hs'
  obtain ⟨listed, hlisted, htagged⟩ := Option.bind_eq_some_iff.mp hs'
  have hdeleted : Relinks track c ((c.deleteTrackArtists track).deleteTrackAlbumArtists track) :=
    (relinks_deleteTrackArtists track).trans (relinks_deleteTrackAlbumArtists track)
  obtain ⟨hcredited, hcredits⟩ := Consistent.insertCredits
    ((h.deleteTrackArtists track).deleteTrackAlbumArtists track) (hdeleted.tracks ▸ hrow.row)
    (creditRows rules track credits.artists) (fun r hr => (mem_creditRows hr).1) fun r hr => by
      obtain ⟨_, credit, hcredit, hid⟩ := mem_creditRows hr
      rw [hdeleted.artists, ← hid]
      exact hartists credit hcredit
  have hcredits := hdeleted.trans hcredits
  obtain ⟨hconsistent, hlistings, hrows⟩ := hcredited.insertListings (hcredits.tracks ▸ hrow.row)
    (fun r hr => (mem_creditRows hr).1) (fun r hr => by
      obtain ⟨_, credit, hcredit, hid⟩ := mem_creditRows hr
      rw [hcredits.artists, ← hid]
      exact halbumArtists credit hcredit) hlisted
  have hlistings := hcredits.trans hlistings
  obtain ⟨hdone, hretags⟩ := hconsistent.replaceTags (hlistings.tracks ▸ hrow.row) htagged
  have huntagged := relinks_deleteTrackTags (c := listed) track
  have htracks : s'.1.tracks = c.tracks :=
    (hretags.tracks.trans huntagged.tracks).trans hlistings.tracks
  refine ⟨hdone, (hlistings.writes s'.2).trans hretags.writes, hretags.within, ?_, htracks⟩
  intro t ht hid artist hartist
  rw [htracks] at ht
  rw [hrow.listed t ht hid] at hartist
  obtain ⟨credit, hcredit, rfl⟩ := List.mem_map.mp hartist
  obtain ⟨r, hr, htrack, hartist⟩ := exists_creditRow rules track hcredit
  have hkept : (listed.deleteTrackTags track).trackAlbumArtists = listed.trackAlbumArtists := by
    have h := congrArg Catalog.trackAlbumArtists (bare_deleteTrackTags (c := listed) track)
    exact h
  refine ⟨r, ?_, htrack.trans hid.symm, hartist⟩
  rw [hretags.listings]
  change r ∈ (listed.deleteTrackTags track).trackAlbumArtists
  rw [hkept, hrows]
  exact List.mem_append_right _ hr

/-- What a transaction has left in the midst of it. -/
structure Ready (s : Catalog × Touched) : Prop where
  whole : s.1.Whole
  pending : Pending s.1 s.2

theorem Ready.record {s : Catalog × Touched} (h : Ready s) (entity : Entity) (id : Id) (op : Op) :
    Ready (s.1.record entity id op now, s.2) := by
  have halike := alike_record s.1 entity id op now
  exact ⟨h.whole.alike halike, h.pending.albums, h.pending.artists, h.pending.tags⟩

end Catalog

end JewelCase.Content
