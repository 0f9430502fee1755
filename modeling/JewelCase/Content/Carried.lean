import JewelCase.Content.FeedKept
import JewelCase.Filters.Plans

/-!
# What filters read

A library's tracks, albums and artists carry tags by three link tables, and each tag's row stores how
many carry it. After any run of transactions these are what the filters by tags rely on, and what a
filter reads is what the tracks' own tags say.
-/
namespace JewelCase.Content

set_option autoImplicit false

open Library Search

/-- A tag's stored count of the rows of a kind that carry it. -/
def Tag.count (t : Tag) : Kind → Int
  | .track => t.trackCount
  | .album => t.albumCount
  | .artist => t.artistCount

namespace Catalog

variable {c c' : Catalog} {rules : Rules} {kind : Kind}

/-- The rows of a kind and the tags they are linked to, in `track_tags`, `album_tags` or
`artist_tags`. -/
def links (c : Catalog) : Kind → List (Id × Id)
  | .track => c.trackTags.map TrackTag.key
  | .album => c.albumTags.map Prod.fst
  | .artist => c.artistTags.map Prod.fst

def rowIds (c : Catalog) : Kind → List Id
  | .track => c.tracks.map Track.id
  | .album => c.albums.map Album.id
  | .artist => c.artists.map Artist.id

/-- The library's stored number of the rows of a kind. -/
def stored (c : Catalog) : Kind → Int
  | .track => c.totals.trackCount
  | .album => c.totals.albumCount
  | .artist => c.totals.artistCount

/-- Whether a track carries a tag, or some track of an album or of an artist does. -/
def Carries (c : Catalog) : Kind → Id → Id → Prop
  | .track, id, tag => tag ∈ c.tagsOf id
  | .album, id, tag => ∃ t ∈ c.tracks, t.albumId = id ∧ tag ∈ c.tagsOf t.id
  | .artist, id, tag => ∃ r ∈ c.trackArtists, r.artist = id ∧ tag ∈ c.tagsOf r.track

theorem one_pos {b : Bool} : 0 < one b ↔ b = true := by
  cases b <;> decide

/-- The links listed for filters are exactly the tags carried. -/
theorem mem_links (h : c.Settled) {id tag : Id} :
    (id, tag) ∈ c.links kind ↔ c.Carries kind id tag := by
  have htallied := h.whole.consistent.tallied
  have hl := h.whole.consistent.linked
  cases kind with
  | track =>
    refine List.mem_map.trans (Iff.trans ?_ mem_tagsOf.symm)
    exact exists_congr fun r => and_congr_right fun _ => Prod.mk_inj
  | album =>
    refine (htallied.albumTags.mem_iff Filed.taggedOnAlbum_counts (id, tag)).trans ?_
    constructor
    · rintro ⟨v, hv, hpos⟩
      obtain ⟨t, ht, rfl⟩ := List.mem_map.mp hv
      exact ⟨t, ht, of_decide_eq_true (one_pos.mp hpos)⟩
    · rintro ⟨t, ht, hcarries⟩
      exact ⟨c.file t, List.mem_map_of_mem ht, one_pos.mpr (decide_eq_true hcarries)⟩
  | artist =>
    refine (htallied.artistTags.mem_iff Filed.taggedByArtist_counts (id, tag)).trans ?_
    constructor
    · rintro ⟨v, hv, hpos⟩
      obtain ⟨t, ht, rfl⟩ := List.mem_map.mp hv
      obtain ⟨hartist, htag⟩ := of_decide_eq_true (one_pos.mp hpos)
      obtain ⟨r, hr, hid⟩ := List.mem_map.mp hartist
      obtain ⟨hmem, htrack⟩ := List.mem_filter.mp hr
      exact ⟨r, hmem, hid, (of_decide_eq_true htrack : r.track = t.id) ▸ htag⟩
    · rintro ⟨r, hr, hid, htag⟩
      obtain ⟨t, ht, htrack⟩ := hl.creditTracks r hr
      have hcarried : tag ∈ c.tagsOf t.id := by
        rw [htrack]
        exact htag
      refine ⟨c.file t, List.mem_map_of_mem ht, one_pos.mpr (decide_eq_true ⟨?_, hcarried⟩)⟩
      exact List.mem_map.mpr ⟨r, List.mem_filter.mpr ⟨hr, decide_eq_true htrack.symm⟩, hid⟩

theorem links_nodup (h : c.Settled) : (c.links kind).Nodup := by
  have htallied := h.whole.consistent.tallied
  cases kind with
  | track => exact h.whole.consistent.linked.trackTags
  | album => exact htallied.albumTags.nodup
  | artist => exact htallied.artistTags.nodup

theorem rowIds_nodup (h : c.Settled) : (c.rowIds kind).Nodup := by
  have hl := h.whole.consistent.linked
  cases kind with
  | track => exact hl.tracks
  | album => exact hl.albums
  | artist => exact hl.artists

/-- What carries a tag has a row. -/
theorem row_of_carries (h : c.Settled) {id tag : Id} (hc : c.Carries kind id tag) :
    id ∈ c.rowIds kind := by
  have hl := h.whole.consistent.linked
  cases kind with
  | track =>
    obtain ⟨r, hr, rfl, _⟩ := mem_tagsOf.mp hc
    exact List.mem_map.mpr (hl.tagTracks r hr)
  | album =>
    obtain ⟨t, ht, rfl, _⟩ := hc
    exact List.mem_map.mpr (hl.albumRows t ht)
  | artist =>
    obtain ⟨r, hr, rfl, _⟩ := hc
    exact List.mem_map.mpr (hl.creditRows r hr)

theorem tag_of_carries (h : c.Settled) {id tag : Id} (hc : c.Carries kind id tag) :
    tag ∈ c.tags.map Tag.id := by
  have hl := h.whole.consistent.linked
  have htag : ∃ track, tag ∈ c.tagsOf track := by
    cases kind with
    | track => exact ⟨id, hc⟩
    | album =>
      obtain ⟨t, _, _, htag⟩ := hc
      exact ⟨t.id, htag⟩
    | artist =>
      obtain ⟨r, _, _, htag⟩ := hc
      exact ⟨r.track, htag⟩
  obtain ⟨track, hmem⟩ := htag
  obtain ⟨r, hr, _, rfl⟩ := mem_tagsOf.mp hmem
  exact List.mem_map.mpr (hl.tagRows r hr)

/-- A tag's stored counts are how many of each kind are linked to it. -/
theorem count_links (h : c.Settled) {t : Tag} (ht : t ∈ c.tags) :
    t.count kind = ((c.links kind).filter fun k => decide (k.2 = t.id)).length := by
  have hcounted := h.whole.consistent.counted
  have hl := h.whole.consistent.linked
  rw [← List.countP_eq_length_filter]
  cases kind with
  | track =>
    have hone : ∀ u : Track, (c.file u).tagged t.id =
        ((c.links .track).countP fun k => decide (k.1 = u.id) && decide (k.2 = t.id) : Nat) := by
      intro u
      have hcount : ((c.links .track).countP fun k => decide (k.1 = u.id) && decide (k.2 = t.id)) =
          (c.links .track).count (u.id, t.id) := by
        rw [List.count_eq_countP]
        apply List.countP_congr
        intro k _
        rw [Bool.and_eq_true, decide_eq_true_eq, decide_eq_true_eq, beq_iff_eq, Prod.ext_iff]
      rw [hcount, (links_nodup h).count]
      have hlinked : (u.id, t.id) ∈ c.links .track ↔ t.id ∈ (c.file u).tagIds := mem_links h
      unfold Filed.tagged
      by_cases htag : t.id ∈ (c.file u).tagIds
      · rw [decide_eq_true htag, if_pos (hlinked.mpr htag)]
        rfl
      · rw [decide_eq_false htag, if_neg (mt hlinked.mp htag)]
        rfl
    calc t.count .track
        = Tally.recount Filed.tagged c.filed t.id := hcounted.tagTracks t ht
      _ = (c.tracks.map fun u => (((c.links .track).countP fun k =>
            decide (k.1 = u.id) && decide (k.2 = t.id) : Nat) : Int)).sum := by
          unfold Tally.recount filed
          rw [List.map_map]
          exact congrArg List.sum (List.map_congr_left fun u _ => hone u)
      _ = ((c.links .track).countP fun k => decide (k.2 = t.id) : Nat) :=
          Tally.sum_countP hl.tracks (fun k hk => row_of_carries h ((mem_links h).mp hk)) _
  | album => exact hcounted.tagAlbums t ht
  | artist => exact hcounted.tagArtists t ht

theorem stored_eq (h : c.Settled) : c.stored kind = (c.rowIds kind).length := by
  have hcounted := h.whole.consistent.counted
  cases kind with
  | track => exact hcounted.tracks.trans (by rw [rowIds, List.length_map])
  | album => exact hcounted.albums.trans (by rw [rowIds, List.length_map])
  | artist => exact hcounted.artists.trans (by rw [rowIds, List.length_map])

/-- What a filter by tags reads of a kind's rows. -/
def Settled.contents (h : c.Settled) (kind : Kind) : Filters.Contents Id where
  rows := c.rowIds kind
  id := fun id => id
  library := fun _ => c.library
  tags := c.tags.map fun t => ⟨t.id, c.library, String.ofList t.type, t.count kind⟩
  links := (c.links kind).map fun k => ⟨c.library, k.1, k.2⟩
  number := fun library => if library = c.library then c.stored kind else 0
  rows_unique := by
    rw [List.map_id']
    exact rowIds_nodup h
  tags_unique := by
    rw [List.map_map]
    exact h.whole.consistent.linked.tags
  links_once := by
    rw [List.map_map]
    exact (List.map_id (c.links kind)).symm ▸ links_nodup h
  links_rows := fun link hlink => by
    obtain ⟨k, hk, rfl⟩ := List.mem_map.mp hlink
    exact ⟨k.1, row_of_carries h ((mem_links h).mp hk), rfl, rfl⟩
  links_tags := fun link hlink => by
    obtain ⟨k, hk, rfl⟩ := List.mem_map.mp hlink
    obtain ⟨t, ht, hid⟩ := List.mem_map.mp (tag_of_carries h ((mem_links h).mp hk))
    exact ⟨_, List.mem_map_of_mem ht, hid, rfl⟩
  counts := fun tag htag => by
    obtain ⟨t, ht, rfl⟩ := List.mem_map.mp htag
    refine (count_links h ht).trans ?_
    rw [List.filter_map, List.length_map]
    rfl
  numbers := fun library => by
    by_cases hsame : library = c.library
    · rw [if_pos hsame, stored_eq h, hsame]
      exact congrArg _ (congrArg List.length (List.filter_eq_self.mpr fun _ _ => decide_eq_true rfl).symm)
    · rw [if_neg hsame]
      exact (congrArg Nat.cast (List.length_eq_zero_iff.mpr (List.filter_eq_nil_iff.mpr fun _ _ heq =>
        hsame (of_decide_eq_true heq).symm))).symm

/-- The IDs of a kind's rows that a filter's tags match. -/
def Settled.taggedIds (h : c.Settled) (filter : Filters.TagFilter) (kind : Kind) : List Id :=
  ((Filters.Tags.read (h.contents kind) c.library filter).ids (h.contents kind)).getD []

/-- What a filter asks of a row: to carry each tag of `tagAll`, and one of each type that `tagAny`
names, all of them tags of the library. -/
structure Asks (c : Catalog) (filter : Filters.TagFilter) (kind : Kind) (id : Id) : Prop where
  known : ∀ named ∈ filter.all ++ filter.any, ∃ t ∈ c.tags, named = some t.id
  all : ∀ tag, some tag ∈ filter.all → c.Carries kind id tag
  any : ∀ t ∈ c.tags, some t.id ∈ filter.any →
    ∃ u ∈ c.tags, u.type = t.type ∧ some u.id ∈ filter.any ∧ c.Carries kind id u.id

/-- What filters read of a settled library is what its tracks carry. -/
theorem carries_contents (h : c.Settled) {id tag : Id} :
    Filters.Carries (h.contents kind).links id tag ↔ c.Carries kind id tag := by
  rw [← mem_links h]
  constructor
  · rintro ⟨link, hlink, rfl, rfl⟩
    obtain ⟨k, hk, rfl⟩ := List.mem_map.mp hlink
    exact hk
  · exact fun hk => ⟨_, List.mem_map_of_mem hk, rfl, rfl⟩

theorem asks_contents (h : c.Settled) {filter : Filters.TagFilter} {id : Id} :
    Filters.Listed (h.contents kind) c.library none none filter id ↔
      id ∈ c.rowIds kind ∧ c.Asks filter kind id := by
  constructor
  · intro hlisted
    refine ⟨hlisted.mem, fun named hnamed => ?_, fun tag htag => ?_, fun t ht hany => ?_⟩
    · obtain ⟨tag, htag, _, hsome⟩ := hlisted.known named hnamed
      obtain ⟨t, ht, rfl⟩ := List.mem_map.mp htag
      exact ⟨t, ht, hsome⟩
    · exact (carries_contents h).mp (hlisted.tagged.all tag htag)
    · obtain ⟨other, hother, htype, hsome, hcarries⟩ :=
        hlisted.tagged.any _ (List.mem_map_of_mem ht) hany
      obtain ⟨u, hu, rfl⟩ := List.mem_map.mp hother
      exact ⟨u, hu, String.ofList_injective htype, hsome, (carries_contents h).mp hcarries⟩
  · rintro ⟨hmem, hasks⟩
    refine ⟨hmem, rfl, by simp, by simp, fun named hnamed => ?_, fun tag htag => ?_,
      fun tag htag hany => ?_⟩
    · obtain ⟨t, ht, hsome⟩ := hasks.known named hnamed
      exact ⟨_, List.mem_map_of_mem ht, rfl, hsome⟩
    · exact (carries_contents h).mpr (hasks.all tag htag)
    · obtain ⟨t, ht, rfl⟩ := List.mem_map.mp htag
      obtain ⟨u, hu, htype, hsome, hcarries⟩ := hasks.any t ht hany
      exact ⟨_, List.mem_map_of_mem hu, congrArg String.ofList htype, hsome,
        (carries_contents h).mpr hcarries⟩

theorem row_of_asks (h : c.Settled) {filter : Filters.TagFilter} (hnamed : filter.isEmpty = false)
    {id : Id} (hasks : c.Asks filter kind id) : id ∈ c.rowIds kind := by
  obtain ⟨named, hmem⟩ : ∃ named, named ∈ filter.all ++ filter.any := by
    refine List.exists_mem_of_ne_nil _ fun hnil => ?_
    obtain ⟨hall, hany⟩ := List.append_eq_nil_iff.mp hnil
    unfold Filters.TagFilter.isEmpty at hnamed
    rw [hall, hany] at hnamed
    cases hnamed
  obtain ⟨t, ht, rfl⟩ := hasks.known named hmem
  rcases List.mem_append.mp hmem with hall | hany
  · exact row_of_carries h (hasks.all t.id hall)
  · obtain ⟨u, _, _, _, hcarries⟩ := hasks.any t ht hany
    exact row_of_carries h hcarries

/-- Whichever group of tags the query starts from, what a filter reads of a kind is what its tracks' own
tags say. -/
theorem mem_taggedIds (h : c.Settled) {filter : Filters.TagFilter} (hnamed : filter.isEmpty = false)
    {id : Id} : id ∈ h.taggedIds filter kind ↔ c.Asks filter kind id := by
  unfold Settled.taggedIds
  cases hread : (Filters.Tags.read (h.contents kind) c.library filter).ids (h.contents kind) with
  | none =>
    have hempty := Filters.ids_none.mp hread
    rw [hnamed] at hempty
    cases hempty
  | some ids =>
    refine (Filters.mem_ids hread).trans ?_
    constructor
    · rintro ⟨row, hlisted, rfl⟩
      exact ((asks_contents h).mp hlisted).2
    · exact fun hasks => ⟨id, (asks_contents h).mpr ⟨row_of_asks h hnamed hasks, hasks⟩, rfl⟩

/-! ### While the head stays -/

/-- While the feed's head stays, everything carries what it did. -/
theorem Quiet.carries (h : Quiet c c') {id tag : Id} :
    c'.Carries kind id tag ↔ c.Carries kind id tag := by
  cases kind with
  | track => exact h.tags id tag
  | album =>
    unfold Carries
    simp only [h.tracks, h.tags]
  | artist =>
    unfold Carries
    simp only [h.credits, h.tags]

/-- Filters that name the same tags ask the same of what is as it was. -/
theorem Quiet.asks (h : Quiet c c') {filter filter' : Filters.TagFilter}
    (hall : ∀ tag, tag ∈ filter'.all ↔ tag ∈ filter.all)
    (hany : ∀ tag, tag ∈ filter'.any ↔ tag ∈ filter.any) {id : Id}
    (hasks : c.Asks filter kind id) : c'.Asks filter' kind id := by
  refine ⟨fun named hnamed => ?_, fun tag htag => ?_, fun t ht hmem => ?_⟩
  · obtain ⟨t, ht, rfl⟩ := hasks.known named (List.mem_append.mpr
      ((List.mem_append.mp hnamed).imp (hall named).mp (hany named).mp))
    obtain ⟨u, hu, hid, _⟩ := mem_tagTypes.mp ((h.types _).mpr (mem_tagTypes.mpr ⟨t, ht, rfl, rfl⟩))
    exact ⟨u, hu, by rw [hid]⟩
  · exact h.carries.mpr (hasks.all tag ((hall _).mp htag))
  · obtain ⟨u, hu, hid, htype⟩ :=
      mem_tagTypes.mp ((h.types _).mp (mem_tagTypes.mpr ⟨t, ht, rfl, rfl⟩))
    obtain ⟨v, hv, hvtype, hvmem, hcarries⟩ := hasks.any u hu (by
      rw [hid]
      exact (hany _).mp hmem)
    obtain ⟨w, hw, hwid, hwtype⟩ :=
      mem_tagTypes.mp ((h.types _).mpr (mem_tagTypes.mpr ⟨v, hv, rfl, rfl⟩))
    exact ⟨w, hw, hwtype.trans (hvtype.trans htype), by rw [hwid]; exact (hany _).mpr hvmem, by
      rw [hwid]
      exact h.carries.mpr hcarries⟩

theorem Quiet.symm (h : Quiet c c') : Quiet c' c :=
  ⟨h.tracks.symm, h.credits.symm, fun track tag => (h.tags track tag).symm, fun k => (h.types k).symm⟩

/-- After any run of transactions, a filter by tags reads exactly the tracks, albums or artists that
carry what it asks, by the tags of their tracks. -/
theorem tagged_of_reachable (h : Reachable rules c) (kind : Kind) {filter : Filters.TagFilter}
    (hnamed : filter.isEmpty = false) (id : Id) :
    id ∈ (settled_reachable h).taggedIds filter kind ↔ c.Asks filter kind id :=
  mem_taggedIds (settled_reachable h) hnamed

theorem tagged_of_scanned : (settled_reachable reachable_scanned).taggedIds ⟨[some 40], []⟩ .album =
    [30] ∧ (30 ∈ (settled_reachable reachable_scanned).taggedIds ⟨[some 40], []⟩ .album ↔
      scanned.Asks ⟨[some 40], []⟩ .album 30) :=
  ⟨by decide, tagged_of_reachable reachable_scanned .album rfl 30⟩

end Catalog

end JewelCase.Content
