import JewelCase.Content.Batch

/-!
# What the tables hold of each track

A track's row and its links, gathered. What a track counts for under each key of a count table is read
off them, and a recount of the table is the sum over the tracks.
-/
namespace JewelCase.Content

set_option autoImplicit false

open Library

/-- A track's row and links. -/
structure Filed where
  track : Track
  credits : List Credit
  /-- Its rows of `track_album_artists`. -/
  listings : List Credit
  tags : List TrackTag

namespace Filed

variable (v : Filed)

def id : Id := v.track.id

def artists : List Id := v.credits.map Credit.artist

def tagIds : List Id := v.tags.map TrackTag.tag

/-- The artist of the first of some credits. -/
def firstOf (track : Id) (credits : List Credit) : Option Id :=
  (Keyed.find Credit.key credits (track, 0)).map Credit.artist

/-! ### What a track counts for -/

def inGroup (k : GroupKey) : Int × Int × Int := if v.track.group = k then v.track.amount else 0

def onAlbum (k : Id × Id) : Int := one (decide (v.track.albumId = k.1 ∧ k.2 ∈ v.artists))

def taggedOnAlbum (k : Id × Id) : Int := one (decide (v.track.albumId = k.1 ∧ k.2 ∈ v.tagIds))

def taggedByArtist (k : Id × Id) : Int := one (decide (k.1 ∈ v.artists ∧ k.2 ∈ v.tagIds))

/-- How many credits write an artist's name so. -/
def spells (k : Id × Text) : Int :=
  (v.credits.countP fun r => decide (r.artist = k.1 ∧ r.name = some k.2)) +
    v.listings.countP fun r => decide (r.artist = k.1 ∧ r.name = some k.2)

/-- The sort keys the file gives its first artist and its first album artist. -/
def sorts (k : Id × SortKey) : Int :=
  one (decide (firstOf v.id v.credits = some k.1 ∧ v.track.fileArtistSortKey = k.2)) +
    one (decide (firstOf v.id v.listings = some k.1 ∧
      v.track.fileAlbumArtistSortKey = k.2 ∧ k.2 ≠ []))

def spellsTag (k : Id × Text) : Int :=
  v.tags.countP fun r => decide (r.tag = k.1 ∧ r.name = k.2)

def byArtist (artist : Id) : Int := one (decide (artist ∈ v.artists))

def availableBy (artist : Id) : Int := one (decide (artist ∈ v.artists) && v.track.present)

def tagged (tag : Id) : Int := one (decide (tag ∈ v.tagIds))

end Filed

namespace Catalog

variable (c : Catalog)

/-- A track's row with the links the tables hold of it. -/
def file (t : Track) : Filed where
  track := t
  credits := c.trackArtists.filter fun r => decide (r.track = t.id)
  listings := c.trackAlbumArtists.filter fun r => decide (r.track = t.id)
  tags := c.trackTags.filter fun r => decide (r.track = t.id)

def filed : List Filed := c.tracks.map c.file

/-- The links that a tag's albums, or artists, are counted from. -/
def held (links : Tally.Table (Id × Id) Int) (tag : Id) : Int :=
  (links.map Prod.fst).countP fun k => decide (k.2 = tag)

/-- Every count row holds what a recount of the tracks and links gives, and there is one for each key
that has any. -/
structure Tallied : Prop where
  albumGroups : Tally.Exact c.albumGroups (Tally.recount Filed.inGroup c.filed)
  albumCredits : Tally.Exact c.albumCredits (Tally.recount Filed.onAlbum c.filed)
  albumTags : Tally.Exact c.albumTags (Tally.recount Filed.taggedOnAlbum c.filed)
  artistTags : Tally.Exact c.artistTags (Tally.recount Filed.taggedByArtist c.filed)
  artistSpellings : Tally.Exact c.artistSpellings (Tally.recount Filed.spells c.filed)
  artistSortKeys : Tally.Exact c.artistSortKeys (Tally.recount Filed.sorts c.filed)
  tagSpellings : Tally.Exact c.tagSpellings (Tally.recount Filed.spellsTag c.filed)

/-- No count row counts nothing, or less. -/
structure Positive : Prop where
  albumGroups : ∀ row ∈ c.albumGroups, 0 < row.2.1
  albumCredits : ∀ row ∈ c.albumCredits, 0 < row.2
  albumTags : ∀ row ∈ c.albumTags, 0 < row.2
  artistTags : ∀ row ∈ c.artistTags, 0 < row.2
  artistSpellings : ∀ row ∈ c.artistSpellings, 0 < row.2
  artistSortKeys : ∀ row ∈ c.artistSortKeys, 0 < row.2
  tagSpellings : ∀ row ∈ c.tagSpellings, 0 < row.2

/-- Every count in the row of the library, of an artist or of a tag is what a recount gives. -/
structure Counted : Prop where
  tracks : c.totals.trackCount = c.tracks.length
  albums : c.totals.albumCount = c.albums.length
  artists : c.totals.artistCount = c.artists.length
  duration : c.totals.durationUs = (c.tracks.map Track.durationUs).sum
  artistTracks : ∀ a ∈ c.artists, a.trackCount = Tally.recount Filed.byArtist c.filed a.id
  artistAvailable : ∀ a ∈ c.artists,
    a.availableTrackCount = Tally.recount Filed.availableBy c.filed a.id
  artistAlbums : ∀ a ∈ c.artists,
    a.albumCount = c.albumArtists.countP fun r => decide (r.artist = a.id)
  tagTracks : ∀ t ∈ c.tags, t.trackCount = Tally.recount Filed.tagged c.filed t.id
  tagAlbums : ∀ t ∈ c.tags, t.albumCount = held c.albumTags t.id
  tagArtists : ∀ t ∈ c.tags, t.artistCount = held c.artistTags t.id

/-- An artist, album or tag has a row exactly when a track credits, is on or carries it. -/
structure Populated : Prop where
  albums : ∀ id, (∃ a ∈ c.albums, a.id = id) ↔ ∃ t ∈ c.tracks, t.albumId = id
  artists : ∀ id, (∃ a ∈ c.artists, a.id = id) ↔ c.credited id = true
  tags : ∀ id, (∃ t ∈ c.tags, t.id = id) ↔ c.carried id = true

/-- Rows have one ID each, links one row each, and each link's rows are there. -/
structure Linked : Prop where
  tracks : (c.tracks.map Track.id).Nodup
  albums : (c.albums.map Album.id).Nodup
  artists : (c.artists.map Artist.id).Nodup
  tags : (c.tags.map Tag.id).Nodup
  credits : (c.trackArtists.map Credit.key).Nodup
  creditArtists : (c.trackArtists.map fun r => (r.track, r.artist)).Nodup
  listings : (c.trackAlbumArtists.map Credit.key).Nodup
  trackTags : (c.trackTags.map TrackTag.key).Nodup
  albumArtists : (c.albumArtists.map AlbumArtist.key).Nodup
  creditTracks : ∀ r ∈ c.trackArtists, ∃ t ∈ c.tracks, t.id = r.track
  listingTracks : ∀ r ∈ c.trackAlbumArtists, ∃ t ∈ c.tracks, t.id = r.track
  tagTracks : ∀ r ∈ c.trackTags, ∃ t ∈ c.tracks, t.id = r.track
  creditRows : ∀ r ∈ c.trackArtists, ∃ a ∈ c.artists, a.id = r.artist
  listingRows : ∀ r ∈ c.trackAlbumArtists, ∃ a ∈ c.artists, a.id = r.artist
  tagRows : ∀ r ∈ c.trackTags, ∃ t ∈ c.tags, t.id = r.tag
  albumRows : ∀ t ∈ c.tracks, ∃ a ∈ c.albums, a.id = t.albumId
  listedRows : ∀ t ∈ c.tracks, ∀ artist ∈ t.albumArtistIds, ∃ a ∈ c.artists, a.id = artist
  albumArtistRows : ∀ r ∈ c.albumArtists, ∃ a ∈ c.artists, a.id = r.artist
  artistAlbums : ∀ r ∈ c.albumArtists, ∃ a ∈ c.albums, a.id = r.album

/-- Counts are what a recount gives, of rows that are there. -/
structure Consistent : Prop where
  tallied : c.Tallied
  counted : c.Counted
  linked : c.Linked

end Catalog

end JewelCase.Content

/-!
## One track filed anew

A statement changes the row or the links of one track. A recount then differs by what that track counts
for, which the statement's triggers add and take.
-/
namespace JewelCase.Content

set_option autoImplicit false

open Library

/-! ### Tags follow their links -/

namespace Catalog

variable (c : Catalog)

/-- Other tags of albums, which the tags' counts follow. -/
def withAlbumTags (links : Tally.Table (Id × Id) Int) : Catalog :=
  { c with
    albumTags := links
    tags := c.tags.map fun t =>
      { t with albumCount := t.albumCount + (held links t.id - held c.albumTags t.id) } }

/-- Other tags of artists, which the tags' counts follow. -/
def withArtistTags (links : Tally.Table (Id × Id) Int) : Catalog :=
  { c with
    artistTags := links
    tags := c.tags.map fun t =>
      { t with artistCount := t.artistCount + (held links t.id - held c.artistTags t.id) } }

/-- A link raised is one more of its tag, if it is new. -/
theorem held_raise (links : Tally.Table (Id × Id) Int) (k : Id × Id) (tag : Id) :
    held (Tally.raise links k 1) tag =
      held links tag + if Tally.has links k = false ∧ tag = k.2 then 1 else 0 := by
  unfold held
  rw [Tally.map_fst_raise]
  cases Tally.has links k with
  | true => simp
  | false =>
    by_cases htag : tag = k.2
    · subst htag
      simp
    · have htag' : k.2 ≠ tag := fun h => htag h.symm
      simp [htag, htag']

/-- Links lowered are those fewer that nothing uses any more. -/
theorem held_lower (links : Tally.Table (Id × Id) Int) (p : Id × Id → Bool) (tag : Id) :
    held (Tally.lower links p 1) tag = held links tag -
      ((Tally.unused links p 1).countP fun k => decide (k.2 = tag) : Nat) := by
  have h := Tally.countP_unused (t := links) (p := p) (d := (1 : Int)) fun k => decide (k.2 = tag)
  unfold held
  omega

/-- The albums of every tag in some links are lowered by the links it has there. -/
theorem foldl_countTagAlbums (keys : List (Id × Id)) :
    keys.foldl (fun c k => c.countTagAlbums k.2 (-1)) c =
      { c with tags := c.tags.map fun t =>
          { t with albumCount :=
              t.albumCount - (keys.countP fun k => decide (k.2 = t.id) : Nat) } } := by
  induction keys generalizing c with
  | nil => simp
  | cons k keys ih =>
    rw [List.foldl_cons, ih, countTagAlbums]
    congr 1
    rw [List.map_map]
    apply List.map_congr_left
    intro t _
    rw [Function.comp_apply]
    by_cases hk : t.id = k.2
    · rw [if_pos hk]
      dsimp only
      rw [List.countP_cons, hk, decide_eq_true rfl, if_pos rfl]
      congr 1
      omega
    · rw [if_neg hk, List.countP_cons, decide_eq_false fun h : k.2 = t.id => hk h.symm,
        if_neg Bool.false_ne_true, Nat.add_zero]

theorem foldl_countTagArtists (keys : List (Id × Id)) :
    keys.foldl (fun c k => c.countTagArtists k.2 (-1)) c =
      { c with tags := c.tags.map fun t =>
          { t with artistCount :=
              t.artistCount - (keys.countP fun k => decide (k.2 = t.id) : Nat) } } := by
  induction keys generalizing c with
  | nil => simp
  | cons k keys ih =>
    rw [List.foldl_cons, ih, countTagArtists]
    congr 1
    rw [List.map_map]
    apply List.map_congr_left
    intro t _
    rw [Function.comp_apply]
    by_cases hk : t.id = k.2
    · rw [if_pos hk]
      dsimp only
      rw [List.countP_cons, hk, decide_eq_true rfl, if_pos rfl]
      congr 1
      omega
    · rw [if_neg hk, List.countP_cons, decide_eq_false fun h : k.2 = t.id => hk h.symm,
        if_neg Bool.false_ne_true, Nat.add_zero]

/-- The trigger that raises a tag of an album counts the album if the link is new. -/
theorem raiseAlbumTag_eq (k : Id × Id) :
    c.raiseAlbumTag k = c.withAlbumTags (Tally.raise c.albumTags k 1) := by
  unfold raiseAlbumTag withAlbumTags countTagAlbums
  cases hhas : Tally.has c.albumTags k with
  | true => simp [held_raise, hhas]
  | false =>
    simp only [Bool.false_eq_true, if_false, held_raise, hhas, true_and]
    congr 1
    apply List.map_congr_left
    intro t _
    split <;> simp

theorem raiseArtistTag_eq (k : Id × Id) :
    c.raiseArtistTag k = c.withArtistTags (Tally.raise c.artistTags k 1) := by
  unfold raiseArtistTag withArtistTags countTagArtists
  cases hhas : Tally.has c.artistTags k with
  | true => simp [held_raise, hhas]
  | false =>
    simp only [Bool.false_eq_true, if_false, held_raise, hhas, true_and]
    congr 1
    apply List.map_congr_left
    intro t _
    split <;> simp

theorem lowerAlbumTags_eq (p : Id × Id → Bool) :
    c.lowerAlbumTags p = c.withAlbumTags (Tally.lower c.albumTags p 1) := by
  rw [lowerAlbumTags, foldl_countTagAlbums, withAlbumTags]
  congr 1
  apply List.map_congr_left
  intro t _
  rw [held_lower]
  congr 1
  omega

theorem lowerArtistTags_eq (p : Id × Id → Bool) :
    c.lowerArtistTags p = c.withArtistTags (Tally.lower c.artistTags p 1) := by
  rw [lowerArtistTags, foldl_countTagArtists, withArtistTags]
  congr 1
  apply List.map_congr_left
  intro t _
  rw [held_lower]
  congr 1
  omega

theorem withAlbumTags_withAlbumTags (links links' : Tally.Table (Id × Id) Int) :
    (c.withAlbumTags links).withAlbumTags links' = c.withAlbumTags links' := by
  unfold withAlbumTags
  rw [List.map_map]
  congr 1
  apply List.map_congr_left
  intro t _
  rw [Function.comp_apply]
  dsimp only
  congr 1
  omega

theorem withArtistTags_withArtistTags (links links' : Tally.Table (Id × Id) Int) :
    (c.withArtistTags links).withArtistTags links' = c.withArtistTags links' := by
  unfold withArtistTags
  rw [List.map_map]
  congr 1
  apply List.map_congr_left
  intro t _
  rw [Function.comp_apply]
  dsimp only
  congr 1
  omega

theorem foldl_raiseAlbumTag (keys : List (Id × Id)) :
    keys.foldl raiseAlbumTag c =
      c.withAlbumTags (keys.foldl (fun t k => Tally.raise t k 1) c.albumTags) := by
  induction keys generalizing c with
  | nil => simp [withAlbumTags]
  | cons k keys ih =>
    rw [List.foldl_cons, List.foldl_cons, ih, raiseAlbumTag_eq, withAlbumTags_withAlbumTags]
    rfl

theorem foldl_raiseArtistTag (keys : List (Id × Id)) :
    keys.foldl raiseArtistTag c =
      c.withArtistTags (keys.foldl (fun t k => Tally.raise t k 1) c.artistTags) := by
  induction keys generalizing c with
  | nil => simp [withArtistTags]
  | cons k keys ih =>
    rw [List.foldl_cons, List.foldl_cons, ih, raiseArtistTag_eq, withArtistTags_withArtistTags]
    rfl

end Catalog

/-! ### Recounts -/

/-- Of what the tracks are filed as, `x` is now `x'`. -/
structure Refiled (c c' : Catalog) (x x' : Filed) : Prop where
  recount : ∀ {κ V : Type} [Tally.Amount V] (w : Filed → κ → V) (k : κ),
    Tally.recount w c'.filed k = Tally.recount w c.filed k - w x k + w x' k

section Refiled

variable {c c' : Catalog} {x x' : Filed} {κ V : Type} [DecidableEq κ] [Tally.Amount V]
  {w : Filed → κ → V} {t : Tally.Table κ V}

omit [DecidableEq κ] in
/-- A count that both filings give alike stays. -/
theorem Refiled.same (hr : Refiled c c' x x') (h : Tally.Exact t (Tally.recount w c.filed))
    (hw : ∀ k, w x' k = w x k) : Tally.Exact t (Tally.recount w c'.filed) := by
  apply h.congr
  intro k
  rw [hr.recount, hw, sub_add_cancel]

/-- A row raised by what the new filing adds is what a recount gives. -/
theorem Refiled.raise (hr : Refiled c c' x x') (hcounts : Tally.Counts w)
    (h : Tally.Exact t (Tally.recount w c.filed)) {k : κ} {d : V} (hd : 0 < Tally.Amount.size d)
    (hw : ∀ k', w x' k' = w x k' + if k' = k then d else 0) :
    Tally.Exact (Tally.raise t k d) (Tally.recount w c'.filed) := by
  apply h.raise hd (Tally.size_recount_nonneg hcounts) (Tally.recount_eq_zero hcounts)
  intro k'
  rw [hr.recount, hw]
  abel

omit [DecidableEq κ] in
/-- Rows lowered by what the new filing takes away are what a recount gives. -/
theorem Refiled.lower (hr : Refiled c c' x x') (hcounts : Tally.Counts w)
    (h : Tally.Exact t (Tally.recount w c.filed)) {p : κ → Bool} {d : V}
    (hd : 0 < Tally.Amount.size d) (hw : ∀ k, w x' k = w x k - if p k then d else 0) :
    Tally.Exact (Tally.lower t p d) (Tally.recount w c'.filed) := by
  apply h.lower hd (Tally.size_recount_nonneg hcounts)
  intro k
  rw [hr.recount, hw]
  abel

/-- A track whose row and links are all that differ is filed anew. -/
theorem Refiled.of_change (hids : (c.tracks.map Track.id).Nodup) {u u' : Track} (hu : u ∈ c.tracks)
    (htracks : c'.tracks = c.tracks.map fun v => if v.id = u.id then u' else v)
    (hfile : ∀ v : Track, v.id ≠ u.id → c'.file v = c.file v) :
    Refiled c c' (c.file u) (c'.file u') := by
  refine ⟨?_⟩
  intro κ V _ w k
  have hfiled : c'.filed =
      c.filed.map fun y => if y.id = (c.file u).id then c'.file u' else y := by
    rw [Catalog.filed, htracks, Catalog.filed, List.map_map, List.map_map]
    apply List.map_congr_left
    intro v _
    rw [Function.comp_apply, Function.comp_apply]
    change c'.file (if v.id = u.id then u' else v) = if v.id = u.id then c'.file u' else c.file v
    by_cases hv : v.id = u.id
    · rw [if_pos hv, if_pos hv]
    · rw [if_neg hv, if_neg hv, hfile v hv]
  rw [hfiled]
  apply Tally.recount_replace
  · rw [Catalog.filed, List.map_map]
    exact hids
  · exact List.mem_map_of_mem hu

theorem map_replace_self {tracks : List Track} (hids : (tracks.map Track.id).Nodup) {u : Track}
    (hu : u ∈ tracks) : (tracks.map fun v => if v.id = u.id then u else v) = tracks := by
  calc tracks.map (fun v => if v.id = u.id then u else v)
      = tracks.map id := by
        apply List.map_congr_left
        intro v hv
        by_cases hvu : v.id = u.id
        · rw [if_pos hvu]
          exact List.inj_on_of_nodup_map hids hu hv hvu.symm
        · rw [if_neg hvu]
          rfl
    _ = tracks := List.map_id tracks

/-- A track whose links are all that differ is filed anew. -/
theorem Refiled.of_links (hids : (c.tracks.map Track.id).Nodup) {u : Track} (hu : u ∈ c.tracks)
    (htracks : c'.tracks = c.tracks)
    (hfile : ∀ v : Track, v.id ≠ u.id → c'.file v = c.file v) :
    Refiled c c' (c.file u) (c'.file u) :=
  Refiled.of_change hids hu (by rw [htracks, map_replace_self hids hu]) hfile

/-- A row of a table of pairs raised. -/
theorem Refiled.raise_pair {α β : Type} [DecidableEq α] [DecidableEq β] {w : Filed → α × β → Int}
    {t : Tally.Table (α × β) Int} (hr : Refiled c c' x x') (hcounts : Tally.Counts w)
    (h : Tally.Exact t (Tally.recount w c.filed)) {a : α} {b : β}
    (hw : ∀ k, w x' k = w x k + one (decide (a = k.1 ∧ b = k.2))) :
    Tally.Exact (Tally.raise t (a, b) 1) (Tally.recount w c'.filed) := by
  apply hr.raise hcounts h (d := (1 : Int)) Int.one_pos
  intro k
  rw [hw, one]
  congr 1
  by_cases hk : a = k.1 ∧ b = k.2
  · rw [if_pos (decide_eq_true hk), if_pos (Prod.ext hk.1.symm hk.2.symm)]
  · rw [if_neg (by simpa using hk), if_neg]
    rintro rfl
    exact hk ⟨rfl, rfl⟩

/-- The rows of several keys raised. -/
theorem Refiled.raiseEach {w : Filed → κ → Int} {t : Tally.Table κ Int} (hr : Refiled c c' x x')
    (hcounts : Tally.Counts w) (h : Tally.Exact t (Tally.recount w c.filed)) {ks : List κ}
    (hks : ks.Nodup) (hw : ∀ k, w x' k = w x k + one (decide (k ∈ ks))) :
    Tally.Exact (ks.foldl (fun t k => Tally.raise t k 1) t) (Tally.recount w c'.filed) := by
  apply (h.raiseEach (Tally.size_recount_nonneg hcounts) hks).congr
  intro k
  rw [hr.recount, hw, one]
  simp only [decide_eq_true_eq]
  omega

omit [DecidableEq κ] in
/-- The rows of some keys lowered. -/
theorem Refiled.lowerEach {w : Filed → κ → Int} {t : Tally.Table κ Int} (hr : Refiled c c' x x')
    (hcounts : Tally.Counts w) (h : Tally.Exact t (Tally.recount w c.filed)) {p : κ → Bool}
    (hw : ∀ k, w x k = w x' k + one (p k)) :
    Tally.Exact (Tally.lower t p 1) (Tally.recount w c'.filed) := by
  apply hr.lower hcounts h (d := (1 : Int)) Int.one_pos
  intro k
  rw [hw, one]
  split <;> omega

end Refiled

/-! ### Each track counts for nothing, or something -/

theorem one_counts (b : Bool) : one b = 0 ∨ 0 < one b := by
  cases b
  · exact Or.inl rfl
  · exact Or.inr Int.one_pos

theorem one_nonneg (b : Bool) : 0 ≤ one b := by
  cases b <;> decide

theorem counts_of_nonneg {α κ : Type} {w : α → κ → Int} (h : ∀ x k, 0 ≤ w x k) : Tally.Counts w := by
  intro x k
  rcases Int.lt_or_eq_of_le (h x k) with hpos | hzero
  · exact Or.inr hpos
  · exact Or.inl hzero.symm

namespace Filed

theorem inGroup_counts : Tally.Counts inGroup := by
  intro v k
  unfold inGroup
  split
  · exact Or.inr Int.one_pos
  · exact Or.inl rfl

theorem onAlbum_counts : Tally.Counts onAlbum := fun _ _ => one_counts _

theorem taggedOnAlbum_counts : Tally.Counts taggedOnAlbum := fun _ _ => one_counts _

theorem taggedByArtist_counts : Tally.Counts taggedByArtist := fun _ _ => one_counts _

theorem spells_counts : Tally.Counts spells := by
  apply counts_of_nonneg
  intro v k
  unfold spells
  omega

theorem sorts_counts : Tally.Counts sorts :=
  counts_of_nonneg fun _ _ => Int.add_nonneg (one_nonneg _) (one_nonneg _)

theorem spellsTag_counts : Tally.Counts spellsTag := by
  apply counts_of_nonneg
  intro v k
  unfold spellsTag
  omega

end Filed

end JewelCase.Content
