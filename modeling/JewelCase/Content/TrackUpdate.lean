import JewelCase.Content.TrackRows

/-!
# A track's row updated

The triggers of an update move what the track counts for: from its old group to its new one, from its
old album to its new one, and between what its sort keys and its presence were and are.
-/
namespace JewelCase.Content

set_option autoImplicit false

open Library

namespace Catalog

variable {c : Catalog} {old new : Track}

/-! ### What the triggers write -/

/-- The tags of albums once a track is on its new one. -/
def movedTags (c : Catalog) (old new : Track) : Tally.Table (Id × Id) Int :=
  if new.albumId = old.albumId then c.albumTags
  else ((c.tagsOf new.id).map fun tag => (new.albumId, tag)).foldl (fun t k => Tally.raise t k 1)
    (Tally.lower c.albumTags (fun k => decide (old.albumId = k.1 ∧ k.2 ∈ c.tagsOf new.id)) 1)

/-- The credits of albums once a track is on its new one. -/
def movedCredits (c : Catalog) (old new : Track) : Tally.Table (Id × Id) Int :=
  if new.albumId = old.albumId then c.albumCredits
  else ((c.artistsOf new.id).map fun artist => (new.albumId, artist)).foldl
    (fun t k => Tally.raise t k 1)
    (Tally.lower c.albumCredits (fun k => decide (old.albumId = k.1 ∧ k.2 ∈ c.artistsOf new.id)) 1)

/-- The artists once a track is gone or returned. -/
def availableArtists (c : Catalog) (old new : Track) : List Artist :=
  c.artists.map fun a =>
    { a with
      availableTrackCount := a.availableTrackCount +
        if a.id ∈ c.artistsOf new.id then one new.present - one old.present else 0 }

/-- Each artist of a track is counted once, as the track credits none twice. -/
theorem foldl_countArtistTracks {ids : List Id} (hids : ids.Nodup) (d : Int) :
    ids.foldl (fun c artist => c.countArtistTracks artist 0 d) c =
      { c with artists := c.artists.map fun a =>
          { a with availableTrackCount := a.availableTrackCount + if a.id ∈ ids then d else 0 } } := by
  induction ids generalizing c with
  | nil => simp
  | cons id ids ih =>
    rw [List.nodup_cons] at hids
    rw [List.foldl_cons, ih hids.2, countArtistTracks]
    congr 1
    rw [List.map_map]
    apply List.map_congr_left
    intro a _
    rw [Function.comp_apply]
    by_cases hid : a.id = id
    · rw [if_pos hid]
      simp [hid, hids.1]
    · rw [if_neg hid]
      simp [hid]

/-- What the trigger on a file gone or returned writes: available counts of its artists. -/
theorem tracksAvailability_eq (hids : (c.artistsOf new.id).Nodup) :
    c.tracksAvailability old new = { c with artists := c.availableArtists old new } := by
  unfold tracksAvailability availableArtists
  split
  · rename_i hsame
    rw [hsame]
    simp
  · exact foldl_countArtistTracks hids _

theorem withAlbumTags_self : c.withAlbumTags c.albumTags = c := by
  unfold withAlbumTags
  simp

/-- What the triggers on a track's new album write: the album's credits and tags. -/
theorem tracksAlbum_eq (c : Catalog) (old new : Track) :
    c.tracksAlbum old new =
      { c.withAlbumTags (c.movedTags old new) with albumCredits := c.movedCredits old new } := by
  unfold tracksAlbum movedTags movedCredits
  split
  · rw [withAlbumTags_self]
  · have hmoved : ∀ d : Catalog, (c.tagsOf new.id).foldl
        (fun c tag => c.raiseAlbumTag (new.albumId, tag)) d =
          d.withAlbumTags (((c.tagsOf new.id).map fun tag => (new.albumId, tag)).foldl
            (fun t k => Tally.raise t k 1) d.albumTags) := by
      intro d
      rw [← foldl_raiseAlbumTag, List.foldl_map]
    dsimp only
    rw [hmoved, lowerAlbumTags_eq, withAlbumTags_withAlbumTags, List.foldl_map (l := c.artistsOf new.id)]
    rfl

/-- The sort keys of artists once the one that a track gives its first artist is new. -/
def creditKeys (c : Catalog) (old new : Track) (keys : Tally.Table (Id × SortKey) Int) :
    Tally.Table (Id × SortKey) Int :=
  if new.fileArtistSortKey = old.fileArtistSortKey then keys
  else
    let left := Tally.lower keys
      (fun k => decide (c.firstArtist new.id = some k.1 ∧ old.fileArtistSortKey = k.2)) 1
    (c.firstArtist new.id).elim left fun artist =>
      Tally.raise left (artist, new.fileArtistSortKey) 1

/-- The sort keys of artists once the one that a track gives its first album artist is new. -/
def listingKeys (c : Catalog) (old new : Track) (keys : Tally.Table (Id × SortKey) Int) :
    Tally.Table (Id × SortKey) Int :=
  if new.fileAlbumArtistSortKey = old.fileAlbumArtistSortKey then keys
  else
    let left := Tally.lower keys
      (fun k => decide (old.fileAlbumArtistSortKey ≠ [] ∧ c.firstAlbumArtist new.id = some k.1 ∧
        old.fileAlbumArtistSortKey = k.2)) 1
    if new.fileAlbumArtistSortKey ≠ [] then
      (c.firstAlbumArtist new.id).elim left fun artist =>
        Tally.raise left (artist, new.fileAlbumArtistSortKey) 1
    else left

/-- What the trigger on a new artist sort key writes: the first artist's keys. -/
theorem tracksArtistSortKey_eq (c : Catalog) (old new : Track) :
    c.tracksArtistSortKey old new =
      { c with artistSortKeys := c.creditKeys old new c.artistSortKeys } := by
  unfold tracksArtistSortKey creditKeys
  split <;> rfl

theorem tracksAlbumArtistSortKey_eq (c : Catalog) (old new : Track) :
    c.tracksAlbumArtistSortKey old new =
      { c with artistSortKeys := c.listingKeys old new c.artistSortKeys } := by
  unfold tracksAlbumArtistSortKey listingKeys
  split <;> rfl

/-- The catalog with a track's new row, counted in its new group. -/
def regrouped (c : Catalog) (old new : Track) : Catalog :=
  { c with
    tracks := c.tracks.map fun t => if t.id = new.id then new else t
    albumGroups := Tally.raise
      (Tally.lower c.albumGroups (fun k => decide (old.group = k)) old.amount) new.group new.amount
    totals := { c.totals with
      durationUs := c.totals.durationUs + new.durationUs - old.durationUs } }

/-- The catalog with all that follows a track's new row but its name. -/
def updated (c : Catalog) (old new : Track) : Catalog :=
  { c.regrouped old new with
    artists := c.availableArtists old new
    albumTags := c.movedTags old new
    tags := (c.withAlbumTags (c.movedTags old new)).tags
    albumCredits := c.movedCredits old new
    artistSortKeys := c.listingKeys old new (c.creditKeys old new c.artistSortKeys) }

/-- An updated track's row, and what its triggers write. -/
theorem updateTrack_eq (hids : (c.artistsOf new.id).Nodup) :
    c.updateTrack old new =
      if new.title = old.title then c.updated old new else (c.updated old new).named := by
  have havailable : (c.regrouped old new).tracksAvailability old new =
      { c.regrouped old new with artists := c.availableArtists old new } :=
    tracksAvailability_eq (c := c.regrouped old new) hids
  have hkeyed : ((((c.regrouped old new).tracksAvailability old new).tracksAlbum old
      new).tracksArtistSortKey old new).tracksAlbumArtistSortKey old new = c.updated old new := by
    rw [havailable, tracksAlbum_eq, tracksArtistSortKey_eq, tracksAlbumArtistSortKey_eq]
    rfl
  rw [← hkeyed]
  rfl

/-! ### What the track counts for -/

/-- The other tracks, as they are filed. -/
def others (c : Catalog) (track : Id) : List Filed := Keyed.without Filed.id c.filed track

section Updated

variable {κ V : Type} [Tally.Amount V] {w : Filed → κ → V}

theorem recount_others (hl : c.Linked) (hold : old ∈ c.tracks) (k : κ) :
    Tally.recount w c.filed k = Tally.recount w (c.others old.id ++ [c.file old]) k := by
  have hids : (c.filed.map Filed.id).Nodup := by
    unfold filed
    rw [List.map_map]
    exact hl.tracks
  have hmem : c.file old ∈ c.filed := List.mem_map_of_mem hold
  have hrest : Tally.recount w (c.others old.id) k = _ := Tally.recount_without hids hmem k
  rw [Tally.recount_append, hrest, sub_add_cancel]

omit [Tally.Amount V] in
/-- An update files the track anew, with the links it had. -/
theorem refiled_updated (hl : c.Linked) (hold : old ∈ c.tracks) (hid : new.id = old.id) :
    Refiled c (c.updated old new) (c.file old) { c.file old with track := new } := by
  have hfile : (c.updated old new).file new = { c.file old with track := new } := by
    unfold file
    rw [hid]
    rfl
  have htracks : (c.updated old new).tracks =
      c.tracks.map fun v => if v.id = old.id then new else v := by
    rw [← hid]
    rfl
  rw [← hfile]
  exact Refiled.of_change hl.tracks hold htracks fun _ _ => rfl

theorem recount_updated (hl : c.Linked) (hold : old ∈ c.tracks) (hid : new.id = old.id) (k : κ) :
    Tally.recount w (c.updated old new).filed k =
      Tally.recount w (c.others old.id ++ [{ c.file old with track := new }]) k := by
  have hrest := recount_others (w := w) hl hold k
  rw [Tally.recount_append] at hrest
  rw [(refiled_updated hl hold hid).recount, hrest, Tally.recount_append, add_sub_cancel_right]

theorem exact_others [DecidableEq κ] (hl : c.Linked) (hold : old ∈ c.tracks) {t : Tally.Table κ V}
    (h : Tally.Exact t (Tally.recount w c.filed)) :
    Tally.Exact t (Tally.recount w (c.others old.id ++ [c.file old])) :=
  h.congr fun k => (recount_others hl hold k).symm

theorem exact_updated [DecidableEq κ] (hl : c.Linked) (hold : old ∈ c.tracks) (hid : new.id = old.id)
    {t : Tally.Table κ V}
    (h : Tally.Exact t (Tally.recount w (c.others old.id ++ [{ c.file old with track := new }]))) :
    Tally.Exact t (Tally.recount w (c.updated old new).filed) :=
  h.congr (recount_updated hl hold hid)

end Updated

/-- A track with some artists, or tags, goes from one album to another. -/
theorem moved {t : Tally.Table (Id × Id) Int} {w : Filed → Id × Id → Int} (hw : Tally.Counts w)
    {xs : List Filed} {x : Filed} (x' : Filed) (h : Tally.Exact t (Tally.recount w (xs ++ [x])))
    {ids : List Id} (hids : ids.Nodup) {album album' : Id}
    (hx : ∀ k, w x k = one (decide (album = k.1 ∧ k.2 ∈ ids)))
    (hx' : ∀ k, w x' k = one (decide (album' = k.1 ∧ k.2 ∈ ids))) :
    Tally.Exact
      (if album' = album then t
      else (ids.map fun id => (album', id)).foldl (fun t k => Tally.raise t k 1)
        (Tally.lower t (fun k => decide (album = k.1 ∧ k.2 ∈ ids)) 1))
      (Tally.recount w (xs ++ [x'])) := by
  split
  · rename_i hsame
    apply h.same_last
    intro k
    rw [hx, hx', hsame]
  · have hgone := h.lower_gone hw (d := (1 : Int)) Int.one_pos hx
    apply hgone.raiseEach_new hw
    · exact hids.map fun a b hab => (Prod.ext_iff.mp hab).2
    · intro k
      have hmem : k ∈ ids.map (fun id => (album', id)) ↔ album' = k.1 ∧ k.2 ∈ ids := by
        rw [List.mem_map]
        constructor
        · rintro ⟨id, hid, rfl⟩
          exact ⟨rfl, hid⟩
        · rintro ⟨halbum, hid⟩
          exact ⟨k.2, hid, Prod.ext halbum rfl⟩
      rw [hx', one]
      simp only [decide_eq_true_eq, hmem]

theorem firstArtist_eq (c : Catalog) (t : Track) :
    c.firstArtist t.id = Filed.firstOf t.id (c.file t).credits := by
  unfold firstArtist Filed.firstOf file Keyed.find
  rw [List.find?_filter]
  congr 2
  funext r
  rw [Bool.eq_iff_iff]
  simp only [decide_eq_true_eq]
  exact ⟨fun h => ⟨(Prod.ext_iff.mp h).1, h⟩, fun h => h.2⟩

theorem firstAlbumArtist_eq (c : Catalog) (t : Track) :
    c.firstAlbumArtist t.id = Filed.firstOf t.id (c.file t).listings := by
  unfold firstAlbumArtist Filed.firstOf file Keyed.find
  rw [List.find?_filter]
  congr 2
  funext r
  rw [Bool.eq_iff_iff]
  simp only [decide_eq_true_eq]
  exact ⟨fun h => ⟨(Prod.ext_iff.mp h).1, h⟩, fun h => h.2⟩

/-- What a file's sort key for an artist counts for. -/
def sortsAs (first : Option Id) (key : SortKey) (k : Id × SortKey) : Int :=
  one (decide (first = some k.1 ∧ key = k.2))

theorem sortsAs_none (key : SortKey) (k : Id × SortKey) : sortsAs none key k = 0 := by
  rw [sortsAs, decide_eq_false fun h => (Option.some_ne_none k.1) h.1.symm, one_false]

theorem sortsAs_full (first : Option Id) (key : SortKey) (k : Id × SortKey) :
    one (decide (first = some k.1 ∧ key = k.2 ∧ k.2 ≠ [])) =
      sortsAs (if key ≠ [] then first else none) key k := by
  by_cases hkey : key = []
  · rw [if_neg fun h => h hkey, sortsAs_none, decide_eq_false, one_false]
    rintro ⟨_, hk, hfull⟩
    exact hfull (hk.symm.trans hkey)
  · rw [if_pos hkey, sortsAs]
    apply one_congr
    exact ⟨fun h => ⟨h.1, h.2.1⟩, fun h => ⟨h.1, h.2, h.2 ▸ hkey⟩⟩

/-- The artist that a file's sort key for its first album artist is of. -/
def listedFirst (v : Filed) : Option Id :=
  if v.track.fileAlbumArtistSortKey ≠ [] then Filed.firstOf v.id v.listings else none

/-- A track's sort keys are those of its first artist and of its first listed artist. -/
theorem sorts_eq (v : Filed) (k : Id × SortKey) :
    v.sorts k = sortsAs (Filed.firstOf v.id v.credits) v.track.fileArtistSortKey k +
      sortsAs (listedFirst v) v.track.fileAlbumArtistSortKey k := by
  unfold Filed.sorts listedFirst
  rw [sortsAs_full]
  rfl

/-- A file gives another artist a sort key, or the artist another one. -/
theorem rekeyed {t : Tally.Table (Id × SortKey) Int} {xs : List Filed} {x : Filed}
    (h : Tally.Exact t (Tally.recount Filed.sorts (xs ++ [x]))) (y x' : Filed)
    {first first' : Option Id} {key key' : SortKey}
    (hx : ∀ k, x.sorts k = y.sorts k + sortsAs first key k)
    (hx' : ∀ k, x'.sorts k = y.sorts k + sortsAs first' key' k) :
    Tally.Exact
      (first'.elim (Tally.lower t (fun k => decide (first = some k.1 ∧ key = k.2)) 1) fun artist =>
        Tally.raise (Tally.lower t (fun k => decide (first = some k.1 ∧ key = k.2)) 1)
          (artist, key') 1)
      (Tally.recount Filed.sorts (xs ++ [x'])) := by
  have hleft : Tally.Exact (Tally.lower t (fun k => decide (first = some k.1 ∧ key = k.2)) 1)
      (Tally.recount Filed.sorts (xs ++ [y])) :=
    h.lower_last Filed.sorts_counts (d := (1 : Int)) Int.one_pos hx
  cases first' with
  | none =>
    apply hleft.same_last
    intro k
    rw [hx', sortsAs_none, Int.add_zero]
  | some artist =>
    apply hleft.raise_last Filed.sorts_counts (d := (1 : Int)) Int.one_pos
    intro k
    rw [hx', sortsAs, one]
    congr 1
    by_cases hk : k = (artist, key')
    · rw [if_pos hk, hk, if_pos (decide_eq_true ⟨rfl, rfl⟩)]
    · rw [if_neg hk, if_neg]
      intro hdec
      obtain ⟨hartist, hkey⟩ := of_decide_eq_true hdec
      exact hk (Prod.ext (Option.some.inj hartist).symm hkey.symm)

/-- A track's row with a new sort key for its first artist. -/
def withCreditKey (old new : Track) : Track :=
  { old with fileArtistSortKey := new.fileArtistSortKey }

/-- The first trigger moves the first artist's count to the new key. -/
theorem creditKeys_exact {t : Tally.Table (Id × SortKey) Int} {xs : List Filed}
    (h : Tally.Exact t (Tally.recount Filed.sorts (xs ++ [c.file old]))) (hid : new.id = old.id) :
    Tally.Exact (c.creditKeys old new t)
      (Tally.recount Filed.sorts (xs ++ [{ c.file old with track := withCreditKey old new }])) := by
  unfold creditKeys
  rw [hid, firstArtist_eq]
  split
  · rename_i hsame
    apply h.same_last
    intro k
    unfold withCreditKey
    rw [hsame]
    rfl
  · have hnone : ∀ k, Filed.sorts { c.file old with credits := [] } k =
        sortsAs (listedFirst (c.file old)) old.fileAlbumArtistSortKey k := by
      intro k
      rw [sorts_eq, show Filed.firstOf _ [] = none from rfl, sortsAs_none, Int.zero_add]
      rfl
    apply rekeyed h { c.file old with credits := [] }
    · intro k
      rw [sorts_eq, hnone, Int.add_comm]
      rfl
    · intro k
      rw [sorts_eq, hnone, Int.add_comm]
      rfl

/-- The second trigger then moves the first listed artist's count, the credit's being moved
already. -/
theorem listingKeys_exact {t : Tally.Table (Id × SortKey) Int} {xs : List Filed}
    (h : Tally.Exact t
      (Tally.recount Filed.sorts (xs ++ [{ c.file old with track := withCreditKey old new }])))
    (hid : new.id = old.id) :
    Tally.Exact (c.listingKeys old new t)
      (Tally.recount Filed.sorts (xs ++ [{ c.file old with track := new }])) := by
  have hfirst : ∀ credits, Filed.firstOf (Filed.id { c.file old with track := new }) credits =
      Filed.firstOf old.id credits := by
    intro credits
    rw [← hid]
    rfl
  unfold listingKeys
  rw [hid, firstAlbumArtist_eq]
  split
  · rename_i hsame
    apply h.same_last
    intro k
    rw [sorts_eq, sorts_eq, hfirst]
    unfold listedFirst
    rw [hfirst]
    dsimp only
    rw [hsame]
    rfl
  · have hnone : ∀ k, Filed.sorts
        { c.file old with track := withCreditKey old new, listings := [] } k =
          sortsAs (Filed.firstOf old.id (c.file old).credits) new.fileArtistSortKey k := by
      intro k
      have hlisted : listedFirst
          { c.file old with track := withCreditKey old new, listings := [] } = none := by
        unfold listedFirst
        split <;> rfl
      rw [sorts_eq, hlisted, sortsAs_none, Int.add_zero]
      rfl
    have hkeyed := rekeyed h { c.file old with track := withCreditKey old new, listings := [] }
      { c.file old with track := new }
      (fun k => by
        rw [sorts_eq, hnone]
        rfl)
      (fun k => by
        rw [sorts_eq, hnone, hfirst])
    have hkeys : (fun k : Id × SortKey => decide (old.fileAlbumArtistSortKey ≠ [] ∧
        Filed.firstOf old.id (c.file old).listings = some k.1 ∧ old.fileAlbumArtistSortKey = k.2)) =
          fun k => decide (listedFirst { c.file old with track := withCreditKey old new } = some k.1 ∧
            old.fileAlbumArtistSortKey = k.2) := by
      funext k
      apply decide_eq_decide.mpr
      change _ ↔ (if old.fileAlbumArtistSortKey ≠ [] then _ else none) = some k.1 ∧ _
      by_cases hkey : old.fileAlbumArtistSortKey = []
      · rw [if_neg fun h => h hkey]
        exact ⟨fun h => absurd hkey h.1, fun h => absurd h.1.symm (Option.some_ne_none k.1)⟩
      · rw [if_pos hkey, and_iff_right hkey]
        rfl
    have hlisted : listedFirst { c.file old with track := new } =
        if new.fileAlbumArtistSortKey ≠ [] then Filed.firstOf old.id (c.file old).listings
        else none := by
      unfold listedFirst
      rw [hfirst]
    dsimp only
    rw [hkeys]
    rw [hlisted] at hkeyed
    by_cases hkey : new.fileAlbumArtistSortKey = []
    · rw [if_neg fun h => h hkey]
      rw [if_neg fun h => h hkey] at hkeyed
      exact hkeyed
    · rw [if_pos hkey]
      rw [if_pos hkey] at hkeyed
      exact hkeyed

/-- Every count table once a track's row is new. -/
theorem Tallied.updated (h : c.Tallied) (hl : c.Linked) (hold : old ∈ c.tracks)
    (hid : new.id = old.id) : (c.updated old new).Tallied where
  albumGroups := by
    apply exact_updated hl hold hid
    have hgone := (exact_others hl hold h.albumGroups).lower_gone Filed.inGroup_counts
      (p := fun k => decide (old.group = k)) (d := old.amount) Int.one_pos fun k => by
        simp only [decide_eq_true_eq]
        rfl
    exact hgone.raise_new Filed.inGroup_counts Int.one_pos fun k => by
      unfold Filed.inGroup
      simp only [eq_comm]
  albumCredits := by
    apply exact_updated hl hold hid
    have hmoved := moved Filed.onAlbum_counts { c.file old with track := new }
      (exact_others hl hold h.albumCredits) (hl.artists_nodup old.id) (fun _ => rfl) fun _ => rfl
    change Tally.Exact (c.movedCredits old new) _
    unfold movedCredits
    rw [hid]
    exact hmoved
  albumTags := by
    apply exact_updated hl hold hid
    have hmoved := moved Filed.taggedOnAlbum_counts { c.file old with track := new }
      (exact_others hl hold h.albumTags) (hl.tags_nodup old.id) (fun _ => rfl) fun _ => rfl
    change Tally.Exact (c.movedTags old new) _
    unfold movedTags
    rw [hid]
    exact hmoved
  artistTags := exact_updated hl hold hid ((exact_others hl hold h.artistTags).same_last fun _ => rfl)
  artistSpellings :=
    exact_updated hl hold hid ((exact_others hl hold h.artistSpellings).same_last fun _ => rfl)
  artistSortKeys := by
    apply exact_updated hl hold hid
    have hcredit := creditKeys_exact (exact_others hl hold h.artistSortKeys) hid
    exact listingKeys_exact hcredit hid
  tagSpellings :=
    exact_updated hl hold hid ((exact_others hl hold h.tagSpellings).same_last fun _ => rfl)

/-- Available counts follow a file gone or returned, and albums of tags the tags that moved. -/
theorem Counted.updated (h : c.Counted) (hl : c.Linked) (hold : old ∈ c.tracks)
    (hid : new.id = old.id) : (c.updated old new).Counted where
  tracks := by
    change c.totals.trackCount = ((c.tracks.map _).length : Int)
    rw [List.length_map, h.tracks]
  albums := h.albums
  artists := by
    change c.totals.artistCount = ((c.artists.map _).length : Int)
    rw [List.length_map, h.artists]
  duration := by
    have hsum := Tally.recount_replace (w := fun (t : Track) (_ : Unit) => t.durationUs) hl.tracks
      hold new ()
    rw [← hid] at hsum
    change c.totals.durationUs + new.durationUs - old.durationUs = _
    rw [h.duration]
    refine Eq.trans ?_ hsum.symm
    change _ = (c.tracks.map Track.durationUs).sum - old.durationUs + new.durationUs
    omega
  artistTracks := fun a' ha' => by
    obtain ⟨a, ha, rfl⟩ := List.mem_map.mp ha'
    have hsame : Filed.byArtist { c.file old with track := new } a.id =
        (c.file old).byArtist a.id := rfl
    rw [(refiled_updated hl hold hid).recount, hsame, Int.sub_add_cancel]
    exact h.artistTracks a ha
  artistAvailable := fun a' ha' => by
    obtain ⟨a, ha, rfl⟩ := List.mem_map.mp ha'
    rw [(refiled_updated hl hold hid).recount]
    change a.availableTrackCount + (if a.id ∈ c.artistsOf new.id then _ else _) =
      Tally.recount Filed.availableBy c.filed a.id -
        one (decide (a.id ∈ c.artistsOf old.id) && old.present) +
        one (decide (a.id ∈ c.artistsOf old.id) && new.present)
    rw [hid, ← h.artistAvailable a ha]
    by_cases hmem : a.id ∈ c.artistsOf old.id
    · rw [if_pos hmem, decide_eq_true hmem, Bool.true_and, Bool.true_and]
      omega
    · rw [if_neg hmem, decide_eq_false hmem, Bool.false_and, Bool.false_and]
      omega
  artistAlbums := fun a' ha' => by
    obtain ⟨a, ha, rfl⟩ := List.mem_map.mp ha'
    exact h.artistAlbums a ha
  tagTracks := fun tag' htag' => by
    obtain ⟨tag, htag, rfl⟩ := List.mem_map.mp htag'
    have hsame : Filed.tagged { c.file old with track := new } tag.id =
        (c.file old).tagged tag.id := rfl
    rw [(refiled_updated hl hold hid).recount, hsame, Int.sub_add_cancel]
    exact h.tagTracks tag htag
  tagAlbums := fun tag' htag' => by
    obtain ⟨tag, htag, rfl⟩ := List.mem_map.mp htag'
    change tag.albumCount + (held (c.movedTags old new) tag.id - held c.albumTags tag.id) =
      held (c.movedTags old new) tag.id
    rw [h.tagAlbums tag htag]
    omega
  tagArtists := fun tag' htag' => by
    obtain ⟨tag, htag, rfl⟩ := List.mem_map.mp htag'
    exact h.tagArtists tag htag

/-- A track's row is replaced by one of the same track. -/
theorem Linked.replaceTrack (h : c.Linked)
    (halbum : ∃ a ∈ c.albums, a.id = new.albumId)
    (hlisted : ∀ artist ∈ new.albumArtistIds, ∃ a ∈ c.artists, a.id = artist) :
    ({ c with tracks := c.tracks.map fun t => if t.id = new.id then new else t } : Catalog).Linked := by
  have hids : (c.tracks.map fun t => if t.id = new.id then new else t).map Track.id =
      c.tracks.map Track.id := by
    rw [List.map_map]
    apply List.map_congr_left
    intro t _
    rw [Function.comp_apply]
    split
    · rename_i ht
      exact ht.symm
    · rfl
  exact { h with
    tracks := hids ▸ h.tracks
    creditTracks := fun r hr => exists_of_map hids (h.creditTracks r hr)
    listingTracks := fun r hr => exists_of_map hids (h.listingTracks r hr)
    tagTracks := fun r hr => exists_of_map hids (h.tagTracks r hr)
    albumRows := fun t' ht' => by
      obtain ⟨t, ht, rfl⟩ := List.mem_map.mp ht'
      split
      · exact halbum
      · exact h.albumRows t ht
    listedRows := fun t' ht' => by
      obtain ⟨t, ht, rfl⟩ := List.mem_map.mp ht'
      split
      · exact hlisted
      · exact h.listedRows t ht }

theorem alike_named (c : Catalog) : Alike c c.named :=
  ⟨rfl, rfl, rfl, rfl, rfl, rfl, rfl, rfl, rfl, rfl, rfl, rfl, rfl, rfl, rfl, rfl⟩

/-- Updating a track's row keeps the counts, whichever columns change. -/
theorem Consistent.updateTrack (h : c.Consistent) (hold : old ∈ c.tracks) (hid : new.id = old.id)
    (halbum : ∃ a ∈ c.albums, a.id = new.albumId)
    (hlisted : ∀ artist ∈ new.albumArtistIds, ∃ a ∈ c.artists, a.id = artist) :
    (c.updateTrack old new).Consistent := by
  have hlinked : (c.updated old new).Linked := by
    have hbare : (c.updated old new).bare = { c.bare with
        tracks := c.tracks.map fun t => if t.id = new.id then new else t } := by
      have hartists : (c.availableArtists old new).map Artist.bare = c.artists.map Artist.bare := by
        unfold availableArtists
        rw [List.map_map]
        rfl
      have htags : (c.withAlbumTags (c.movedTags old new)).tags.map Tag.bare =
          c.tags.map Tag.bare := by
        unfold withAlbumTags
        rw [List.map_map]
        rfl
      unfold bare updated
      dsimp only
      rw [hartists, htags]
      rfl
    rw [← linked_bare, hbare]
    exact linked_bare.mpr (h.linked.replaceTrack halbum hlisted)
  have hupdated : (c.updated old new).Consistent :=
    ⟨h.tallied.updated h.linked hold hid, h.counted.updated h.linked hold hid, hlinked⟩
  rw [updateTrack_eq (h.linked.artists_nodup new.id)]
  split
  · exact hupdated
  · exact hupdated.alike (alike_named _)

end Catalog

end JewelCase.Content
