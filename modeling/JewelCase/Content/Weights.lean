import JewelCase.Content.Filed

/-!
# What a link adds

What a track counts for with one link more, and that the order of its links does not matter.
-/
namespace JewelCase.Content

set_option autoImplicit false

open Library

@[simp] theorem one_true : one true = 1 := rfl

@[simp] theorem one_false : one false = 0 := rfl

/-- One of two things that exclude each other counts for what each does. -/
theorem one_added {p q r : Prop} [Decidable p] [Decidable q] [Decidable r] (h : r ↔ p ∨ q)
    (hdisjoint : ¬ (p ∧ q)) : one (decide r) = one (decide p) + one (decide q) := by
  unfold one
  by_cases hp : p <;> by_cases hq : q <;> simp_all

theorem one_congr {p q : Prop} {_ : Decidable p} {_ : Decidable q} (h : p ↔ q) :
    one (decide p) = one (decide q) := by
  rw [decide_eq_decide.mpr h]

namespace Filed

variable {v v' : Filed} {r : Credit} {s : TrackTag}

/-- The track with one credit more. -/
def credit (v : Filed) (r : Credit) : Filed := { v with credits := v.credits ++ [r] }

/-- The track with one listing more. -/
def listing (v : Filed) (r : Credit) : Filed := { v with listings := v.listings ++ [r] }

/-- The track with one tag more. -/
def tag (v : Filed) (s : TrackTag) : Filed := { v with tags := v.tags ++ [s] }

theorem mem_artists_credit {a : Id} : a ∈ (v.credit r).artists ↔ a ∈ v.artists ∨ r.artist = a := by
  unfold artists credit
  rw [List.map_append, List.mem_append, List.map_singleton, List.mem_singleton, eq_comm (a := a)]

theorem mem_tagIds_tag {t : Id} : t ∈ (v.tag s).tagIds ↔ t ∈ v.tagIds ∨ s.tag = t := by
  unfold tagIds tag
  rw [List.map_append, List.mem_append, List.map_singleton, List.mem_singleton, eq_comm (a := t)]

theorem countP_append_one {α : Type} (p : α → Bool) (xs : List α) (x : α) :
    ((xs ++ [x]).countP p : Int) = xs.countP p + one (p x) := by
  rw [List.countP_append, List.countP_singleton, one]
  split <;> simp

theorem firstOf_append {track : Id} {credits : List Credit} (htrack : r.track = track)
    (hnew : ∀ held ∈ credits, held.position ≠ r.position) (a : Id) :
    firstOf track (credits ++ [r]) = some a ↔
      firstOf track credits = some a ∨ (r.position = 0 ∧ r.artist = a) := by
  unfold firstOf Keyed.find
  rw [List.find?_append]
  by_cases hpos : r.position = 0
  · have hnone : credits.find? (fun held => decide (held.key = (track, 0))) = none := by
      apply List.find?_eq_none.mpr
      intro held hheld hkey
      have hkey' := of_decide_eq_true hkey
      exact hnew held hheld ((Prod.ext_iff.mp hkey').2.trans hpos.symm)
    have hfound : [r].find? (fun held => decide (held.key = (track, 0))) = some r := by
      rw [List.find?_cons_of_pos]
      exact decide_eq_true (Prod.ext htrack hpos)
    rw [hnone, hfound]
    simp [hpos]
  · have hnone : [r].find? (fun held => decide (held.key = (track, 0))) = none := by
      apply List.find?_eq_none.mpr
      intro held hheld hkey
      rw [List.mem_singleton.mp hheld] at hkey
      exact hpos (Prod.ext_iff.mp (of_decide_eq_true hkey)).2
    rw [hnone]
    simp [hpos]

theorem firstOf_eq_some {track : Id} {credits : List Credit} {a : Id}
    (h : firstOf track credits = some a) : ∃ held ∈ credits, held.position = 0 := by
  obtain ⟨held, hheld, _⟩ := Option.map_eq_some_iff.mp h
  unfold Keyed.find at hheld
  refine ⟨held, List.mem_of_find?_eq_some hheld, ?_⟩
  have hkey := List.find?_some hheld
  exact (Prod.ext_iff.mp (of_decide_eq_true hkey)).2

/-! ### A credit -/

/-- A credit counts its artist once on the track's album. -/
theorem onAlbum_credit (hnew : r.artist ∉ v.artists) (k : Id × Id) :
    (v.credit r).onAlbum k =
      v.onAlbum k + one (decide (v.track.albumId = k.1 ∧ r.artist = k.2)) := by
  apply one_added
  · rw [mem_artists_credit]
    exact and_or_left
  · rintro ⟨⟨_, hold⟩, _, hk⟩
    exact hnew (hk ▸ hold)

/-- A credited artist gains every tag that the track carries. -/
theorem taggedByArtist_credit (hnew : r.artist ∉ v.artists) (k : Id × Id) :
    (v.credit r).taggedByArtist k =
      v.taggedByArtist k + one (decide (r.artist = k.1 ∧ k.2 ∈ v.tagIds)) := by
  apply one_added
  · rw [mem_artists_credit]
    exact or_and_right
  · rintro ⟨⟨hold, _⟩, hk, _⟩
    exact hnew (hk ▸ hold)

theorem spells_credit (k : Id × Text) :
    (v.credit r).spells k =
      v.spells k + one (decide (r.artist = k.1 ∧ r.name = some k.2)) := by
  unfold spells
  have h := countP_append_one (fun held : Credit =>
    decide (held.artist = k.1 ∧ held.name = some k.2)) v.credits r
  change ((v.credits ++ [r]).countP _ : Int) + (v.listings.countP _ : Nat) = _
  rw [h]
  omega

/-- Only a credit at the front takes the file's sort key to its artist. -/
theorem sorts_credit (htrack : r.track = v.id)
    (hnew : ∀ held ∈ v.credits, held.position ≠ r.position) (k : Id × SortKey) :
    (v.credit r).sorts k = v.sorts k +
      one (decide (r.position = 0 ∧ r.artist = k.1 ∧ v.track.fileArtistSortKey = k.2)) := by
  have hfirst := firstOf_append htrack hnew
  have hdisjoint : ¬ ((firstOf v.id v.credits = some k.1 ∧ v.track.fileArtistSortKey = k.2) ∧
      r.position = 0 ∧ r.artist = k.1 ∧ v.track.fileArtistSortKey = k.2) := by
    rintro ⟨⟨hold, _⟩, hpos, _⟩
    obtain ⟨held, hheld, hzero⟩ := firstOf_eq_some hold
    exact hnew held hheld (hzero.trans hpos.symm)
  have hadded : one (decide (firstOf v.id (v.credits ++ [r]) = some k.1 ∧
      v.track.fileArtistSortKey = k.2)) = _ :=
    one_added (by rw [hfirst, or_and_right, and_assoc]) hdisjoint
  have hsum : (v.credit r).sorts k = one (decide (firstOf v.id (v.credits ++ [r]) = some k.1 ∧
      v.track.fileArtistSortKey = k.2)) + one (decide (firstOf v.id v.listings = some k.1 ∧
        v.track.fileAlbumArtistSortKey = k.2 ∧ k.2 ≠ [])) := rfl
  rw [hsum, hadded, sorts]
  omega

theorem byArtist_credit (hnew : r.artist ∉ v.artists) (a : Id) :
    (v.credit r).byArtist a = v.byArtist a + one (decide (r.artist = a)) := by
  apply one_added mem_artists_credit
  rintro ⟨hold, hk⟩
  exact hnew (hk ▸ hold)

/-- A credit counts as available only while its file is present. -/
theorem availableBy_credit (hnew : r.artist ∉ v.artists) (a : Id) :
    (v.credit r).availableBy a =
      v.availableBy a + one (decide (r.artist = a) && v.track.present) := by
  have h := byArtist_credit hnew a
  unfold byArtist at h
  unfold availableBy
  change one (decide (a ∈ (v.credit r).artists) && v.track.present) = _
  cases v.track.present with
  | false => simp [one]
  | true =>
    simp only [Bool.and_true]
    exact h

/-! ### A listing -/

theorem spells_listing (k : Id × Text) :
    (v.listing r).spells k =
      v.spells k + one (decide (r.artist = k.1 ∧ r.name = some k.2)) := by
  unfold spells
  have h := countP_append_one (fun held : Credit =>
    decide (held.artist = k.1 ∧ held.name = some k.2)) v.listings r
  change _ + ((v.listings ++ [r]).countP _ : Int) = _
  rw [h, ← Int.add_assoc]
  rfl

/-- Only a listing at the front takes the file's key of album artists, unless there is none. -/
theorem sorts_listing (htrack : r.track = v.id)
    (hnew : ∀ held ∈ v.listings, held.position ≠ r.position) (k : Id × SortKey) :
    (v.listing r).sorts k = v.sorts k +
      one (decide (r.position = 0 ∧ r.artist = k.1 ∧
        v.track.fileAlbumArtistSortKey = k.2 ∧ k.2 ≠ [])) := by
  have hfirst := firstOf_append htrack hnew
  have hdisjoint : ¬ ((firstOf v.id v.listings = some k.1 ∧
      v.track.fileAlbumArtistSortKey = k.2 ∧ k.2 ≠ []) ∧
      r.position = 0 ∧ r.artist = k.1 ∧ v.track.fileAlbumArtistSortKey = k.2 ∧ k.2 ≠ []) := by
    rintro ⟨⟨hold, _⟩, hpos, _⟩
    obtain ⟨held, hheld, hzero⟩ := firstOf_eq_some hold
    exact hnew held hheld (hzero.trans hpos.symm)
  have hadded : one (decide (firstOf v.id (v.listings ++ [r]) = some k.1 ∧
      v.track.fileAlbumArtistSortKey = k.2 ∧ k.2 ≠ [])) = _ :=
    one_added (by rw [hfirst, or_and_right, and_assoc]) hdisjoint
  have hsum : (v.listing r).sorts k = one (decide (firstOf v.id v.credits = some k.1 ∧
      v.track.fileArtistSortKey = k.2)) + one (decide (firstOf v.id (v.listings ++ [r]) = some k.1 ∧
        v.track.fileAlbumArtistSortKey = k.2 ∧ k.2 ≠ [])) := rfl
  rw [hsum, hadded, sorts]
  omega

/-! ### A tag -/

/-- A tag counts once on the track's album. -/
theorem taggedOnAlbum_tag (hnew : s.tag ∉ v.tagIds) (k : Id × Id) :
    (v.tag s).taggedOnAlbum k =
      v.taggedOnAlbum k + one (decide (v.track.albumId = k.1 ∧ s.tag = k.2)) := by
  apply one_added
  · rw [mem_tagIds_tag]
    exact and_or_left
  · rintro ⟨⟨_, hold⟩, _, hk⟩
    exact hnew (hk ▸ hold)

/-- A tag counts once for each artist that the track credits. -/
theorem taggedByArtist_tag (hnew : s.tag ∉ v.tagIds) (k : Id × Id) :
    (v.tag s).taggedByArtist k =
      v.taggedByArtist k + one (decide (k.1 ∈ v.artists ∧ s.tag = k.2)) := by
  apply one_added
  · rw [mem_tagIds_tag]
    exact and_or_left
  · rintro ⟨⟨_, hold⟩, _, hk⟩
    exact hnew (hk ▸ hold)

theorem spellsTag_tag (k : Id × Text) :
    (v.tag s).spellsTag k =
      v.spellsTag k + one (decide (s.tag = k.1 ∧ s.name = k.2)) :=
  countP_append_one (fun held : TrackTag => decide (held.tag = k.1 ∧ held.name = k.2)) v.tags s

theorem tagged_tag (hnew : s.tag ∉ v.tagIds) (t : Id) :
    (v.tag s).tagged t = v.tagged t + one (decide (s.tag = t)) := by
  apply one_added mem_tagIds_tag
  rintro ⟨hold, hk⟩
  exact hnew (hk ▸ hold)

/-! ### The order of links -/

/-- Two filings of a track with the same links. -/
structure Same (v v' : Filed) : Prop where
  track : v.track = v'.track
  credits : v.credits.Perm v'.credits
  listings : v.listings.Perm v'.listings
  tags : v.tags.Perm v'.tags

/-- No two credits, or listings, of the track have one position. -/
structure Placed (v : Filed) : Prop where
  credits : (v.credits.map Credit.key).Nodup
  listings : (v.listings.map Credit.key).Nodup

theorem Same.mem_artists (h : v.Same v') {a : Id} : a ∈ v.artists ↔ a ∈ v'.artists :=
  (h.credits.map Credit.artist).mem_iff

theorem Same.mem_tagIds (h : v.Same v') {t : Id} : t ∈ v.tagIds ↔ t ∈ v'.tagIds :=
  (h.tags.map TrackTag.tag).mem_iff

/-- Which credit is first does not depend on the order of the rows, as no two have one position. -/
theorem firstOf_perm {track : Id} {credits credits' : List Credit} (h : credits.Perm credits')
    (hkeys : (credits.map Credit.key).Nodup) : firstOf track credits = firstOf track credits' := by
  have hkeys' : (credits'.map Credit.key).Nodup := (h.map Credit.key).nodup_iff.mp hkeys
  unfold firstOf
  congr 1
  apply Option.ext
  intro held
  rw [Keyed.find_eq_some hkeys, Keyed.find_eq_some hkeys', h.mem_iff]

/-- What a track counts for does not depend on the order of its links. -/
theorem Same.onAlbum (h : v.Same v') (k : Id × Id) : v.onAlbum k = v'.onAlbum k := by
  unfold Filed.onAlbum
  rw [h.track, one_congr (and_congr_right fun _ => h.mem_artists)]

theorem Same.taggedOnAlbum (h : v.Same v') (k : Id × Id) :
    v.taggedOnAlbum k = v'.taggedOnAlbum k := by
  unfold Filed.taggedOnAlbum
  rw [h.track, one_congr (and_congr_right fun _ => h.mem_tagIds)]

theorem Same.taggedByArtist (h : v.Same v') (k : Id × Id) :
    v.taggedByArtist k = v'.taggedByArtist k := by
  unfold Filed.taggedByArtist
  rw [one_congr (and_congr h.mem_artists h.mem_tagIds)]

theorem Same.spells (h : v.Same v') (k : Id × Text) : v.spells k = v'.spells k := by
  unfold Filed.spells
  rw [h.credits.countP_eq, h.listings.countP_eq]

theorem Same.sorts (h : v.Same v') (hplaced : v.Placed) (k : Id × SortKey) :
    v.sorts k = v'.sorts k := by
  unfold Filed.sorts Filed.id
  rw [h.track, firstOf_perm h.credits hplaced.credits, firstOf_perm h.listings hplaced.listings]

theorem Same.spellsTag (h : v.Same v') (k : Id × Text) : v.spellsTag k = v'.spellsTag k := by
  unfold Filed.spellsTag
  rw [h.tags.countP_eq]

theorem Same.byArtist (h : v.Same v') (a : Id) : v.byArtist a = v'.byArtist a := by
  unfold Filed.byArtist
  rw [one_congr h.mem_artists]

theorem Same.availableBy (h : v.Same v') (a : Id) : v.availableBy a = v'.availableBy a := by
  unfold Filed.availableBy
  rw [h.track, decide_eq_decide.mpr h.mem_artists]

theorem Same.tagged (h : v.Same v') (t : Id) : v.tagged t = v'.tagged t := by
  unfold Filed.tagged
  rw [one_congr h.mem_tagIds]

/-- A row taken from a table and put at its end. -/
theorem perm_without {α κ : Type} [DecidableEq κ] {key : α → κ} {xs : List α}
    (h : (xs.map key).Nodup) {x : α} (hx : x ∈ xs) :
    xs.Perm (Keyed.without key xs (key x) ++ [x]) := by
  induction xs with
  | nil => cases hx
  | cons y ys ih =>
    rw [List.map_cons, List.nodup_cons] at h
    rcases List.mem_cons.mp hx with rfl | hmem
    · have hrest : Keyed.without key (x :: ys) (key x) = ys := by
        rw [Keyed.without, List.filter_cons_of_neg (by simp)]
        apply List.filter_eq_self.mpr
        intro z hz
        exact decide_eq_true fun hkey => h.1 (hkey ▸ List.mem_map_of_mem hz)
      rw [hrest]
      exact (List.perm_append_singleton x ys).symm
    · have hne : key y ≠ key x := fun hkey => h.1 (hkey ▸ List.mem_map_of_mem hmem)
      rw [Keyed.without, List.filter_cons_of_pos (by simp [hne])]
      exact (ih h.2 hmem).cons y

end Filed

end JewelCase.Content
