import JewelCase.Page.Paging
import JewelCase.Tracks.Sorts

/-!
# A device's order as a keyset

A device's comparison is lexicographic on the columns of the server's keyset, except for what stands
in for a missing number: the greatest `u32`. So it is the keyset's order on tracks that have that
number instead of none.
-/
namespace JewelCase.Tracks

set_option autoImplicit false

open Page (Value Order ListSort Part keyOf)

/-! ### Comparisons -/

section Compare

variable {α : Type} [LT α] [DecidableLT α] [DecidableEq α]

theorem cmp_lt {a b : α} : cmp a b = .lt ↔ a < b := by
  unfold cmp compareOfLessAndEq
  by_cases h : a < b
  · simp [h]
  · by_cases he : a = b <;> simp [h, he]

variable [Std.Asymm (α := α) (· < ·)]

theorem cmp_self (a : α) : cmp a a = .eq := by
  unfold cmp compareOfLessAndEq
  rw [if_neg (fun h => Std.Asymm.asymm _ _ h h), if_pos rfl]

theorem cmp_eq {a b : α} : cmp a b = .eq ↔ a = b := by
  constructor
  · intro h
    unfold cmp compareOfLessAndEq at h
    by_cases hlt : a < b
    · simp [hlt] at h
    · by_contra he
      simp [hlt, he] at h
  · intro h
    rw [h, cmp_self]

end Compare

/-! ### Sort keys -/

/-- Lists compare as their images do, when their items do. -/
theorem map_lt_map {α β : Type} [LT α] [LT β] {f : α → β} (hf : ∀ a b, f a < f b ↔ a < b)
    (hinj : Function.Injective f) {l l' : List α} : l.map f < l'.map f ↔ l < l' := by
  induction l generalizing l' with
  | nil => cases l' <;> simp
  | cons a l ih =>
    cases l' with
    | nil => simp
    | cons a' l' => simp [List.cons_lt_cons_iff, hf, hinj.eq_iff, ih]

theorem blob_lt {a b : Key} : (Value.blob a).sortKey < (Value.blob b).sortKey ↔ a < b := by
  have hmap : a.map UInt8.toNat < b.map UInt8.toNat ↔ a < b :=
    map_lt_map (fun _ _ => UInt8.lt_iff_toNat_lt.symm) fun _ _ => UInt8.toNat.inj
  simp [Value.sortKey, Prod.Lex.toLex_lt_toLex, hmap]

theorem blob_eq {a b : Key} : (Value.blob a).sortKey = (Value.blob b).sortKey ↔ a = b := by
  have hinj : Function.Injective UInt8.toNat := fun _ _ => UInt8.toNat.inj
  simp [Value.sortKey, hinj.list_map.eq_iff]

theorem integer_lt {a b : Int} : (Value.integer a).sortKey < (Value.integer b).sortKey ↔ a < b := by
  simp only [Value.sortKey, Prod.Lex.toLex_lt_toLex, lt_self_iff_false, true_and, false_or,
    and_false, or_false, Rat.intCast_lt_intCast]

theorem integer_eq {a b : Int} : (Value.integer a).sortKey = (Value.integer b).sortKey ↔ a = b := by
  simp [Value.sortKey]

theorem text_lt {a b : String} : (Value.text a).sortKey < (Value.text b).sortKey ↔ a < b := by
  have hmap : a.toList.map Char.toNat < b.toList.map Char.toNat ↔ a.toList < b.toList :=
    map_lt_map (f := Char.toNat) (fun _ _ => Iff.rfl) fun _ _ => Char.toNat_inj.mp
  rw [String.lt_iff_toList_lt]
  simp [Value.sortKey, Prod.Lex.toLex_lt_toLex, hmap]

theorem text_eq {a b : String} : (Value.text a).sortKey = (Value.text b).sortKey ↔ a = b := by
  have hinj : Function.Injective Char.toNat := fun _ _ => Char.toNat_inj.mp
  simp [Value.sortKey, hinj.list_map.eq_iff, String.toList_inj]

theorem textOrNull_eq {a b : Option String} :
    (textOrNull a).sortKey = (textOrNull b).sortKey ↔ a = b := by
  cases a with
  | none => cases b <;> simp [textOrNull, Value.sortKey]
  | some a =>
    cases b with
    | none => simp [textOrNull, Value.sortKey]
    | some b => exact text_eq.trans (Option.some_inj).symm

/-- An ordering that says how two values compare. -/
structure Decides {α : Type} [LT α] (o : Ordering) (a b : α) : Prop where
  lt : o = .lt ↔ a < b
  eq : o = .eq ↔ a = b

section Decides

variable {α : Type} [LinearOrder α] {o p : Ordering} {a b : α} {as bs : List α}

theorem Decides.gt (h : Decides o a b) : o = .gt ↔ b < a := by
  have hlt := h.lt
  have heq := h.eq
  cases o with
  | lt =>
    have hab : a < b := hlt.mp rfl
    simpa using hab.le
  | eq =>
    have hab : a = b := heq.mp rfl
    simp [hab]
  | gt =>
    have hnot : ¬ a < b := fun hab => absurd (hlt.mpr hab) (by decide)
    have hne : a ≠ b := fun hab => absurd (heq.mpr hab) (by decide)
    simpa using lt_of_le_of_ne (not_lt.mp hnot) hne.symm

theorem Decides.nil : Decides .eq ([] : List α) [] := ⟨by simp, by simp⟩

theorem Decides.cons (h : Decides o a b) (ht : Decides p as bs) :
    Decides (o.then p) (a :: as) (b :: bs) := by
  constructor
  · rw [Ordering.then_eq_lt, h.lt, h.eq, ht.lt, List.cons_lt_cons_iff]
  · rw [Ordering.then_eq_eq, h.eq, ht.eq, List.cons.injEq]

theorem Decides.last (h : Decides o a b) : Decides o [a] [b] := by
  have hc := h.cons (@Decides.nil α _)
  rwa [Ordering.then_eq] at hc

/-- An ordering says whether one value is after another in a direction. -/
theorem Decides.order (h : Decides o a b) (order : Order) :
    (if decide (order = .desc) then o.swap else o) = .gt ↔ order.Lt b a := by
  cases order with
  | asc => exact h.gt
  | desc =>
    have hs : o.swap = .gt ↔ o = .lt := by cases o <;> simp
    exact hs.trans h.lt

end Decides

theorem decides_key (a b : Key) :
    Decides (cmp a b) (Value.blob a).sortKey (Value.blob b).sortKey :=
  ⟨cmp_lt.trans blob_lt.symm, cmp_eq.trans blob_eq.symm⟩

theorem decides_nat {a b : Nat} {i j : Int} (ha : (a : Int) = i) (hb : (b : Int) = j) :
    Decides (cmp a b) (Value.integer i).sortKey (Value.integer j).sortKey := by
  subst ha
  subst hb
  constructor
  · rw [cmp_lt, integer_lt, Int.ofNat_lt]
  · rw [cmp_eq, integer_eq, Int.natCast_inj]

theorem decides_text (a b : Option String) :
    Decides (cmpOption a b) (textOrNull a).sortKey (textOrNull b).sortKey := by
  cases a with
  | none =>
    cases b <;> constructor <;>
      simp [cmpOption, textOrNull, Value.sortKey, Prod.Lex.toLex_lt_toLex]
  | some a =>
    cases b with
    | none =>
      constructor <;>
        simp [cmpOption, textOrNull, Value.sortKey, Prod.Lex.toLex_le_toLex]
    | some b => exact ⟨cmp_lt.trans text_lt.symm, cmp_eq.trans text_eq.symm⟩

/-! ### The keys of a track -/

theorem castUnsigned_eq {i : Int} (h : 0 ≤ i ∧ i < 2 ^ 63) : (castUnsigned i : Int) = i := by
  unfold castUnsigned
  omega

theorem Track.id_key (track : Track) : (track.sortKeys.id : Int) = track.id :=
  castUnsigned_eq ⟨by have := track.id_range; omega, track.id_range.2⟩

theorem Track.albumId_key (track : Track) : (track.sortKeys.albumId : Int) = track.albumId :=
  castUnsigned_eq ⟨by have := track.albumId_range; omega, track.albumId_range.2⟩

theorem Track.duration_key (track : Track) :
    (track.sortKeys.durationUs : Int) = track.durationUs :=
  castUnsigned_eq track.duration_range

theorem Track.disc_key (track : Track) :
    ((track.sortKeys.disc.getD 0 : Nat) : Int) = track.discNumber := by
  have h := track.disc_range
  unfold Track.sortKeys toU32
  by_cases h0 : track.discNumber = 0
  · simp [h0]
  · simp only [if_neg h0, if_pos h, Option.getD_some]
    omega

/-- The track as a device sorts it: without a number it is numbered by the greatest `u32`. -/
def Track.numbered (track : Track) : Track :=
  { track with
    trackNumber := some (track.trackNumber.getD 4294967295)
    number_range := by
      intro n hn
      obtain rfl := Option.some.inj hn
      cases hnum : track.trackNumber with
      | none => decide
      | some m => exact track.number_range m hnum }

theorem Track.number_key (track : Track) :
    ((track.sortKeys.number.getD 4294967295 : Nat) : Int) =
      track.numbered.trackNumber.getD 9223372036854775807 := by
  have h := track.number_range
  change (((track.trackNumber.bind toU32).getD 4294967295 : Nat) : Int) =
    track.trackNumber.getD 4294967295
  cases hnum : track.trackNumber with
  | none => rfl
  | some n =>
    have hn := h n hnum
    simp only [Option.bind_some, toU32, if_pos hn, Option.getD_some]
    omega

/-! ### A device's order as a keyset -/

theorem decides_id (x y : Track) :
    Decides (cmp x.sortKeys.id y.sortKeys.id) (Value.integer x.id).sortKey
      (Value.integer y.id).sortKey :=
  decides_nat x.id_key y.id_key

theorem then_assoc (o p q : Ordering) : (o.then p).then q = o.then (p.then q) := by
  cases o <;> rfl

/-- Within an album: by its ID, disc, number and track ID. -/
theorem decides_within (x y : Track) :
    Decides ((cmp x.sortKeys.albumId y.sortKeys.albumId).then
        ((cmp (x.sortKeys.disc.getD 0) (y.sortKeys.disc.getD 0)).then
          ((cmp (x.sortKeys.number.getD 4294967295) (y.sortKeys.number.getD 4294967295)).then
            (cmp x.sortKeys.id y.sortKeys.id))))
      (keyOf (TrackSort.sort .album).rest x.numbered)
      (keyOf (TrackSort.sort .album).rest y.numbered) :=
  (decides_nat x.albumId_key y.albumId_key).cons <|
    (decides_nat x.disc_key y.disc_key).cons <|
      (decides_nat x.number_key y.number_key).cons (decides_id x y).last

theorem decides_album (x y : Track) :
    Decides (x.sortKeys.albumOrder y.sortKeys) (keyOf (TrackSort.sort .album).columns x.numbered)
      (keyOf (TrackSort.sort .album).columns y.numbered) := by
  rw [SortRow.albumOrder, then_assoc, then_assoc, then_assoc]
  exact (decides_key _ _).cons (decides_within x y)

/-- The sorts that both define. -/
theorem same_name {sort : TrackSort} {field : SortField} (h : sort.label = field.name) :
    (sort, field) ∈ [(.name, .title), (.artist, .artist), (.album, .album), (.releaseDate, .year),
      ((.duration, .duration) : TrackSort × SortField)] := by
  revert h
  cases sort <;> cases field <;> decide

variable {sort : TrackSort} {field : SortField} {order : Order}

/-- A row has no value for a field when its track is in the keyset's unknown part. -/
theorem unknown_iff (h : sort.label = field.name) (x : Track) :
    x.sortKeys.unknown field = true ↔ sort.sort.part x.numbered = .unknown := by
  have hs := same_name h
  simp only [List.mem_cons, Prod.mk.injEq, List.not_mem_nil, or_false] at hs
  have hkey : ∀ key : Key, key.isEmpty = true ↔ Value.blob key = .blob [] := by
    intro key
    rw [List.isEmpty_iff, Value.blob.injEq]
  obtain ⟨rfl, rfl⟩ | ⟨rfl, rfl⟩ | ⟨rfl, rfl⟩ | ⟨rfl, rfl⟩ | ⟨rfl, rfl⟩ := hs
  · exact (hkey _).trans (Page.partOf_empty rfl _).symm
  · exact (hkey _).trans (Page.partOf_empty rfl _).symm
  · exact (hkey _).trans (Page.partOf_empty rfl _).symm
  · refine Iff.trans ?_ (Page.partOf_null rfl _).symm
    change x.releaseDate.isNone = true ↔ textOrNull x.releaseDate = .null
    cases x.releaseDate <;> simp [textOrNull]
  · rw [ListSort.part, Page.partOf_never rfl]
    simp [SortRow.unknown]

/-- Two rows with no value for a field do not differ in it. -/
theorem lead_unknown {a b : SortRow} (ha : a.unknown field = true) (hb : b.unknown field = true) :
    a.lead b field = .eq := by
  cases field with
  | title =>
    rw [SortRow.lead, List.isEmpty_iff.mp ha, List.isEmpty_iff.mp hb, cmp_self]
  | artist =>
    rw [SortRow.lead, List.isEmpty_iff.mp ha, List.isEmpty_iff.mp hb, cmp_self]
  | album =>
    rw [SortRow.lead, List.isEmpty_iff.mp ha, List.isEmpty_iff.mp hb, cmp_self]
  | year =>
    rw [SortRow.lead, Option.isNone_iff_eq_none.mp ha, Option.isNone_iff_eq_none.mp hb]
    rfl
  | added => cases ha
  | duration => cases ha

theorem decides_known (h : sort.label = field.name) (x y : Track) :
    Decides ((x.sortKeys.lead y.sortKeys field).then (x.sortKeys.rest y.sortKeys field))
      (keyOf sort.sort.columns x.numbered) (keyOf sort.sort.columns y.numbered) := by
  have hs := same_name h
  simp only [List.mem_cons, Prod.mk.injEq, List.not_mem_nil, or_false] at hs
  obtain ⟨rfl, rfl⟩ | ⟨rfl, rfl⟩ | ⟨rfl, rfl⟩ | ⟨rfl, rfl⟩ | ⟨rfl, rfl⟩ := hs
  · exact (decides_key _ _).cons (decides_id x y).last
  · exact (decides_key _ _).cons ((decides_key _ _).cons (decides_id x y).last)
  · -- the album's key is compared twice
    have hself : (x.sortKeys.lead y.sortKeys .album).then (x.sortKeys.rest y.sortKeys .album) =
        x.sortKeys.albumOrder y.sortKeys := by
      rw [SortRow.lead, SortRow.rest, SortRow.albumOrder, then_assoc, then_assoc, then_assoc]
      cases cmp x.sortKeys.albumKey y.sortKeys.albumKey <;> rfl
    rw [hself]
    exact decides_album x y
  · exact (decides_text _ _).cons (decides_album x y)
  · exact (decides_nat x.duration_key y.duration_key).cons (decides_id x y).last

theorem decides_unknown (h : sort.label = field.name) {x y : Track}
    (hx : x.sortKeys.unknown field = true) (hy : y.sortKeys.unknown field = true) :
    Decides ((x.sortKeys.lead y.sortKeys field).then (x.sortKeys.rest y.sortKeys field))
      (keyOf sort.sort.rest x.numbered) (keyOf sort.sort.rest y.numbered) := by
  have hlead := lead_unknown hx hy
  rw [hlead]
  have hs := same_name h
  simp only [List.mem_cons, Prod.mk.injEq, List.not_mem_nil, or_false] at hs
  obtain ⟨rfl, rfl⟩ | ⟨rfl, rfl⟩ | ⟨rfl, rfl⟩ | ⟨rfl, rfl⟩ | ⟨rfl, rfl⟩ := hs
  · exact (decides_id x y).last
  · exact (decides_key _ _).cons (decides_id x y).last
  · rw [SortRow.rest, SortRow.albumOrder, then_assoc, then_assoc, then_assoc]
    rw [SortRow.lead] at hlead
    rw [hlead]
    exact decides_within x y
  · exact decides_album x y
  · cases hx

/-- Two rows of one part compare as the keyset's columns of the part do. -/
theorem decides_part (h : sort.label = field.name) {part : Part} {x y : Track}
    (hx : sort.sort.part x.numbered = part) (hy : sort.sort.part y.numbered = part) :
    Decides ((x.sortKeys.lead y.sortKeys field).then (x.sortKeys.rest y.sortKeys field))
      (keyOf (sort.sort.columnsOf part) x.numbered)
      (keyOf (sort.sort.columnsOf part) y.numbered) := by
  cases part with
  | known => exact decides_known h x y
  | unknown => exact decides_unknown h ((unknown_iff h x).mpr hx) ((unknown_iff h y).mpr hy)

/-- Every keyset ends with the track's ID. -/
theorem id_column (sort : TrackSort) (part : Part) {x y : Track}
    (h : keyOf (sort.sort.columnsOf part) x = keyOf (sort.sort.columnsOf part) y) : x.id = y.id := by
  have hmem : (fun t : Track => Value.integer t.id) ∈ sort.sort.columnsOf part := by
    cases sort <;> cases part <;>
      simp [TrackSort.sort, ListSort.columnsOf, ListSort.columns]
  exact integer_eq.1 (List.map_inj_left.mp h _ hmem)

/-- **A device's comparison is the keyset's on the numbered tracks.** -/
theorem compareAt_gt (h : sort.label = field.name) (order : Order) {x y : Track}
    (hne : x.id ≠ y.id) (i j : Nat) :
    compareAt field (decide (order = .desc)) (x.sortKeys, i) (y.sortKeys, j) = .gt ↔
      sort.sort.Before order y.numbered x.numbered := by
  have hux := unknown_iff h x
  have huy := unknown_iff h y
  unfold compareAt
  by_cases hu : x.sortKeys.unknown field = y.sortKeys.unknown field
  · have hpart : sort.sort.part x.numbered = sort.sort.part y.numbered := by
      rw [hu, huy] at hux
      cases hx : sort.sort.part x.numbered <;> cases hy : sort.sort.part y.numbered <;>
        simp [hx, hy] at hux ⊢
    have hd := decides_part h hpart rfl
    have hdiff : (x.sortKeys.lead y.sortKeys field).then (x.sortKeys.rest y.sortKeys field) ≠
        .eq := fun he => hne (@id_column sort _ x.numbered y.numbered (hd.eq.mp he))
    rw [Page.before_same rfl hpart, ListSort.Lt, ← hd.order order]
    simp only [hu, ne_eq, not_true_eq_false, if_false]
    generalize (x.sortKeys.lead y.sortKeys field).then (x.sortKeys.rest y.sortKeys field) = o at *
    cases o with
    | lt => cases decide (order = .desc) <;> simp
    | eq => exact absurd rfl hdiff
    | gt => cases decide (order = .desc) <;> simp
  · simp only [ne_eq, hu, not_false_iff, if_true]
    unfold ListSort.Before
    cases hx : sort.sort.part x.numbered <;> cases hy : sort.sort.part y.numbered <;>
      simp [hx, hy] at hux huy ⊢
    · exact absurd (hux.trans huy.symm) hu
    · rw [hux, huy]
      decide
    · rw [hux, huy]
      decide
    · exact absurd (hux.trans huy.symm) hu

/-! ### The sorted list -/

/-- The tracks in a device's order. -/
def heldOrder (sort : TrackSort) (order : Order) (tracks : List Track) : List Track :=
  tracks.insertionSort fun a b => ¬ sort.sort.Before order b.numbered a.numbered

/-- The tracks a device sorts, with their positions, in its order. -/
def placed (field : SortField) (order : Order) (tracks : List Track) : List (Track × Nat) :=
  tracks.zipIdx.insertionSort fun a b =>
    compareAt field (decide (order = .desc)) (a.1.sortKeys, a.2) (b.1.sortKeys, b.2) ≠ .gt

theorem compareAt_self (field : SortField) (descending : Bool) (a : SortRow × Nat) :
    compareAt field descending a a ≠ .gt := by
  have hlead : a.1.lead a.1 field = .eq := by
    cases field with
    | year => cases hd : a.1.releaseDate <;> simp [SortRow.lead, cmpOption, hd, cmp_self]
    | _ => exact cmp_self _
  have hrest : a.1.rest a.1 field = .eq := by
    cases field <;> simp [SortRow.rest, SortRow.albumOrder, cmp_self]
  cases descending <;> simp [compareAt, hlead, hrest, cmp_self]

variable {tracks : List Track}

/-- Two positions of one track are the same. -/
theorem position_unique (hd : (tracks.map Track.id).Nodup) {a b : Track × Nat}
    (ha : a ∈ tracks.zipIdx) (hb : b ∈ tracks.zipIdx) (he : a.1.id = b.1.id) : a = b := by
  rw [List.mem_zipIdx_iff_getElem?] at ha hb
  have hlt : ∀ {c : Track × Nat}, tracks[c.2]? = some c.1 →
      (tracks.map Track.id)[c.2]? = some c.1.id := by
    intro c hc
    rw [List.getElem?_map, hc]
    rfl
  have hpos : a.2 = b.2 := by
    refine (List.getElem?_inj ?_ hd).mp ?_
    · exact (List.getElem?_eq_some_iff.mp (hlt ha)).1
    · rw [hlt ha, hlt hb, he]
  refine Prod.ext ?_ hpos
  rw [hpos, hb] at ha
  exact (Option.some.inj ha).symm

theorem placed_held (h : sort.label = field.name) (hd : (tracks.map Track.id).Nodup) :
    (placed field order tracks).map Prod.fst = heldOrder sort order tracks := by
  have hfst := List.zipIdx_map_fst 0 tracks
  conv_rhs => rw [heldOrder, ← hfst]
  apply List.map_insertionSort
  intro a ha b hb
  by_cases hid : a.1.id = b.1.id
  · obtain rfl := position_unique hd ha hb hid
    refine iff_of_true (compareAt_self _ _ _) ?_
    intro hbefore
    exact sort.sort.before_asymm _ _ hbefore hbefore
  · exact not_congr (compareAt_gt h order hid a.2 b.2)

theorem sortRows_eq :
    sortRows (tracks.map Track.sortKeys) field (decide (order = .desc)) =
      (placed field order tracks).map Prod.snd := by
  have hsnd : (placed field order tracks).map Prod.snd =
      ((placed field order tracks).map (Prod.map Track.sortKeys id)).map Prod.snd := by
    rw [List.map_map]
    rfl
  rw [sortRows, hsnd, List.zipIdx_map]
  congr 1
  refine (List.map_insertionSort _ _ _ _ ?_).symm
  intro a _ b _
  exact Iff.rfl

/-- **A device gives the IDs of its tracks in the keyset's order of the numbered tracks.** -/
theorem sortedIds_eq (h : sort.label = field.name) (hd : (tracks.map Track.id).Nodup) :
    sortedIds (tracks.map Track.sortKeys) field (decide (order = .desc)) =
      (heldOrder sort order tracks).map fun track => track.sortKeys.id := by
  have hids : ((placed field order tracks).map Prod.fst).map (fun track => track.sortKeys.id) =
      (placed field order tracks).filterMap fun a => some a.1.sortKeys.id := by
    rw [List.map_map, List.filterMap_eq_map']
    rfl
  rw [sortedIds, sortRows_eq, ← placed_held h hd, hids, List.filterMap_map]
  apply List.filterMap_congr
  intro a ha
  have hmem : a ∈ tracks.zipIdx := (List.perm_insertionSort _ _).mem_iff.mp ha
  rw [List.mem_zipIdx_iff_getElem?] at hmem
  simp [hmem]

end JewelCase.Tracks
