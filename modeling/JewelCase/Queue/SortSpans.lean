import JewelCase.Queue.BaseRows
import JewelCase.Queue.NaturalOrder

/-!
# The sweep of an unshuffle

What the one sweep over the context sorts out, row by row: the rows before the first shuffle row
and the additions passed after it, each at its row, and the additions ahead with the base row
each is put before; and what weaving those among the base rows gives.
-/
namespace JewelCase.Queue

set_option autoImplicit false

open Library (Stretch)
open Library.Lists
open Library.Buckets

/-! ### Base rows but for some -/

/-- Base row `b`, unless it is left out. -/
def baseRow (base : SpanList) (leftOut : List Nat) (b : Nat) : List Row :=
  if b ∈ leftOut then [] else base.rows[b]?.toList

theorem rows_slice_range (base : SpanList) (first stop : Nat) :
    rowsOf (base.slice first stop) =
      (List.range' first (stop - first)).flatMap fun b => base.rows[b]?.toList := by
  rw [SpanList.rows_slice]
  generalize base.rows = xs
  obtain ⟨n, hn⟩ : ∃ n, stop - first = n := ⟨_, rfl⟩
  induction n generalizing first with
  | zero =>
    rw [hn, List.drop_of_length_le (by rw [List.length_take]; omega)]
    rfl
  | succ n ih =>
    rw [hn, List.range'_succ, List.flatMap_cons]
    have := ih (first + 1) (by omega)
    rw [show stop - (first + 1) = n by omega] at this
    rw [← this]
    by_cases hlt : first < (xs.take stop).length
    · rw [List.drop_eq_getElem_cons hlt]
      rw [List.length_take] at hlt
      rw [List.getElem_take, List.getElem?_eq_getElem (by omega)]
      rfl
    · rw [List.length_take] at hlt
      rw [List.drop_of_length_le (by rw [List.length_take]; omega),
        List.drop_of_length_le (by rw [List.length_take]; omega),
        List.getElem?_eq_none (by omega)]
      rfl

theorem rows_withoutFrom (base : SpanList) (stop : Nat) {rows : List Nat} {first : Nat}
    (hs : rows.Pairwise (· ≤ ·)) (hr : ∀ r ∈ rows, first ≤ r + 1) :
    rowsOf (withoutFrom base stop rows first) =
      (List.range' first (stop - first)).flatMap (baseRow base rows) := by
  induction rows generalizing first with
  | nil =>
    rw [withoutFrom, rows_slice_range]
    rfl
  | cons row rows ih =>
    rw [List.pairwise_cons] at hs
    have hfirst := hr row (by simp)
    rw [withoutFrom]
    by_cases hstop : row ≥ stop
    · rw [if_pos hstop, rows_slice_range]
      refine List.flatMap_congr fun b hb => ?_
      rw [List.mem_range'_1] at hb
      rw [baseRow, if_neg]
      intro hm
      rcases List.mem_cons.mp hm with rfl | hm
      · omega
      · have := hs.1 b hm
        omega
    · rw [if_neg hstop, rowsOf_append, ih hs.2 (fun r hm => by have := hs.1 r hm; omega),
        rows_slice_range]
      have hlater : (List.range' (row + 1) (stop - (row + 1))).flatMap (baseRow base rows) =
          (List.range' (row + 1) (stop - (row + 1))).flatMap (baseRow base (row :: rows)) := by
        refine List.flatMap_congr fun b hb => ?_
        rw [List.mem_range'_1] at hb
        have hne : b ≠ row := by omega
        simp [baseRow, hne]
      rw [hlater]
      by_cases hlt : first ≤ row
      · rw [@range'_split first (stop - first) row hlt (by omega), List.flatMap_append,
          List.flatMap_cons, show first + (stop - first) - (row + 1) = stop - (row + 1) by omega]
        have hrow : baseRow base (row :: rows) row = [] := if_pos (by simp)
        rw [hrow, List.nil_append]
        congr 1
        refine List.flatMap_congr fun b hb => ?_
        rw [List.mem_range'_1] at hb
        rw [baseRow, if_neg]
        intro hm
        rcases List.mem_cons.mp hm with rfl | hm
        · omega
        · have := hs.1 b hm
          omega
      · rw [show row - first = 0 by omega, show row + 1 = first by omega]
        rfl

/-- **Base rows but for those left out.** -/
theorem rows_baseWithout (base : SpanList) {leftOut : List Nat} (hs : leftOut.Pairwise (· ≤ ·))
    (first stop : Nat) : rowsOf (baseWithout base leftOut first stop) =
      (List.range' first (stop - first)).flatMap (baseRow base leftOut) := by
  have hdrop : leftOut.drop (partitionPoint (fun r => decide (r < first)) leftOut) =
      leftOut.filter fun r => decide (first ≤ r) := by
    rw [drop_partitionPoint, dropWhile_lt_eq_filter hs]
  rw [baseWithout, hdrop, rows_withoutFrom base stop (hs.filter _)]
  · refine List.flatMap_congr fun b hb => ?_
    rw [List.mem_range'_1] at hb
    have hle : first ≤ b := hb.1
    simp [baseRow, hle]
  · intro r hr
    have := of_decide_eq_true (List.mem_filter.mp hr).2
    omega

/-! ### Weaving -/

/-- **Weaving** puts each anchored span just before the base row it is anchored at. -/
theorem rows_weave (base : SpanList) {leftOut : List Nat} (hl : leftOut.Pairwise (· ≤ ·))
    {anchored : List (Nat × Span)} (hs : anchored.Pairwise fun a b => a.1 ≤ b.1) {first : Nat}
    (ha : ∀ a ∈ anchored, first ≤ a.1 ∧ a.1 ≤ base.len) (hf : first ≤ base.len) :
    rowsOf (weave base leftOut first anchored) =
      (List.range' first (base.len + 1 - first)).flatMap fun b =>
        rowsOf ((bucket (·.1) anchored b).map (·.2)) ++ baseRow base leftOut b := by
  induction anchored generalizing first with
  | nil =>
    rw [weave, rows_baseWithout base hl,
      show base.len + 1 - first = base.len - first + 1 by omega, List.range'_concat,
      List.flatMap_append, List.flatMap_singleton]
    have hlast : baseRow base leftOut (first + 1 * (base.len - first)) = [] := by
      rw [show first + 1 * (base.len - first) = base.len by omega, baseRow,
        List.getElem?_eq_none (by rw [SpanList.len_eq])]
      simp
    rw [hlast]
    simp [bucket]
  | cons a anchored ih =>
    obtain ⟨anchor, span⟩ := a
    rw [List.pairwise_cons] at hs
    obtain ⟨hlo, hhi⟩ := ha (anchor, span) (by simp)
    simp only at hlo hhi
    rw [weave, rowsOf_append, rowsOf_cons, rows_baseWithout base hl,
      ih hs.2 (fun a hm => ⟨hs.1 a hm, (ha a (List.mem_cons_of_mem _ hm)).2⟩) hhi]
    rw [@range'_split first (base.len + 1 - first) anchor hlo (by omega), List.flatMap_append,
      List.flatMap_cons, show first + (base.len + 1 - first) - (anchor + 1) =
        base.len - anchor by omega,
      show base.len + 1 - anchor = base.len - anchor + 1 by omega, List.range'_succ,
      List.flatMap_cons]
    have hbefore : (List.range' first (anchor - first)).flatMap (fun b =>
        rowsOf ((bucket (·.1) ((anchor, span) :: anchored) b).map (·.2)) ++ baseRow base leftOut b) =
        (List.range' first (anchor - first)).flatMap (baseRow base leftOut) := by
      refine List.flatMap_congr fun b hb => ?_
      rw [List.mem_range'_1] at hb
      rw [bucket_eq_nil]
      · rfl
      · intro x hx
        rcases List.mem_cons.mp hx with rfl | hx
        · simp only
          omega
        · have := hs.1 x hx
          simp only at this
          omega
    have hafter : (List.range' (anchor + 1) (base.len - anchor)).flatMap (fun b =>
        rowsOf ((bucket (·.1) ((anchor, span) :: anchored) b).map (·.2)) ++ baseRow base leftOut b) =
        (List.range' (anchor + 1) (base.len - anchor)).flatMap (fun b =>
          rowsOf ((bucket (·.1) anchored b).map (·.2)) ++ baseRow base leftOut b) := by
      refine List.flatMap_congr fun b hb => ?_
      rw [List.mem_range'_1] at hb
      have hne : anchor ≠ b := by omega
      simp [bucket, hne]
    have hat : bucket (·.1) ((anchor, span) :: anchored) anchor =
        (anchor, span) :: bucket (·.1) anchored anchor := by simp [bucket]
    rw [hbefore, hafter, hat, List.map_cons, rowsOf_cons]
    simp only [List.append_assoc]

/-! ### Sorting the spans -/

/-- The place a context row is. -/
def placeOf (seed : UInt32) (m : Nat) : Row → Place
  | (.key key, pos) => .added ⟨key, pos⟩
  | (.shuffle, pos) => .base (permute seed m pos)

/-- Whether a row reads a list or a copy. -/
def isKey (r : Row) : Bool := decide (r.1 ≠ .shuffle)

theorem isAdded_placeOf (seed : UInt32) (m : Nat) (r : Row) :
    Shuffled.isAdded (placeOf seed m r) = isKey r := by
  obtain ⟨v, p⟩ := r
  cases v <;> rfl

/-- The rows of spans put at rows of the context, each with its row. -/
def indexed (entries : List (Nat × Span)) : List (Row × Nat) :=
  entries.flatMap fun e => (Stretch.rows e.2).zipIdx e.1

/-- The base row an entry ahead reads first. -/
def Ahead.base? : Ahead → Option Nat
  | .base b => some b
  | .row _ _ => none

/-- The additions among entries ahead, each with its anchor. -/
def aheadAdds (split : Nat) : List Ahead → List (Option Nat × Span)
  | [] => []
  | .base _ :: entries => aheadAdds split entries
  | .row span head :: entries =>
    (if head then some split else (entries.filterMap Ahead.base?).head?.map (max · split), span) ::
      aheadAdds split entries

/-- The items of spans with their anchors. -/
def addedItems (adds : List (Option Nat × Span)) : List (Option Nat × ItemId) :=
  adds.flatMap fun a => ((Stretch.rows a.2).filterMap keyItem).map (a.1, ·)

/-- Rows of list spans, as places. -/
theorem places_key (seed : UInt32) (m : Nat) {rows : List Row} (hk : KeyRows rows) :
    rows.map (placeOf seed m) = (rows.filterMap keyItem).map .added := by
  conv_lhs => rw [← hk.rows_eq]
  rw [List.map_map]
  rfl

theorem anchors_added (split : Nat) (seen : Bool) (items : List ItemId) (places : List Place) :
    Shuffled.anchors split seen (items.map .added ++ places) =
      items.map (fun it => (if seen then (places.filterMap Place.base?).head?.map (max · split)
        else some split, it)) ++ Shuffled.anchors split seen places := by
  induction items with
  | nil => rfl
  | cons it items ih =>
    have hnone : ((items.map Place.added ++ places).filterMap Place.base?) =
        places.filterMap Place.base? := by
      rw [List.filterMap_append, List.filterMap_map, List.filterMap_eq_nil_iff.mpr]
      · rfl
      · intro it _
        rfl
    rw [List.map_cons, List.cons_append, Shuffled.anchors, ih, hnone]
    rfl

theorem anchors_base (split : Nat) (seen : Bool) (bs : List Nat) (places : List Place) :
    Shuffled.anchors split seen (bs.map .base ++ places) =
      Shuffled.anchors split (seen || !bs.isEmpty) places := by
  induction bs generalizing seen with
  | nil => simp
  | cons b bs ih =>
    rw [List.map_cons, List.cons_append, Shuffled.anchors, ih]
    simp

/-- What a sweep over spans sorts out. -/
structure SortedOk (seed : UInt32) (m split cursor : Nat) (rows : List Row) (row : Nat)
    (seen : Bool) (sorted : Sorted) : Prop where
  head : rowsOf (sorted.head.map (·.2)) =
    if seen then [] else (rows.take (cursor - row)).takeWhile isKey
  passed : indexed sorted.passed =
    (((rows.take (cursor - row)).zipIdx row).dropWhile (fun r => !seen && isKey r.1)).filter
      (isKey ·.1)
  passed_pos : ∀ e ∈ sorted.passed, 0 < e.2.len
  first : (sorted.ahead.filterMap Ahead.base?).head? =
    (((rows.drop (cursor - row)).map (placeOf seed m)).filterMap Place.base?).head?
  ahead : addedItems (aheadAdds split sorted.ahead) =
    Shuffled.anchors split (seen || (rows.take (cursor - row)).any (!isKey ·))
      ((rows.drop (cursor - row)).map (placeOf seed m))

/-- The rows of a span before the cursor and from it on. -/
theorem rows_cut_at (span : Span) (row cursor : Nat) :
    (Stretch.rows span).take (cursor - row) =
        Stretch.rows (⟨span.view, span.start + row - row,
          max row (min cursor (row + span.len)) - row⟩ : Span) ∧
      (Stretch.rows span).drop (cursor - row) =
        Stretch.rows (⟨span.view, span.start + max row (min cursor (row + span.len)) - row,
          row + span.len - max row (min cursor (row + span.len))⟩ : Span) := by
  have hcut := @Span.rows_cut span (min (cursor - row) span.len) (by omega)
  have htake : (Stretch.rows span).take (cursor - row) =
      (Stretch.rows span).take (min (cursor - row) span.len) := by
    by_cases hle : cursor - row ≤ span.len
    · rw [Nat.min_eq_left hle]
    · rw [Nat.min_eq_right (by omega), List.take_of_length_le (by simp; omega),
        List.take_of_length_le (by simp)]
  have hdrop : (Stretch.rows span).drop (cursor - row) =
      (Stretch.rows span).drop (min (cursor - row) span.len) := by
    by_cases hle : cursor - row ≤ span.len
    · rw [Nat.min_eq_left hle]
    · rw [Nat.min_eq_right (by omega), List.drop_of_length_le (by simp; omega),
        List.drop_of_length_le (by simp)]
  rw [htake, hdrop, hcut, List.take_left' (by simp), List.drop_left' (by simp)]
  refine ⟨?_, ?_⟩ <;> congr 2 <;> omega

/-- Rows of a span and those after it, up to the cursor: those after count only once the whole
span is passed. -/
theorem take_rows_append (span : Span) (rows : List Row) (row cursor : Nat) :
    (Stretch.rows span ++ rows).take (cursor - row) =
      (Stretch.rows span).take (cursor - row) ++ rows.take (cursor - (row + span.len)) := by
  rw [List.take_append, Stretch.length_rows, Span.len_eq, Nat.sub_sub]

theorem drop_rows_append (span : Span) (rows : List Row) (row cursor : Nat) :
    (Stretch.rows span ++ rows).drop (cursor - row) =
      (Stretch.rows span).drop (cursor - row) ++ rows.drop (cursor - (row + span.len)) := by
  rw [List.drop_append, Stretch.length_rows, Span.len_eq, Nat.sub_sub]

theorem zipIdx_rows_append (span : Span) (rows : List Row) (row cursor : Nat) :
    ((Stretch.rows span).take (cursor - row) ++ rows.take (cursor - (row + span.len))).zipIdx row =
      ((Stretch.rows span).take (cursor - row)).zipIdx row ++
        (rows.take (cursor - (row + span.len))).zipIdx (row + span.len) := by
  rw [List.zipIdx_append]
  by_cases hc : cursor ≤ row + span.len
  · rw [Nat.sub_eq_zero_of_le hc, List.take_zero, List.zipIdx_nil, List.zipIdx_nil]
  · rw [List.length_take, Stretch.length_rows, Span.len_eq, Nat.min_eq_right (by omega)]

section

variable {seed : UInt32} {m split cursor row : Nat} {seen : Bool} {rows : List Row}

/-- A shuffle span, and what the spans after it sort into. -/
theorem SortedOk.shuffle {span : Span} (hv : span.view = .shuffle) (hlen : 0 < span.len)
    {rest : Sorted} (h : SortedOk seed m split cursor rows (row + span.len) true rest) :
    SortedOk seed m split cursor (Stretch.rows span ++ rows) row seen
      (if row + span.len > cursor then
        { rest with
          ahead := .base (permute seed m (span.start + max cursor row - row)) :: rest.ahead }
      else rest) := by
  have hnot : ∀ r ∈ Stretch.rows span, isKey r = false := by
    intro r hr
    rw [Span.rows_eq] at hr
    obtain ⟨p, -, rfl⟩ := List.mem_map.mp hr
    simp [isKey, hv]
  have htake : ∀ r ∈ (Stretch.rows span).take (cursor - row), isKey r = false :=
    fun r hr => hnot r (List.mem_of_mem_take hr)
  have hbases : ((Stretch.rows span).drop (cursor - row)).map (placeOf seed m) =
      (((Stretch.rows span).drop (cursor - row)).map fun r => permute seed m r.2).map .base := by
    rw [List.map_map]
    refine List.map_congr_left fun r hr => ?_
    have hr' := List.mem_of_mem_drop hr
    rw [Span.rows_eq] at hr'
    obtain ⟨p, -, rfl⟩ := List.mem_map.mp hr'
    rw [hv]
    rfl
  have hcons : cursor ≤ row ∨ ∃ r rs, (Stretch.rows span).take (cursor - row) = r :: rs ∧
      isKey r = false := by
    by_cases hc : cursor ≤ row
    · exact Or.inl hc
    · right
      cases ht : (Stretch.rows span).take (cursor - row) with
      | nil =>
        rw [List.take_eq_nil_iff, ← List.length_eq_zero_iff, Stretch.length_rows,
          Span.len_eq] at ht
        omega
      | cons r rs => exact ⟨r, rs, rfl, htake r (by rw [ht]; simp)⟩
  obtain ⟨h1, h2, hp, h3, h4⟩ := h
  simp only [Bool.not_true, Bool.false_and, Bool.true_or, if_true] at h1 h2 h4
  have hidx : (((Stretch.rows span).take (cursor - row)).zipIdx row).filter (isKey ·.1) = [] := by
    rw [List.filter_eq_nil_iff]
    rintro ⟨r, i⟩ hr
    rw [htake r (List.fst_mem_of_mem_zipIdx hr)]
    exact Bool.false_ne_true
  have hid : ∀ xs : List (Row × Nat), xs.dropWhile (fun _ => false) = xs := by
    intro xs
    cases xs <;> rfl
  rw [hid] at h2
  refine ⟨?_, ?_, ?_, ?_, ?_⟩
  · have hhead : ((Stretch.rows span ++ rows).take (cursor - row)).takeWhile isKey = [] := by
      rw [take_rows_append]
      rcases hcons with hc | ⟨r, rs, ht, hr⟩
      · rw [Nat.sub_eq_zero_of_le hc, Nat.sub_eq_zero_of_le (by omega)]
        rfl
      · rw [ht, List.cons_append, List.takeWhile_cons_of_neg (by simp [hr])]
    rw [hhead]
    split <;> simpa using h1
  · have hpass : indexed rest.passed = (((Stretch.rows span ++ rows).take (cursor - row)).zipIdx row
        |>.dropWhile (fun r => !seen && isKey r.1)).filter (isKey ·.1) := by
      rw [take_rows_append, zipIdx_rows_append, h2]
      rcases hcons with hc | ⟨r, rs, ht, hr⟩
      · rw [Nat.sub_eq_zero_of_le hc, Nat.sub_eq_zero_of_le (by omega)]
        rfl
      · rw [ht] at hidx ⊢
        rw [List.zipIdx_cons, List.cons_append, List.dropWhile_cons_of_neg (by simp [hr]),
          ← List.cons_append, ← List.zipIdx_cons, List.filter_append, hidx, List.nil_append]
    split <;> exact hpass
  · split <;> exact hp
  · rw [drop_rows_append, List.map_append, List.filterMap_append]
    split
    · rename_i hgt
      have hd := (rows_cut_at span row cursor).2
      obtain ⟨n, hn⟩ : ∃ n, row + span.len - max row (min cursor (row + span.len)) = n + 1 :=
        ⟨row + span.len - max row (min cursor (row + span.len)) - 1, by omega⟩
      rw [hd, Span.rows_eq, hn, List.range'_succ, hv]
      have hmax : span.start + max row (min cursor (row + span.len)) - row =
          span.start + max cursor row - row := by omega
      simp only [List.map_cons, List.filterMap_cons, Ahead.base?, placeOf, Place.base?,
        List.cons_append, List.head?_cons, hmax]
    · rename_i hle
      rw [List.drop_of_length_le (by simp; omega)]
      exact h3
  · have hseen : Shuffled.anchors split
        (seen || ((Stretch.rows span ++ rows).take (cursor - row)).any (!isKey ·))
          (((Stretch.rows span ++ rows).drop (cursor - row)).map (placeOf seed m)) =
        Shuffled.anchors split true ((rows.drop (cursor - (row + span.len))).map (placeOf seed m)) := by
      rw [drop_rows_append, List.map_append, hbases, anchors_base, take_rows_append]
      congr 1
      rcases hcons with hc | ⟨r, rs, ht, hr⟩
      · rw [Nat.sub_eq_zero_of_le hc, List.drop_zero]
        cases hrow : Stretch.rows span with
        | nil =>
          rw [← List.length_eq_zero_iff, Stretch.length_rows, Span.len_eq] at hrow
          omega
        | cons r rs => simp
      · rw [ht]
        simp [hr]
    rw [hseen, ← h4]
    split <;> rfl

/-- A list span, and what the spans after it sort into. -/
theorem SortedOk.key {span : Span} (hv : span.view ≠ .shuffle)
    {rest : Sorted} (h : SortedOk seed m split cursor rows (row + span.len) seen rest) :
    let stop := row + span.len
    let cut := max row (min cursor stop)
    let part (first last : Nat) : Span := ⟨span.view, span.start + first - row, last - first⟩
    let behind := if row < cut then [(row, part row cut)] else []
    let ahead := if cut < stop then [Ahead.row (part cut stop) !seen] else []
    SortedOk seed m split cursor (Stretch.rows span ++ rows) row seen
      { head := if seen then rest.head else behind ++ rest.head
        passed := if seen then behind ++ rest.passed else rest.passed
        ahead := ahead ++ rest.ahead } := by
  intro stop cut part behind ahead
  have hkey : ∀ r ∈ Stretch.rows span, isKey r = true := by
    intro r hr
    rw [Span.rows_eq] at hr
    obtain ⟨p, -, rfl⟩ := List.mem_map.mp hr
    simpa [isKey] using hv
  have hkeys : KeyRows ((Stretch.rows span).drop (cursor - row)) := by
    intro r hr
    simpa [isKey] using hkey r (List.mem_of_mem_drop hr)
  have htake : ∀ r ∈ (Stretch.rows span).take (cursor - row), isKey r = true :=
    fun r hr => hkey r (List.mem_of_mem_take hr)
  obtain ⟨hbefore, hafter⟩ := rows_cut_at span row cursor
  have hbehind : rowsOf (behind.map (·.2)) = (Stretch.rows span).take (cursor - row) ∧
      indexed behind = ((Stretch.rows span).take (cursor - row)).zipIdx row ∧
      ∀ e ∈ behind, 0 < e.2.len := by
    rw [hbefore]
    by_cases hlt : row < cut
    · have hb : behind = [(row, part row cut)] := if_pos hlt
      rw [hb]
      refine ⟨?_, ?_, ?_⟩
      · rw [List.map_singleton, rowsOf_cons, rowsOf_nil, List.append_nil]
      · simp only [indexed, List.flatMap_singleton]
        rfl
      · intro e he
        obtain rfl := List.mem_singleton.mp he
        simp only [part]
        omega
    · have hb : behind = [] := if_neg hlt
      have hz : max row (min cursor (row + span.len)) - row = 0 := by
        simp only [cut, stop] at hlt
        omega
      rw [hb, hz]
      exact ⟨rfl, rfl, by simp⟩
  obtain ⟨hbrows, hbidx, hbpos⟩ := hbehind
  obtain ⟨h1, h2, hp, h3, h4⟩ := h
  have hnone : (((Stretch.rows span).drop (cursor - row)).map (placeOf seed m)).filterMap
      Place.base? = [] := by
    rw [places_key seed m hkeys, List.filterMap_map, List.filterMap_eq_nil_iff]
    intro it _
    rfl
  have hany : ((Stretch.rows span).take (cursor - row)).any (!isKey ·) = false := by
    rw [List.any_eq_false]
    intro r hr
    simp [htake r hr]
  refine ⟨?_, ?_, ?_, ?_, ?_⟩
  · cases seen with
    | true => simpa using h1
    | false =>
      simp only [Bool.false_eq_true, if_false, List.map_append, rowsOf_append] at h1 ⊢
      rw [hbrows, h1, take_rows_append, List.takeWhile_append_of_pos htake]
  · rw [take_rows_append, zipIdx_rows_append]
    have hall : ∀ r ∈ ((Stretch.rows span).take (cursor - row)).zipIdx row, isKey r.1 = true :=
      fun r hr => htake r.1 (List.fst_mem_of_mem_zipIdx hr)
    cases seen with
    | true =>
      simp only [Bool.not_true, Bool.false_and, if_true] at h2 ⊢
      have hid : ∀ xs : List (Row × Nat), xs.dropWhile (fun _ => false) = xs := by
        intro xs
        cases xs <;> rfl
      rw [hid] at h2 ⊢
      rw [List.filter_append, List.filter_eq_self.mpr hall, ← h2, ← hbidx]
      exact List.flatMap_append
    | false =>
      simp only [Bool.not_false, Bool.true_and, Bool.false_eq_true, if_false] at h2 ⊢
      rw [h2, List.dropWhile_append_of_pos hall]
  · split
    · intro e he
      rcases List.mem_append.mp he with he | he
      · exact hbpos e he
      · exact hp e he
    · exact hp
  · have hrows : (((Stretch.rows span ++ rows).drop (cursor - row)).map (placeOf seed m)).filterMap
        Place.base? =
        ((rows.drop (cursor - (row + span.len))).map (placeOf seed m)).filterMap Place.base? := by
      rw [drop_rows_append, List.map_append, List.filterMap_append, hnone, List.nil_append]
    have hahead : ahead.filterMap Ahead.base? = [] := by
      simp only [ahead]
      split <;> rfl
    rw [hrows, ← h3, List.filterMap_append, hahead, List.nil_append]
  · rw [drop_rows_append, List.map_append, places_key seed m hkeys, anchors_added,
      take_rows_append, List.any_append, hany, Bool.false_or, ← h4]
    by_cases hlt : cut < stop
    · have hzero : cursor - (row + span.len) = 0 := by
        simp only [cut, stop] at hlt
        omega
      have ha : ahead = [Ahead.row (part cut stop) !seen] := if_pos hlt
      rw [ha, List.singleton_append, aheadAdds, ← h3, hzero, List.take_zero, List.any_nil,
        Bool.or_false]
      simp only [addedItems, List.flatMap_cons]
      congr 1
      rw [hafter]
      cases seen <;> rfl
    · have ha : ahead = [] := if_neg hlt
      have hnil : (Stretch.rows span).drop (cursor - row) = [] := by
        rw [List.drop_eq_nil_iff, Stretch.length_rows, Span.len_eq]
        simp only [cut, stop] at hlt
        omega
      rw [ha, hnil]
      rfl

end

/-- **The sweep**, from row `row` on. -/
theorem sortSpans_ok (seed : UInt32) (m split cursor : Nat) (spans : List Span) (row : Nat)
    (seen : Bool) (hpos : ∀ s ∈ spans, 0 < s.len) :
    SortedOk seed m split cursor (rowsOf spans) row seen
      (sortSpans seed m cursor spans row seen) := by
  induction spans generalizing row seen with
  | nil =>
    have hnil : sortSpans seed m cursor [] row seen = ⟨[], [], []⟩ := rfl
    rw [hnil, rowsOf_nil]
    refine ⟨?_, by simp [indexed], by simp, by simp, by simp [aheadAdds, addedItems,
      Shuffled.anchors]⟩
    cases seen <;> simp [rowsOf_nil]
  | cons span spans ih =>
    have hlen := hpos span (by simp)
    have hrest := fun seen => ih (row + span.len) seen fun s hs => hpos s (List.mem_cons_of_mem _ hs)
    rw [rowsOf_cons, sortSpans]
    by_cases hv : span.view = .shuffle
    · simp only [if_pos hv]
      exact (hrest true).shuffle hv hlen
    · simp only [if_neg hv]
      exact (hrest seen).key hv

/-- What the sweep finds ahead is rows of lists and copies. -/
theorem sortSpans_views (seed : UInt32) (m cursor : Nat) (spans : List Span) (row : Nat)
    (seen : Bool) {span : Span} {head : Bool}
    (h : .row span head ∈ (sortSpans seed m cursor spans row seen).ahead) :
    span.view ≠ .shuffle ∧ 0 < span.len := by
  induction spans generalizing row seen with
  | nil => cases h
  | cons s spans ih =>
    rw [sortSpans] at h
    by_cases hv : s.view = .shuffle
    · simp only [if_pos hv] at h
      split at h
      · rcases List.mem_cons.mp h with h | h
        · cases h
        · exact ih _ _ h
      · exact ih _ _ h
    · simp only [if_neg hv, List.mem_append] at h
      rcases h with h | h
      · split at h
        · rename_i hlt
          obtain ⟨rfl, -⟩ := Ahead.row.inj (List.mem_singleton.mp h)
          exact ⟨hv, by simp only; omega⟩
        · cases h
      · exact ih _ _ h

/-! ### Anchoring -/

theorem anchorAhead_append (split : Nat) (xs ys : List Ahead) (following : Option Nat) :
    anchorAhead split (xs ++ ys) following =
      ((anchorAhead split xs following).1 ++
          (anchorAhead split ys ((xs.filterMap Ahead.base?).getLast?.or following)).1,
        (anchorAhead split xs following).2 ++
          (anchorAhead split ys ((xs.filterMap Ahead.base?).getLast?.or following)).2) := by
  induction xs generalizing following with
  | nil => rfl
  | cons x xs ih =>
    cases x with
    | base b =>
      have hlast : ((Ahead.base b :: xs).filterMap Ahead.base?).getLast?.or following =
          (xs.filterMap Ahead.base?).getLast?.or (some b) := by
        rw [List.filterMap_cons_some (show Ahead.base? (.base b) = some b from rfl),
          List.getLast?_cons]
        cases (xs.filterMap Ahead.base?).getLast? <;> rfl
      rw [List.cons_append, anchorAhead, anchorAhead, ih, hlast]
    | row span head =>
      have hlast : ((Ahead.row span head :: xs).filterMap Ahead.base?) =
          xs.filterMap Ahead.base? := rfl
      rw [hlast]
      cases head with
      | true =>
        rw [List.cons_append, anchorAhead, anchorAhead, ih]
        rfl
      | false =>
        cases following with
        | none =>
          rw [List.cons_append, anchorAhead, anchorAhead, ih]
          rfl
        | some b =>
          rw [List.cons_append, anchorAhead, anchorAhead, ih]
          rfl

/-- **Anchoring**, last to first, gives each addition ahead its anchor, in order. -/
theorem anchorAhead_reverse (split : Nat) (entries : List Ahead) :
    (anchorAhead split entries.reverse none).1.reverse =
        (aheadAdds split entries).filterMap (fun a => a.1.map (·, a.2)) ∧
      (anchorAhead split entries.reverse none).2.reverse =
        ((aheadAdds split entries).filter (·.1 = none)).map (·.2) := by
  induction entries with
  | nil => exact ⟨rfl, rfl⟩
  | cons e entries ih =>
    obtain ⟨ih1, ih2⟩ := ih
    rw [List.reverse_cons, anchorAhead_append, List.filterMap_reverse, List.getLast?_reverse,
      Option.or_none]
    simp only [List.reverse_append, ih1, ih2]
    cases e with
    | base b => exact ⟨rfl, rfl⟩
    | row span head =>
      cases head with
      | true => exact ⟨rfl, by simp [anchorAhead, aheadAdds]⟩
      | false =>
        cases hf : (entries.filterMap Ahead.base?).head? with
        | none => simp [anchorAhead, aheadAdds, hf]
        | some b => simp [anchorAhead, aheadAdds, hf]

theorem mem_aheadAdds {split : Nat} {entries : List Ahead} {a : Option Nat × Span}
    (h : a ∈ aheadAdds split entries) : ∃ head, .row a.2 head ∈ entries := by
  induction entries with
  | nil => cases h
  | cons e entries ih =>
    cases e with
    | base b =>
      obtain ⟨head, hm⟩ := ih h
      exact ⟨head, List.mem_cons_of_mem _ hm⟩
    | row span head =>
      rw [aheadAdds, List.mem_cons] at h
      rcases h with rfl | h
      · exact ⟨head, List.mem_cons_self ..⟩
      · obtain ⟨head', hm⟩ := ih h
        exact ⟨head', List.mem_cons_of_mem _ hm⟩

/-! ### Rows put back at their places -/

theorem mem_indexed {entries : List (Nat × Span)} {r : Row} {i : Nat} :
    (r, i) ∈ indexed entries ↔
      ∃ e ∈ entries, e.1 ≤ i ∧ (Stretch.rows e.2)[i - e.1]? = some r := by
  simp only [indexed, List.mem_flatMap, List.mk_mem_zipIdx_iff_le_and_getElem?_sub]

/-- Nonempty pieces in the order of their rows, no row twice, are in the order of all their
rows. -/
theorem indexed_ascending {entries : List (Nat × Span)}
    (hs : entries.Pairwise fun a b => a.1 ≤ b.1) (hpos : ∀ e ∈ entries, 0 < e.2.len)
    (hn : ((indexed entries).map (·.2)).Nodup) :
    (indexed entries).Pairwise fun a b => a.2 < b.2 := by
  induction entries with
  | nil => exact List.Pairwise.nil
  | cons e entries ih =>
    have hcons : indexed (e :: entries) = (Stretch.rows e.2).zipIdx e.1 ++ indexed entries := rfl
    rw [List.pairwise_cons] at hs
    rw [hcons, List.map_append, List.nodup_append, List.zipIdx_map_snd] at hn
    rw [hcons, List.pairwise_append]
    refine ⟨?_, ih hs.2 (fun e he => hpos e (List.mem_cons_of_mem _ he)) hn.2.1, ?_⟩
    · have := List.pairwise_lt_range' (s := e.1) (n := (Stretch.rows e.2).length)
      rw [← List.zipIdx_map_snd, List.pairwise_map] at this
      exact this
    · rintro ⟨r, i⟩ hr ⟨r', i'⟩ hr'
      obtain ⟨hlo, hget⟩ := List.mk_mem_zipIdx_iff_le_and_getElem?_sub.mp hr
      have hlt : i - e.1 < e.2.len := by simpa using (List.getElem?_eq_some_iff.mp hget).1
      obtain ⟨e', he', hlo', -⟩ := mem_indexed.1 hr'
      have hpos' := hpos e' (List.mem_cons_of_mem _ he')
      have hle := hs.1 e' he'
      -- the piece starts where no row of the first is
      have hnot : ¬ e'.1 < e.1 + e.2.len := by
        intro hin
        obtain ⟨r₀, hr₀⟩ : ∃ r₀, (Stretch.rows e'.2)[0]? = some r₀ :=
          ⟨_, Span.getElem?_rows e'.2 hpos'⟩
        refine hn.2.2 e'.1 ?_ e'.1 ?_ rfl
        · rw [Stretch.length_rows, Span.len_eq, List.mem_range'_1]
          omega
        · refine List.mem_map.mpr ⟨(r₀, e'.1), mem_indexed.2 ⟨e', he', Nat.le_refl _, ?_⟩, rfl⟩
          rwa [Nat.sub_self]
      simp only
      omega

theorem rows_of_indexed (entries : List (Nat × Span)) :
    rowsOf (entries.map (·.2)) = (indexed entries).map (·.1) := by
  induction entries with
  | nil => rfl
  | cons e entries ih =>
    have hcons : indexed (e :: entries) = (Stretch.rows e.2).zipIdx e.1 ++ indexed entries := rfl
    rw [List.map_cons, rowsOf_cons, ih, hcons, List.map_append, List.zipIdx_map_fst]

/-! ### Anchored items -/

/-- The spans anchored somewhere, with their anchors. -/
def anchoredSpans (adds : List (Option Nat × Span)) : List (Nat × Span) :=
  adds.filterMap fun a => a.1.map (·, a.2)

theorem filter_anchored (anchor : Option Nat) (items : List ItemId) (p : Option Nat → Bool) :
    ((items.map (anchor, ·)).filter (p ·.1)).map (·.2) = if p anchor then items else [] := by
  cases hp : p anchor with
  | true =>
    rw [List.filter_eq_self.mpr, List.map_map, if_pos rfl]
    · exact List.map_id _
    · intro x hx
      obtain ⟨it, -, rfl⟩ := List.mem_map.mp hx
      exact hp
  | false =>
    rw [List.filter_eq_nil_iff.mpr]
    · rfl
    · intro x hx
      obtain ⟨it, -, rfl⟩ := List.mem_map.mp hx
      simp [hp]

theorem rows_bucket_anchored (adds : List (Option Nat × Span)) (b : Nat) :
    (rowsOf ((bucket (·.1) (anchoredSpans adds) b).map (·.2))).filterMap keyItem =
      ((addedItems adds).filter (·.1 = some b)).map (·.2) := by
  induction adds with
  | nil => rfl
  | cons a adds ih =>
    obtain ⟨anchor, span⟩ := a
    have hitems : addedItems ((anchor, span) :: adds) =
        ((Stretch.rows span).filterMap keyItem).map (anchor, ·) ++ addedItems adds := rfl
    rw [hitems, List.filter_append, List.map_append, ← ih,
      filter_anchored anchor _ fun o => decide (o = some b)]
    cases anchor with
    | none => rfl
    | some a =>
      have hcons : anchoredSpans ((some a, span) :: adds) = (a, span) :: anchoredSpans adds := rfl
      rw [hcons]
      by_cases hab : a = b
      · subst hab
        simp [bucket, rowsOf_cons]
      · simp [bucket, hab]

theorem rows_last_anchored (adds : List (Option Nat × Span)) :
    (rowsOf ((adds.filter (·.1 = none)).map (·.2))).filterMap keyItem =
      ((addedItems adds).filter (·.1 = none)).map (·.2) := by
  induction adds with
  | nil => rfl
  | cons a adds ih =>
    obtain ⟨anchor, span⟩ := a
    have hitems : addedItems ((anchor, span) :: adds) =
        ((Stretch.rows span).filterMap keyItem).map (anchor, ·) ++ addedItems adds := rfl
    rw [hitems, List.filter_append, List.map_append, ← ih,
      filter_anchored anchor _ fun o => decide (o = none)]
    cases anchor with
    | none => simp [rowsOf_cons]
    | some a => simp

end JewelCase.Queue
