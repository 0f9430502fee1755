import JewelCase.Queue.Spans

/-!
# Span list operations, row by row

The operations of `SpanList` as the source computes them, each with what it does to the
sequence of rows. Every later argument is about rows: two span lists with the same rows
are equal (`SpanList.ext_rows`).
-/
namespace JewelCase.Queue

set_option autoImplicit false

open Library (Stretch)

namespace SpanList

/-- The rows of the list, in order. -/
def rows (l : SpanList) : List Row := rowsOf l.spans

/-- Drops empty spans, merges adjacent ones and recomputes the running lengths. -/
def normalize (spans : List Span) : SpanList where
  spans := Stretch.coalesce Span.join spans
  ends := runningLengths 0 (Stretch.coalesce Span.join spans)
  canonical := Stretch.canonical_coalesce Span.joins spans
  running := rfl

/-- A list of `spans`, with empty ones dropped and adjacent ones merged. -/
def fromSpans (spans : List Span) : SpanList := normalize spans

/-- An empty list. -/
def empty : SpanList := ⟨⟨[], []⟩, Stretch.canonical_nil, rfl⟩

instance : Inhabited SpanList := ⟨empty⟩

/-- The total rows. -/
def len (l : SpanList) : Nat := l.ends.getLast?.getD 0

/-- Whether there are no rows. -/
def isEmpty (l : SpanList) : Bool := l.spans.isEmpty

/-- The view and position that row `index` reads, or `none` past the end. -/
def get (l : SpanList) (index : Nat) : Option Row :=
  match l.locate index with
  | none => none
  | some (i, offset) => l.spans[i]?.map (fun span => (span.view, span.start + offset))

/-- The index of the first row that reads position `pos` of `view`. -/
def find (l : SpanList) (view : View) (pos : Nat) : Option Nat :=
  match l.spans.findIdx? (fun s => s.Reads view pos) with
  | none => none
  | some i => l.spans[i]?.map (fun s => l.startOf i + pos - s.start)

/-- Inserts `spans` before row `index`, or at the end when it is past it. -/
def splice (l : SpanList) (index : Nat) (spans : List Span) : SpanList :=
  let (split, i) := l.splitAt index
  normalize (split.spans.take i ++ spans ++ split.spans.drop i)

/-- The spans that the rows `start..stop` (clamped to the list) read. -/
def slice (l : SpanList) (start stop : Nat) : List Span :=
  let stop := min stop l.len
  if start < stop then
    match l.locate start with
    | none => []
    | some (first, _) =>
      let inside := (List.range' first (l.spans.length - first)).takeWhile (l.startOf · < stop)
      inside.filterMap fun i =>
        l.spans[i]?.map fun span =>
          let skip := start - l.startOf i
          ⟨span.view, span.start + skip, min (l.ends.getD i 0) stop - l.startOf i - skip⟩
  else []

/-- Removes the rows `start..stop` (clamped to the list) and answers the spans they were. -/
def remove (l : SpanList) (start stop : Nat) : List Span × SpanList :=
  let stop := min stop l.len
  if start ≥ stop then ([], l)
  else
    let (split, first) := l.splitAt start
    let (split, last) := split.splitAt stop
    ((split.spans.take last).drop first,
      normalize (split.spans.take first ++ split.spans.drop last))

/-- One span of a row removal: the rows of `span` before `rows`, the rows removed, where the
rest of the span starts, and the rows to remove that lie past it. `first` is the list row of
the span's first position, `stop` the row after its last, `start` the first row not yet kept
or removed. -/
def cutSpan (span : Span) (first stop : Nat) :
    Nat → List Nat → List Span × List Span × Nat × List Nat
  | start, [] => ([], [], start, [])
  | start, row :: rows =>
    if row < stop then
      let (kept, removed, rest, left) := cutSpan span first stop (row + 1) rows
      (⟨span.view, span.start + start - first, row - start⟩ :: kept,
        ⟨span.view, span.start + row - first, 1⟩ :: removed, rest, left)
    else ([], [], start, row :: rows)

/-- The spans kept and the one-row spans removed, over spans that start at list row `first`. -/
def cutSpans : List Span → Nat → List Nat → List Span × List Span
  | [], _, _ => ([], [])
  | span :: spans, first, rows =>
    let stop := first + span.len
    let (kept, removed, start, rows) := cutSpan span first stop first rows
    let (kept', removed') := cutSpans spans stop rows
    (kept ++ ⟨span.view, span.start + start - first, stop - start⟩ :: kept', removed ++ removed')

/-- Removes the rows at `rows` (ascending and distinct; any past the end are ignored) and
answers them in order, one span per row. -/
def removeRows (l : SpanList) (rows : List Nat) : List Span × SpanList :=
  let (kept, removed) := cutSpans l.spans 0 rows
  (removed, normalize kept)

/-! ### Canonical form -/

/-- **Two span lists with the same rows are equal.** -/
theorem ext_rows {a b : SpanList} (h : a.rows = b.rows) : a = b := by
  obtain ⟨⟨sa, ea⟩, ca, ra⟩ := a
  obtain ⟨⟨sb, eb⟩, cb, rb⟩ := b
  obtain rfl : sa = sb := Stretch.canonical_ext ca cb h
  simp only at ra rb
  simp [ra, rb]

@[simp] theorem rows_normalize (spans : List Span) : (normalize spans).rows = rowsOf spans :=
  Stretch.flat_coalesce Span.joins spans

@[simp] theorem rows_fromSpans (spans : List Span) : (fromSpans spans).rows = rowsOf spans :=
  rows_normalize spans

@[simp] theorem rows_empty : empty.rows = [] := rfl

theorem fromSpans_spans (l : SpanList) : fromSpans l.spans = l := ext_rows (rows_fromSpans _)

@[simp] theorem len_eq (l : SpanList) : l.len = l.rows.length := by
  unfold len
  rw [l.running]
  rcases List.eq_nil_or_concat l.spans with h | ⟨init, last, h⟩
  · simp [h, runningLengths, rows]
  · rw [List.getLast?_eq_getElem?, length_runningLengths, h, List.concat_eq_append,
      getElem?_runningLengths 0 _ _ (by simp), rows, h, List.concat_eq_append,
      List.take_of_length_le (by simp)]
    simp

theorem isEmpty_iff (l : SpanList) : l.isEmpty = true ↔ l.rows = [] := by
  unfold isEmpty rows
  cases h : l.spans with
  | nil => simp
  | cons s ss =>
    have hs : 0 < Stretch.len s := l.canonical.1 s (by simp [h])
    exact iff_of_false (by simp) (Stretch.length_flat_pos hs)

theorem isEmpty_iff_len (l : SpanList) : l.isEmpty = true ↔ l.rows.length = 0 := by
  rw [isEmpty_iff, List.length_eq_zero_iff]

/-! ### Reading -/

theorem get_eq (l : SpanList) (index : Nat) : l.get index = l.rows[index]? := by
  unfold get
  cases h : l.locate index with
  | none =>
    have hle := l.good.locate_eq_none.mp h
    exact (List.getElem?_eq_none hle).symm
  | some p =>
    obtain ⟨i, offset⟩ := p
    obtain ⟨hi, hidx, hlt⟩ := l.good.locate_eq_some.mp h
    have hs := List.getElem?_eq_getElem hi
    have ho : offset < l.spans[i].len := by
      rw [rowsOf_take_succ hs, List.length_append, Stretch.length_rows, Span.len_eq] at hlt
      omega
    simp only [hs, Option.map_some]
    rw [hidx, rows, rowsOf_getElem? hs ho]

theorem mem_rows_iff (l : SpanList) (view : View) (pos : Nat) :
    (view, pos) ∈ l.rows ↔ ∃ s ∈ l.spans, s.Reads view pos := by
  simp only [rows, rowsOf, Stretch.flat, List.mem_flatMap, Span.mem_rows]

theorem find_eq_none (l : SpanList) (view : View) (pos : Nat) :
    l.find view pos = none ↔ (view, pos) ∉ l.rows := by
  unfold find
  cases h : l.spans.findIdx? (fun s => s.Reads view pos) with
  | none =>
    rw [List.findIdx?_eq_none_iff] at h
    simp only [true_iff, mem_rows_iff, not_exists, not_and]
    intro s hs hr
    simpa [hr] using h s hs
  | some i =>
    obtain ⟨hi, hp, -⟩ := List.findIdx?_eq_some_iff_getElem.mp h
    simp only [List.getElem?_eq_getElem hi, Option.map_some, reduceCtorEq, false_iff, not_not,
      mem_rows_iff]
    exact ⟨l.spans[i], List.getElem_mem hi, by simpa using hp⟩

/-- A row found reads the position, and no row before it does. -/
theorem find_eq_some {l : SpanList} {view : View} {pos row : Nat}
    (h : l.find view pos = some row) :
    l.rows[row]? = some (view, pos) ∧ (view, pos) ∉ l.rows.take row := by
  unfold find at h
  cases hf : l.spans.findIdx? (fun s => s.Reads view pos) with
  | none => simp [hf] at h
  | some i =>
    obtain ⟨hi, hp, hbefore⟩ := List.findIdx?_eq_some_iff_getElem.mp hf
    simp only [decide_eq_true_eq] at hp
    obtain ⟨hv, hlo, hhi⟩ := hp
    have hs := List.getElem?_eq_getElem hi
    simp only [hf, hs, Option.map_some, Option.some.injEq,
      l.good.startOf (Nat.le_of_lt hi)] at h
    have hrow : row = (rowsOf (l.spans.take i)).length + (pos - l.spans[i].start) := by omega
    have ho : pos - l.spans[i].start < l.spans[i].len := by omega
    refine ⟨?_, ?_⟩
    · rw [hrow, rows, rowsOf_getElem? hs ho, hv, Nat.add_sub_cancel' hlo]
    · have htake : l.rows.take row =
          rowsOf (l.spans.take i) ++ (Stretch.rows l.spans[i]).take (pos - l.spans[i].start) := by
        rw [rows, rowsOf_split l.spans (i + 1), rowsOf_take_succ hs, hrow, List.append_assoc,
          List.take_length_add_append, List.take_append_of_le_length]
        rw [Stretch.length_rows, Span.len_eq]
        omega
      rw [htake, List.mem_append, not_or]
      constructor
      · intro hm
        obtain ⟨s, hsm, hr⟩ := List.mem_flatMap.mp hm
        obtain ⟨j, hj, rfl⟩ := List.mem_take_iff_getElem.mp hsm
        rw [Span.mem_rows] at hr
        exact hbefore j (by omega) (by simpa using hr)
      · intro hm
        obtain ⟨j, hj, he⟩ := List.mem_take_iff_getElem.mp hm
        have hjl : j < l.spans[i].len := by simp at hj; omega
        have hg := Span.getElem?_rows l.spans[i] hjl
        rw [List.getElem?_eq_getElem (by simpa using hjl), Option.some.injEq, he] at hg
        have := (Prod.mk.inj hg).2
        omega

/-! ### Splicing, slicing and removing -/

theorem rows_splice (l : SpanList) (index : Nat) (spans : List Span) :
    (l.splice index spans).rows = l.rows.take index ++ rowsOf spans ++ l.rows.drop index := by
  have h := l.good.splitAt index
  simp only [splice, rows_normalize, rowsOf_append, h.left, h.right]
  rfl

theorem rows_splice_front (l : SpanList) (spans : List Span) :
    (l.splice 0 spans).rows = rowsOf spans ++ l.rows := by
  rw [rows_splice, List.take_zero, List.nil_append, List.drop_zero]

/-- The two splits of a removal: the spans before the first cut are not touched by the second. -/
private theorem rows_two_splits (l : SpanList) {start stop : Nat} (h : start < stop)
    (hstop : stop ≤ l.rows.length) :
    let first := l.splitAt start
    let last := first.1.splitAt stop
    rowsOf (last.1.spans.take first.2) = l.rows.take start ∧
      rowsOf ((last.1.spans.take last.2).drop first.2) = (l.rows.take stop).drop start ∧
      rowsOf (last.1.spans.drop last.2) = l.rows.drop stop := by
  intro first last
  have h1 : SplitOk l.toRawSpans first.1 start first.2 := l.good.splitAt start
  have h2 : SplitOk first.1 last.1 stop last.2 := h1.good.splitAt stop
  have hlen : (rowsOf (first.1.spans.take first.2)).length = start := by
    rw [h1.left, List.length_take]
    exact Nat.min_eq_left (by simp only [rows] at hstop; omega)
  have hrows : rowsOf first.1.spans = l.rows := h1.rows
  have hbound : first.2 ≤ first.1.spans.length ∨ first.1.spans.take first.2 = first.1.spans := by
    by_cases hb : first.2 ≤ first.1.spans.length
    · exact Or.inl hb
    · exact Or.inr (List.take_of_length_le (by omega))
  have hkept : last.1.spans.take first.2 = first.1.spans.take first.2 := by
    rcases hbound with hb | hall
    · exact h2.kept first.2 hb (by omega)
    · rw [hall, hrows] at hlen
      omega
  have hkeptRows : rowsOf (last.1.spans.take first.2) = l.rows.take start := by rw [hkept, h1.left]; rfl
  refine ⟨hkeptRows, ?_, by rw [h2.right, hrows]⟩
  have hle : first.2 ≤ last.2 := by
    by_contra hgt
    have hsub : (rowsOf (last.1.spans.take last.2)).length ≤
        (rowsOf (last.1.spans.take first.2)).length := by
      rw [← List.take_append_drop last.2 (last.1.spans.take first.2), List.take_take,
        Nat.min_eq_left (by omega), rowsOf_append, List.length_append]
      omega
    rw [h2.left, hkeptRows, hrows, List.length_take, List.length_take] at hsub
    omega
  have hsplit : rowsOf (last.1.spans.take last.2) =
      rowsOf (last.1.spans.take first.2) ++ rowsOf ((last.1.spans.take last.2).drop first.2) := by
    rw [← rowsOf_append]
    congr 1
    conv_lhs => rw [← List.take_append_drop first.2 (last.1.spans.take last.2), List.take_take,
      Nat.min_eq_left hle]
  rw [h2.left, hkeptRows, hrows] at hsplit
  have hd := congrArg (List.drop start) hsplit
  rw [List.drop_left' (by rw [List.length_take]; omega)] at hd
  exact hd.symm

theorem rows_remove (l : SpanList) (start stop : Nat) :
    rowsOf (l.remove start stop).1 = (l.rows.take stop).drop start ∧
      (l.remove start stop).2.rows = l.rows.take start ++ l.rows.drop (max start stop) := by
  unfold remove
  rw [len_eq]
  by_cases h : start ≥ min stop l.rows.length
  · rw [if_pos h]
    refine ⟨?_, ?_⟩
    · rw [rowsOf_nil, List.drop_of_length_le]
      rw [List.length_take]
      omega
    · by_cases hs : start < stop
      · rw [Nat.max_eq_right (by omega), List.take_of_length_le (by omega : l.rows.length ≤ start),
          List.drop_of_length_le (by omega), List.append_nil]
      · rw [Nat.max_eq_left (by omega), List.take_append_drop]
  · rw [if_neg h]
    obtain ⟨h1, h2, h3⟩ := rows_two_splits l
      (by omega : start < min stop l.rows.length) (Nat.min_le_right _ _)
    simp only [rows_normalize, rowsOf_append, h1, h2, h3]
    refine ⟨?_, ?_⟩
    · rw [← List.take_eq_take_min]
    · rw [Nat.max_eq_right (by omega)]
      by_cases hs : stop ≤ l.rows.length
      · rw [Nat.min_eq_left hs]
      · rw [Nat.min_eq_right (by omega), List.drop_length, List.drop_of_length_le (by omega)]

/-- Part of a span reads the same part of its rows. -/
theorem rows_part (span : Span) {skip n : Nat} (h : skip + n ≤ span.len) :
    Stretch.rows (⟨span.view, span.start + skip, n⟩ : Span) =
      ((Stretch.rows span).drop skip).take n := by
  apply List.ext_getElem?
  intro i
  by_cases hi : i < n
  · rw [Span.getElem?_rows _ hi, List.getElem?_take_of_lt hi, List.getElem?_drop,
      Span.getElem?_rows _ (by omega), Nat.add_assoc]
  · rw [List.getElem?_eq_none (by simpa using hi), List.getElem?_eq_none (by simp; omega)]

/-- The rows of span `i` are the list's rows from the span's start. -/
private theorem rows_span (l : SpanList) {i : Nat} {span : Span} (h : l.spans[i]? = some span) :
    Stretch.rows span = (l.rows.drop (l.startOf i)).take span.len ∧
      l.ends.getD i 0 = l.startOf i + span.len ∧ l.startOf (i + 1) = l.startOf i + span.len ∧
      l.startOf i + span.len ≤ l.rows.length := by
  obtain ⟨hi, hget⟩ := List.getElem?_eq_some_iff.mp h
  have hstart := l.good.startOf (Nat.le_of_lt hi)
  have hnext := l.good.startOf (i := i + 1) hi
  rw [rowsOf_take_succ h, List.length_append, Stretch.length_rows, Span.len_eq] at hnext
  have hrows : l.rows = rowsOf (l.spans.take i) ++ (Stretch.rows span ++ rowsOf (l.spans.drop (i + 1))) := by
    rw [rows, rowsOf_split l.spans (i + 1), rowsOf_take_succ h, List.append_assoc]
  refine ⟨?_, ?_, by omega, ?_⟩
  · rw [hstart, hrows, List.drop_left, List.take_left' (by simp)]
  · have hends : l.startOf (i + 1) = l.ends.getD i 0 := by simp [RawSpans.startOf]
    omega
  · rw [hrows, hstart]
    simp

/-- The spans read from span `i` on: each piece of the loop, then the rest. -/
private theorem rows_slice_from (l : SpanList) {start stop : Nat} (hlt : start < stop)
    (hstop : stop ≤ l.rows.length)
    (n i : Nat) (hn : i + n = l.spans.length)
    (hfirst : start < l.startOf (i + 1) ∨ l.spans.length ≤ i) :
    rowsOf (((List.range' i n).takeWhile (l.startOf · < stop)).filterMap fun i =>
      l.spans[i]?.map fun span =>
        (⟨span.view, span.start + (start - l.startOf i),
          min (l.ends.getD i 0) stop - l.startOf i - (start - l.startOf i)⟩ : Span)) =
      (l.rows.take stop).drop (max start (l.startOf i)) := by
  induction n generalizing i with
  | zero =>
    have hall := l.good.startOf (i := i) (by omega)
    rw [List.take_of_length_le (by omega)] at hall
    rw [List.range'_zero, List.takeWhile_nil, List.filterMap_nil, rowsOf_nil,
      List.drop_of_length_le]
    rw [List.length_take, hall]
    simp only [rows] at hstop ⊢
    omega
  | succ n ih =>
    have hs := List.getElem?_eq_getElem (show i < l.spans.length by omega)
    generalize l.spans[i] = span at hs
    obtain ⟨hrows, hends, hnext, hle⟩ := rows_span l hs
    rw [List.range'_succ]
    by_cases hin : l.startOf i < stop
    · rw [List.takeWhile_cons_of_pos (by simpa using hin), List.filterMap_cons]
      simp only [hs, Option.map_some, rowsOf_cons]
      have hlater : start < l.startOf (i + 1 + 1) ∨ l.spans.length ≤ i + 1 := by
        by_cases hlast : i + 1 < l.spans.length
        · obtain ⟨-, -, hnext', -⟩ := rows_span l (List.getElem?_eq_getElem hlast)
          left
          rw [hnext']
          omega
        · exact Or.inr (by omega)
      rw [ih (i + 1) (by omega) hlater, rows_part span (by omega), hrows, hends, hnext]
      have hskip : l.startOf i + (start - l.startOf i) = max start (l.startOf i) := by omega
      rw [List.drop_take, List.take_take, List.drop_drop, List.drop_take, List.drop_take, hskip]
      generalize max start (l.startOf i) = m at hskip
      by_cases hcut : l.startOf i + span.len ≤ stop
      · rw [show max start (l.startOf i + span.len) = m + (l.startOf i + span.len - m) by omega,
          ← List.drop_drop, show stop - m = (l.startOf i + span.len - m) +
            (stop - (m + (l.startOf i + span.len - m))) by omega, List.take_add]
        congr 2
        omega
      · rw [show stop - max start (l.startOf i + span.len) = 0 by omega, List.take_zero,
          List.append_nil]
        congr 1
        omega
    · rw [List.takeWhile_cons_of_neg (by simpa using hin), List.filterMap_nil, rowsOf_nil,
        List.drop_of_length_le]
      rw [List.length_take]
      omega

theorem rows_slice (l : SpanList) (start stop : Nat) :
    rowsOf (l.slice start stop) = (l.rows.take stop).drop start := by
  unfold slice
  rw [len_eq]
  by_cases h : start < min stop l.rows.length
  · rw [if_pos h]
    cases hloc : l.locate start with
    | none =>
      have hle := l.good.locate_eq_none.mp hloc
      simp only [rows] at h
      omega
    | some p =>
      obtain ⟨first, offset⟩ := p
      obtain ⟨hfirst, hidx, hlt⟩ := l.good.locate_eq_some.mp hloc
      rw [← l.good.startOf hfirst] at hlt
      rw [← l.good.startOf (Nat.le_of_lt hfirst)] at hidx
      simp only
      rw [rows_slice_from l h (Nat.min_le_right _ _) _ _ (by omega) (Or.inl hlt),
        Nat.max_eq_left (by omega), ← List.take_eq_take_min]
  · rw [if_neg h, rowsOf_nil, List.drop_of_length_le]
    rw [List.length_take]
    omega

/-- The spans of a slice hold rows. -/
theorem slice_pos (l : SpanList) (start stop : Nat) : ∀ s ∈ l.slice start stop, 0 < s.len := by
  unfold slice
  rw [len_eq]
  by_cases h : start < min stop l.rows.length
  · rw [if_pos h]
    cases hloc : l.locate start with
    | none => simp
    | some p =>
      obtain ⟨first, offset⟩ := p
      obtain ⟨hfirst, -, hlt⟩ := l.good.locate_eq_some.mp hloc
      rw [← l.good.startOf (i := first + 1) hfirst] at hlt
      intro s hs
      obtain ⟨i, hi, hsome⟩ := List.mem_filterMap.mp hs
      have hstop : l.startOf i < min stop l.rows.length := by
        simpa using List.all_eq_true.mp List.all_takeWhile i hi
      have hrange := (List.takeWhile_sublist _).subset hi
      rw [List.mem_range'_1] at hrange
      obtain ⟨span, hspan, rfl⟩ := Option.map_eq_some_iff.mp hsome
      obtain ⟨-, hends, hnext, -⟩ := rows_span l hspan
      have hpos := l.good.nonempty span (List.mem_of_getElem? hspan)
      -- the slice starts in its first span, and before every later one
      have hstart : start < l.startOf i + span.len := by
        rcases Nat.eq_or_lt_of_le hrange.1 with rfl | hlater
        · omega
        · have hle := l.good.startOf (i := i) (by omega)
          have hle' := l.good.startOf (i := first + 1) hfirst
          have hsub : (rowsOf (l.spans.take (first + 1))).length ≤
              (rowsOf (l.spans.take i)).length := by
            rw [← Nat.min_eq_left (show first + 1 ≤ i from hlater), ← List.take_take,
              rowsOf_split (l.spans.take i) (first + 1), List.length_append]
            omega
          omega
      simp only [hends]
      omega
  · rw [if_neg h]
    simp

/-- The spans of a removal hold rows. -/
theorem remove_pos (l : SpanList) (start stop : Nat) : ∀ s ∈ (l.remove start stop).1, 0 < s.len := by
  unfold remove
  by_cases h : start ≥ min stop l.len
  · rw [if_pos h]
    simp
  · rw [if_neg h]
    intro s hs
    have hgood := (l.good.splitAt start).good.splitAt (min stop l.len)
    exact hgood.good.nonempty s (List.mem_of_mem_take (List.mem_of_mem_drop hs))

/-! ### Removing single rows -/

/-- The row a span reads at list row `r`, where `first` is the list row of its first position. -/
private def cell (span : Span) (first r : Nat) : Row := (span.view, span.start + r - first)

private theorem rows_piece (span : Span) {first start : Nat} (h : first ≤ start) (n : Nat) :
    Stretch.rows (⟨span.view, span.start + start - first, n⟩ : Span) =
      (List.range' start n).map (cell span first) := by
  rw [Span.rows_eq]
  apply List.ext_getElem?
  intro i
  by_cases hi : i < n
  · simp [cell, hi]
    omega
  · rw [List.getElem?_eq_none (by simpa using hi), List.getElem?_eq_none (by simpa using hi)]

/-- What one span of a row removal keeps and removes, and the rows it leaves to later spans. -/
private theorem cutSpan_ok (span : Span) {first start stop : Nat} (hs : first ≤ start)
    (hle : start ≤ stop) (rows : List Nat) (hsorted : rows.Pairwise (· < ·))
    (hge : ∀ r ∈ rows, start ≤ r) :
    let cut := cutSpan span first stop start rows
    rowsOf (cut.1 ++ [⟨span.view, span.start + cut.2.2.1 - first, stop - cut.2.2.1⟩]) =
        ((List.range' start (stop - start)).filter (· ∉ rows)).map (cell span first) ∧
      cut.2.1 = (rows.filter (· < stop)).map
        (fun r => ⟨(cell span first r).1, (cell span first r).2, 1⟩) ∧
      cut.2.2.2 = rows.filter (stop ≤ ·) := by
  induction rows generalizing start with
  | nil =>
    simp only [cutSpan, List.nil_append, rowsOf_cons, rowsOf_nil, List.append_nil]
    refine ⟨?_, rfl, rfl⟩
    rw [rows_piece span hs]
    simp
  | cons row rows ih =>
    rw [List.pairwise_cons] at hsorted
    have hrow : start ≤ row := hge row (by simp)
    by_cases hlt : row < stop
    · obtain ⟨h1, h2, h3⟩ := ih (by omega : first ≤ row + 1) (by omega) hsorted.2
        (fun r hr => hsorted.1 r hr)
      simp only [cutSpan, if_pos hlt]
      refine ⟨?_, ?_, ?_⟩
      · have hsplit : List.range' start (stop - start) =
            List.range' start (row - start) ++ row :: List.range' (row + 1) (stop - (row + 1)) := by
          rw [← List.range'_succ, show stop - (row + 1) + 1 = stop - row by omega]
          have := List.range'_append_1 (s := start) (m := row - start) (n := stop - row)
          rw [Nat.add_sub_cancel' hrow] at this
          rw [this]
          congr 1
          omega
        have hbefore : (List.range' start (row - start)).filter (· ∉ row :: rows) =
            List.range' start (row - start) := by
          apply List.filter_eq_self.mpr
          intro r hr
          rw [List.mem_range'_1] at hr
          simp only [List.mem_cons, not_or, decide_eq_true_eq]
          exact ⟨by omega, fun hm => by have := hsorted.1 r hm; omega⟩
        have hafter : (List.range' (row + 1) (stop - (row + 1))).filter (· ∉ row :: rows) =
            (List.range' (row + 1) (stop - (row + 1))).filter (· ∉ rows) := by
          apply List.filter_congr
          intro r hr
          rw [List.mem_range'_1] at hr
          simp only [List.mem_cons, decide_eq_decide, not_or, and_iff_right_iff_imp]
          intro _
          omega
        rw [List.cons_append, rowsOf_cons, h1, hsplit, List.filter_append, hbefore,
          List.filter_cons_of_neg (by simp), hafter, List.map_append, rows_piece span hs]
      · rw [h2, List.filter_cons_of_pos (by simpa using hlt)]
        rfl
      · rw [h3, List.filter_cons_of_neg (by simpa using hlt)]
    · have hall : ∀ r ∈ row :: rows, stop ≤ r := by
        intro r hr
        rcases List.mem_cons.mp hr with rfl | hr
        · omega
        · have := hsorted.1 r hr
          omega
      simp only [cutSpan, if_neg hlt, List.nil_append, rowsOf_cons, rowsOf_nil, List.append_nil]
      refine ⟨?_, ?_, ?_⟩
      · rw [rows_piece span hs]
        congr 1
        symm
        apply List.filter_eq_self.mpr
        intro r hr
        rw [List.mem_range'_1] at hr
        simp only [decide_eq_true_eq]
        intro hm
        have := hall r hm
        omega
      · have hnone : (row :: rows).filter (· < stop) = [] := by
          rw [List.filter_eq_nil_iff]
          intro r hr
          have := hall r hr
          simpa using this
        rw [hnone]
        rfl
      · symm
        apply List.filter_eq_self.mpr
        intro r hr
        simpa using hall r hr

/-- The span of one row. -/
def single (r : Row) : Span := ⟨r.1, r.2, 1⟩

theorem rowsOf_map_single (rs : List Row) : rowsOf (rs.map single) = rs := by
  induction rs with
  | nil => rfl
  | cons r rs ih =>
    rw [List.map_cons, rowsOf_cons, ih, Span.rows_eq]
    rfl

/-- The rows of a span, each with its list row. -/
private theorem zipIdx_rows (span : Span) (first : Nat) :
    (Stretch.rows span).zipIdx first =
      (List.range' first span.len).map (fun r => (cell span first r, r)) := by
  apply List.ext_getElem?
  intro i
  by_cases hi : i < span.len
  · rw [List.getElem?_zipIdx, Span.getElem?_rows span hi]
    simp [cell, hi]
    omega
  · rw [List.getElem?_eq_none (by simpa using hi), List.getElem?_eq_none (by simpa using hi)]

private theorem filter_zipIdx_rows (span : Span) (first : Nat) (p : Nat → Bool) :
    (((Stretch.rows span).zipIdx first).filter (fun x => p x.2)).map Prod.fst =
      ((List.range' first span.len).filter p).map (cell span first) := by
  rw [zipIdx_rows, List.filter_map, List.map_map]
  rfl

/-- The rows of a sorted list that fall in a range are the range's rows that are in the list. -/
private theorem filter_lt_eq_range' (rows : List Nat) (hsorted : rows.Pairwise (· < ·))
    {first n : Nat} (hge : ∀ r ∈ rows, first ≤ r) :
    rows.filter (· < first + n) = (List.range' first n).filter (· ∈ rows) := by
  refine List.Perm.eq_of_pairwise ?_ (hsorted.filter _) ((List.pairwise_lt_range' _).filter _) ?_
  · intro a b _ _ hab hba
    omega
  · rw [List.perm_ext_iff_of_nodup]
    · intro r
      simp only [List.mem_filter, decide_eq_true_eq, List.mem_range'_1]
      constructor
      · rintro ⟨hr, hlt⟩
        exact ⟨⟨hge r hr, hlt⟩, hr⟩
      · rintro ⟨⟨_, hlt⟩, hr⟩
        exact ⟨hr, hlt⟩
    · exact (hsorted.imp (fun h => Nat.ne_of_lt h)).filter _
    · exact (List.nodup_range' ..).filter _

private theorem cutSpans_ok (spans : List Span) (first : Nat) (rows : List Nat)
    (hsorted : rows.Pairwise (· < ·)) (hge : ∀ r ∈ rows, first ≤ r) :
    rowsOf (cutSpans spans first rows).1 =
        (((rowsOf spans).zipIdx first).filter (fun x => x.2 ∉ rows)).map Prod.fst ∧
      (cutSpans spans first rows).2 =
        ((((rowsOf spans).zipIdx first).filter (fun x => x.2 ∈ rows)).map Prod.fst).map single := by
  induction spans generalizing first rows with
  | nil => simp [cutSpans]
  | cons span spans ih =>
    obtain ⟨h1, h2, h3⟩ := cutSpan_ok span (Nat.le_refl first) (Nat.le_add_right first span.len)
      rows hsorted hge
    obtain ⟨ih1, ih2⟩ := ih (first + span.len) (rows.filter (first + span.len ≤ ·))
      (hsorted.filter _) (fun r hr => by simpa using (List.mem_filter.mp hr).2)
    have htail : ∀ x ∈ (rowsOf spans).zipIdx (first + span.len),
        decide (x.2 ∈ rows.filter (first + span.len ≤ ·)) = decide (x.2 ∈ rows) := by
      intro x hx
      have := List.le_snd_of_mem_zipIdx hx
      simp [this]
    have hin := List.filter_congr htail
    have hout : ((rowsOf spans).zipIdx (first + span.len)).filter
        (fun x => x.2 ∉ rows.filter (first + span.len ≤ ·)) =
        ((rowsOf spans).zipIdx (first + span.len)).filter (fun x => x.2 ∉ rows) := by
      apply List.filter_congr
      intro x hx
      rw [decide_not, decide_not, htail x hx]
    have hzip : (rowsOf (span :: spans)).zipIdx first =
        (Stretch.rows span).zipIdx first ++ (rowsOf spans).zipIdx (first + span.len) := by
      rw [rowsOf_cons, List.zipIdx_append, Stretch.length_rows, Span.len_eq]
    simp only [cutSpans, hzip, h3, List.filter_append, List.map_append]
    refine ⟨?_, ?_⟩
    · rw [rowsOf_append, rowsOf_cons, ← List.append_assoc, filter_zipIdx_rows span first (· ∉ rows)]
      rw [rowsOf_append, rowsOf_cons, rowsOf_nil, List.append_nil, Nat.add_sub_cancel_left] at h1
      rw [h1, ih1, hout]
    · rw [filter_zipIdx_rows span first (· ∈ rows), h2, ih2, filter_lt_eq_range' rows hsorted hge,
        hin]
      simp only [List.map_map]
      rfl

/-- **Removing rows by index.** Exactly the rows named go, each answered as a span of its own. -/
theorem removeRows_ok (l : SpanList) {rows : List Nat} (hsorted : rows.Pairwise (· < ·)) :
    (l.removeRows rows).2.rows = (l.rows.zipIdx.filter (fun x => x.2 ∉ rows)).map Prod.fst ∧
      (l.removeRows rows).1 =
        ((l.rows.zipIdx.filter (fun x => x.2 ∈ rows)).map Prod.fst).map single := by
  obtain ⟨h1, h2⟩ := cutSpans_ok l.spans 0 rows hsorted (fun r _ => Nat.zero_le r)
  exact ⟨(rows_normalize _).trans h1, h2⟩

end SpanList

end JewelCase.Queue
