import JewelCase.Library.Stretch

/-!
# Span lists

`crates/core/src/queue/spans.rs`: spans over views, and the list of spans with its
running lengths. Lengths and row indices are naturals; the source counts them in `u64`
and assumes that they do not overflow it together. Keys are opaque text.
-/
namespace JewelCase.Queue

set_option autoImplicit false

open Library (Stretch)

/-- What a span reads: a source's or a copy's key, or the queue's one shuffle. -/
inductive View where
  | key (key : String)
  | shuffle
deriving DecidableEq, Repr

/-- Positions `start..start + len` of a view. -/
structure Span where
  view : View
  start : Nat
  len : Nat
deriving DecidableEq, Repr

/-- Whether the span reads position `pos` of `view`. -/
def Span.Reads (s : Span) (view : View) (pos : Nat) : Prop :=
  view = s.view ∧ s.start ≤ pos ∧ pos < s.start + s.len

instance (s : Span) (view : View) (pos : Nat) : Decidable (s.Reads view pos) :=
  inferInstanceAs (Decidable (_ ∧ _ ∧ _))

/-- One row of a span list: a view and the position read. -/
abbrev Row := View × Nat

instance : Stretch Span Row where
  head s := (s.view, s.start)
  len s := s.len
  next r := (r.1, r.2 + 1)
  ext := by rintro ⟨v, s, l⟩ ⟨v', s', l'⟩ h rfl; simp_all

/-- The rows a list of spans reads. -/
def rowsOf (spans : List Span) : List Row := Stretch.flat spans

@[simp] theorem rowsOf_nil : rowsOf [] = [] := rfl

@[simp] theorem rowsOf_cons (s : Span) (ss : List Span) :
    rowsOf (s :: ss) = Stretch.rows s ++ rowsOf ss := rfl

@[simp] theorem rowsOf_append (as bs : List Span) : rowsOf (as ++ bs) = rowsOf as ++ rowsOf bs :=
  Stretch.flat_append as bs

/-- `prev` with `span` joined on, if it continues it. -/
def Span.join (prev span : Span) : Option Span :=
  if prev.view = span.view ∧ prev.start + prev.len = span.start then
    some { prev with len := prev.len + span.len }
  else none

/-- The first index whose element fails `p`, where those that pass it come first. -/
def partitionPoint {α : Type} (p : α → Bool) (xs : List α) : Nat := (xs.takeWhile p).length

theorem take_partitionPoint {α : Type} (p : α → Bool) (xs : List α) :
    xs.take (partitionPoint p xs) = xs.takeWhile p :=
  (List.prefix_iff_eq_take.mp (List.takeWhile_prefix p)).symm

theorem drop_partitionPoint {α : Type} (p : α → Bool) (xs : List α) :
    xs.drop (partitionPoint p xs) = xs.dropWhile p := by
  have h : xs.take (partitionPoint p xs) ++ xs.drop (partitionPoint p xs) =
      xs.takeWhile p ++ xs.dropWhile p := by
    rw [List.take_append_drop, List.takeWhile_append_dropWhile]
  rw [take_partitionPoint] at h
  exact List.append_cancel_left h

/-- The rows through each span, after `total` rows. -/
def runningLengths (total : Nat) : List Span → List Nat
  | [] => []
  | s :: ss => (total + s.len) :: runningLengths (total + s.len) ss

/-- Spans and running lengths, as the fields of a span list stand in the middle of an edit. -/
structure RawSpans where
  spans : List Span
  ends : List Nat
deriving DecidableEq, Repr

/-- An ordered run of spans with running lengths: no span is empty, no two neighbours could
be one span, and the running lengths are those of the spans. -/
structure SpanList extends RawSpans where
  canonical : Stretch.Canonical spans
  running : ends = runningLengths 0 spans
deriving DecidableEq

namespace RawSpans

/-- The row index where span `i` starts. -/
def startOf (l : RawSpans) (i : Nat) : Nat := if i = 0 then 0 else l.ends.getD (i - 1) 0

/-- The span holding row `index` and the row's offset in it, or `none` past the end. -/
def locate (l : RawSpans) (index : Nat) : Option (Nat × Nat) :=
  let i := partitionPoint (· ≤ index) l.ends
  if i < l.spans.length then some (i, index - l.startOf i) else none

/-- Makes row `index` the start of a span, splitting the span that holds it; also answers
that span's index, the span count when `index` is the end or past it. -/
def splitAt (l : RawSpans) (index : Nat) : RawSpans × Nat :=
  match l.locate index with
  | none => (l, l.spans.length)
  | some (i, offset) =>
    if offset = 0 then (l, i)
    else
      match l.spans[i]? with
      | none => (l, i)
      | some span =>
        let tail : Span := ⟨span.view, span.start + offset, span.len - offset⟩
        ({ spans := (l.spans.set i { span with len := offset }).insertIdx (i + 1) tail
           ends := l.ends.insertIdx i index }, i + 1)

end RawSpans

theorem Span.next_iterate (n : Nat) (v : View) (p : Nat) :
    (Stretch.next Span)^[n] (v, p) = (v, p + n) := by
  induction n generalizing p with
  | zero => rfl
  | succ n ih =>
    rw [Function.iterate_succ_apply]
    change (Stretch.next Span)^[n] (v, p + 1) = _
    rw [ih, Nat.add_assoc, Nat.add_comm 1 n]

@[simp] theorem Span.after_eq (s : Span) : Stretch.after s = (s.view, s.start + s.len) :=
  Span.next_iterate s.len s.view s.start

@[simp] theorem Span.head_eq (s : Span) : Stretch.head s = (s.view, s.start) := rfl

@[simp] theorem Span.len_eq (s : Span) : Stretch.len s = s.len := rfl

theorem Span.joins : Stretch.Joins Span.join where
  some_of := by
    intro a b h
    simp only [Span.after_eq, Span.head_eq, Prod.mk.injEq] at h
    exact ⟨{ a with len := a.len + b.len }, by simp [Span.join, h], rfl, rfl⟩
  none_of := by
    intro a b h
    simp only [Span.after_eq, Span.head_eq, ne_eq, Prod.mk.injEq] at h
    simp [Span.join, h]

/-- The rows of one span, as positions of its view. -/
theorem Span.rows_eq (s : Span) :
    Stretch.rows s = (List.range' s.start s.len).map (fun p => (s.view, p)) := by
  apply List.ext_getElem?
  intro i
  by_cases h : i < s.len
  · rw [Stretch.getElem?_rows s i h, Span.head_eq, Span.next_iterate]
    simp [h]
  · rw [List.getElem?_eq_none (by simpa using h), List.getElem?_eq_none (by simpa using h)]

theorem Span.mem_rows {s : Span} {v : View} {p : Nat} :
    (v, p) ∈ Stretch.rows s ↔ s.Reads v p := by
  rw [Span.rows_eq, List.mem_map]
  constructor
  · rintro ⟨q, hq, he⟩
    obtain ⟨rfl, rfl⟩ := Prod.mk.inj he
    exact ⟨rfl, by simpa [List.mem_range'_1] using hq⟩
  · rintro ⟨rfl, h⟩
    exact ⟨p, by simpa [List.mem_range'_1] using h, rfl⟩

theorem Span.getElem?_rows (s : Span) {i : Nat} (h : i < s.len) :
    (Stretch.rows s)[i]? = some (s.view, s.start + i) := by
  rw [Stretch.getElem?_rows s i h, Span.head_eq, Span.next_iterate]

theorem length_rowsOf_cons (s : Span) (ss : List Span) :
    (rowsOf (s :: ss)).length = s.len + (rowsOf ss).length := by
  simp

theorem length_runningLengths (total : Nat) (ss : List Span) :
    (runningLengths total ss).length = ss.length := by
  induction ss generalizing total with
  | nil => rfl
  | cons s ss ih => simp [runningLengths, ih]

/-- Running length `i` counts the rows of the spans through `i`. -/
theorem getElem?_runningLengths (total : Nat) (ss : List Span) (i : Nat) (h : i < ss.length) :
    (runningLengths total ss)[i]? = some (total + (rowsOf (ss.take (i + 1))).length) := by
  induction ss generalizing total i with
  | nil => simp at h
  | cons s ss ih =>
    cases i with
    | zero => simp [runningLengths]
    | succ i =>
      rw [runningLengths, List.getElem?_cons_succ, ih _ _ (by simpa using h),
        List.take_succ_cons, length_rowsOf_cons, Nat.add_assoc]

theorem rowsOf_split (spans : List Span) (i : Nat) :
    rowsOf spans = rowsOf (spans.take i) ++ rowsOf (spans.drop i) := by
  rw [← rowsOf_append, List.take_append_drop]

theorem rowsOf_take_succ {spans : List Span} {i : Nat} {s : Span}
    (h : spans[i]? = some s) :
    rowsOf (spans.take (i + 1)) = rowsOf (spans.take i) ++ Stretch.rows s := by
  rw [List.take_add_one, h]
  simp

/-- Row `offset` of span `i` is row `offset` past the rows before that span. -/
theorem rowsOf_getElem? {spans : List Span} {i : Nat} {s : Span} (h : spans[i]? = some s)
    {offset : Nat} (ho : offset < s.len) :
    (rowsOf spans)[(rowsOf (spans.take i)).length + offset]? = some (s.view, s.start + offset) := by
  rw [rowsOf_split spans (i + 1), List.getElem?_append_left, rowsOf_take_succ h,
    List.getElem?_append_right (by omega), Nat.add_sub_cancel_left, Span.getElem?_rows s ho]
  rw [rowsOf_take_succ h, List.length_append, Stretch.length_rows, Span.len_eq]
  omega

/-! ### Finding the span that holds a row -/

/-- Raw spans whose running lengths are right and whose spans are not empty. -/
structure RawSpans.Good (l : RawSpans) : Prop where
  running : l.ends = runningLengths 0 l.spans
  nonempty : ∀ s ∈ l.spans, 0 < s.len

theorem SpanList.good (l : SpanList) : l.toRawSpans.Good := ⟨l.running, l.canonical.1⟩

theorem RawSpans.Good.startOf {l : RawSpans} (h : l.Good) {i : Nat} (hi : i ≤ l.spans.length) :
    l.startOf i = (rowsOf (l.spans.take i)).length := by
  unfold RawSpans.startOf
  cases i with
  | zero => simp
  | succ i =>
    rw [if_neg (Nat.succ_ne_zero i), Nat.add_sub_cancel, h.running, List.getD_eq_getElem?_getD,
      getElem?_runningLengths 0 l.spans i hi]
    simp

private theorem partitionPoint_runningLengths (ss : List Span) (hp : ∀ s ∈ ss, 0 < s.len)
    (total index : Nat) (ht : total ≤ index) :
    partitionPoint (fun e => decide (e ≤ index)) (runningLengths total ss) ≤ ss.length ∧
    (∀ k, k ≤ ss.length →
      (partitionPoint (fun e => decide (e ≤ index)) (runningLengths total ss) = k ↔
        total + (rowsOf (ss.take k)).length ≤ index ∧
          (k < ss.length → index < total + (rowsOf (ss.take (k + 1))).length))) := by
  induction ss generalizing total with
  | nil =>
    refine ⟨by simp [partitionPoint, runningLengths], ?_⟩
    intro k hk
    obtain rfl : k = 0 := by simpa using hk
    simp [partitionPoint, runningLengths, ht]
  | cons s ss ih =>
    have hs : 0 < s.len := hp s (by simp)
    by_cases hle : total + s.len ≤ index
    · have hpp : partitionPoint (fun e => decide (e ≤ index)) (runningLengths total (s :: ss)) =
          partitionPoint (fun e => decide (e ≤ index)) (runningLengths (total + s.len) ss) + 1 := by
        simp [partitionPoint, runningLengths, hle]
      obtain ⟨hlen, hiff⟩ := ih (fun t ht' => hp t (List.mem_cons_of_mem _ ht')) (total + s.len) hle
      rw [hpp]
      refine ⟨by simpa using hlen, ?_⟩
      intro k hk
      cases k with
      | zero =>
        simp only [Nat.add_eq_zero_iff, Nat.one_ne_zero, and_false, false_iff, not_and,
          Nat.zero_add, List.take_succ_cons, length_rowsOf_cons]
        intro _ hlt
        have := hlt (by simp)
        simp at this
        omega
      | succ k =>
        rw [Nat.add_right_cancel_iff, hiff k (by simpa using hk)]
        simp only [List.take_succ_cons, length_rowsOf_cons, List.length_cons]
        constructor
        · rintro ⟨h1, h2⟩
          exact ⟨by omega, fun h => by have := h2 (by omega); omega⟩
        · rintro ⟨h1, h2⟩
          exact ⟨by omega, fun h => by have := h2 (by omega); omega⟩
    · have hpp : partitionPoint (fun e => decide (e ≤ index)) (runningLengths total (s :: ss)) = 0 := by
        simp [partitionPoint, runningLengths, hle]
      rw [hpp]
      refine ⟨by simp, ?_⟩
      intro k hk
      cases k with
      | zero =>
        simp only [List.take_zero, Nat.zero_add, List.take_succ_cons, length_rowsOf_cons, true_iff]
        refine ⟨by simpa using ht, fun _ => ?_⟩
        simp
        omega
      | succ k =>
        simp only [Nat.zero_ne_add_one, List.take_succ_cons, length_rowsOf_cons, false_iff, not_and]
        intro h
        omega

/-- **Where a row is.** The span found starts at or before the row and ends after it. -/
theorem RawSpans.Good.locate_eq_some {l : RawSpans} (h : l.Good) {index i offset : Nat} :
    l.locate index = some (i, offset) ↔
      i < l.spans.length ∧ index = (rowsOf (l.spans.take i)).length + offset ∧
        index < (rowsOf (l.spans.take (i + 1))).length := by
  have hp := partitionPoint_runningLengths l.spans h.nonempty 0 index (Nat.zero_le _)
  rw [← h.running] at hp
  unfold RawSpans.locate
  simp only [Option.ite_none_right_eq_some, Option.some.injEq, Prod.mk.injEq]
  constructor
  · rintro ⟨hi, rfl, ho⟩
    obtain ⟨h1, h2⟩ := (hp.2 _ hp.1).mp rfl
    rw [h.startOf hp.1] at ho
    have h3 := h2 hi
    exact ⟨hi, by omega, by omega⟩
  · rintro ⟨hi, hidx, hlt⟩
    have hpp := (hp.2 i (Nat.le_of_lt hi)).mpr ⟨by omega, fun _ => by omega⟩
    rw [hpp, h.startOf (Nat.le_of_lt hi)]
    exact ⟨hi, rfl, by omega⟩

theorem RawSpans.Good.locate_eq_none {l : RawSpans} (h : l.Good) {index : Nat} :
    l.locate index = none ↔ (rowsOf l.spans).length ≤ index := by
  have hp := partitionPoint_runningLengths l.spans h.nonempty 0 index (Nat.zero_le _)
  rw [← h.running] at hp
  unfold RawSpans.locate
  simp only [ite_eq_right_iff, reduceCtorEq, imp_false, Nat.not_lt]
  constructor
  · intro hge
    have heq := Nat.le_antisymm hp.1 hge
    have h1 := ((hp.2 _ (Nat.le_refl _)).mp heq).1
    rw [List.take_length] at h1
    omega
  · intro hle
    have heq := (hp.2 l.spans.length (Nat.le_refl _)).mpr
      ⟨by rw [List.take_length]; omega, fun hlt => absurd hlt (Nat.lt_irrefl _)⟩
    exact Nat.le_of_eq heq.symm

/-! ### Splitting -/

theorem runningLengths_append (total : Nat) (as bs : List Span) :
    runningLengths total (as ++ bs) =
      runningLengths total as ++ runningLengths (total + (rowsOf as).length) bs := by
  induction as generalizing total with
  | nil => simp [runningLengths]
  | cons a as ih =>
    rw [List.cons_append, runningLengths, runningLengths, ih, length_rowsOf_cons, Nat.add_assoc,
      List.cons_append]

/-- What a split does: the same rows, the spans before the answered one ending at `index`, and
the spans that ended before it where they were. -/
structure SplitOk (l l' : RawSpans) (index i : Nat) : Prop where
  good : l'.Good
  left : rowsOf (l'.spans.take i) = (rowsOf l.spans).take index
  right : rowsOf (l'.spans.drop i) = (rowsOf l.spans).drop index
  kept : ∀ k ≤ l.spans.length, (rowsOf (l.spans.take k)).length < index →
    l'.spans.take k = l.spans.take k

theorem SplitOk.rows {l l' : RawSpans} {index i : Nat} (h : SplitOk l l' index i) :
    rowsOf l'.spans = rowsOf l.spans := by
  rw [rowsOf_split l'.spans i, h.left, h.right, List.take_append_drop]

theorem rowsOf_split_at {spans : List Span} {i index : Nat}
    (h : (rowsOf (spans.take i)).length = index) :
    rowsOf (spans.take i) = (rowsOf spans).take index ∧
      rowsOf (spans.drop i) = (rowsOf spans).drop index := by
  rw [rowsOf_split spans i, ← h]
  simp

/-- Cutting one span in two, at `offset` rows into it. -/
theorem Span.rows_cut (span : Span) {offset : Nat} (h : offset ≤ span.len) :
    Stretch.rows span = Stretch.rows { span with len := offset } ++
      Stretch.rows (⟨span.view, span.start + offset, span.len - offset⟩ : Span) := by
  apply Stretch.rows_join
  · simp
  · rfl
  · simp only [Span.len_eq]
    omega

private theorem insertIdx_append_left {α : Type} (pre post : List α) (a : α) :
    (pre ++ post).insertIdx pre.length a = pre ++ a :: post := by
  induction pre with
  | nil => simp
  | cons b pre ih => simpa using ih

/-- Splitting the span between `pre` and `post`, `offset` rows into it. -/
private theorem splitOk_cut {l : RawSpans} (h : l.Good) {pre post : List Span} {span : Span}
    {index i offset : Nat} (hspans : l.spans = pre ++ span :: post) (hpre : pre.length = i)
    (hpos : 0 < offset) (hlt : offset < span.len) (hidx : index = (rowsOf pre).length + offset) :
    SplitOk l
      { spans := (l.spans.set i { span with len := offset }).insertIdx (i + 1)
          ⟨span.view, span.start + offset, span.len - offset⟩
        ends := l.ends.insertIdx i index } index (i + 1) := by
  let head : Span := { span with len := offset }
  let tail : Span := ⟨span.view, span.start + offset, span.len - offset⟩
  have hnew : (l.spans.set i head).insertIdx (i + 1) tail = (pre ++ [head]) ++ tail :: post := by
    have hset : l.spans.set i head = (pre ++ [head]) ++ post := by
      rw [hspans, ← hpre]
      simp
    have hlen : i + 1 = (pre ++ [head]).length := by simp [hpre]
    rw [hset, hlen, insertIdx_append_left]
  have hends : l.ends.insertIdx i index = runningLengths 0 ((pre ++ [head]) ++ tail :: post) := by
    have hi : i = (runningLengths 0 pre).length := by rw [length_runningLengths, hpre]
    rw [h.running, hspans, runningLengths_append, hi, insertIdx_append_left, List.append_assoc,
      runningLengths_append]
    simp only [runningLengths, List.singleton_append, head, tail]
    have hsum : index + (span.len - offset) = (rowsOf pre).length + span.len := by omega
    rw [Nat.zero_add, ← hidx, hsum]
  have hcut := Span.rows_cut span (Nat.le_of_lt hlt)
  change SplitOk l ⟨_, _⟩ index (i + 1)
  rw [hnew, hends]
  have htake : ((pre ++ [head]) ++ tail :: post).take (i + 1) = pre ++ [head] :=
    List.take_left' (by simp [hpre])
  have hdrop : ((pre ++ [head]) ++ tail :: post).drop (i + 1) = tail :: post :=
    List.drop_left' (by simp [hpre])
  have hrows : rowsOf l.spans = rowsOf (pre ++ [head]) ++ rowsOf (tail :: post) := by
    simp [hspans, hcut, head, tail]
  have hlen : (rowsOf (pre ++ [head])).length = index := by
    simp [hidx, head]
  refine ⟨⟨rfl, ?_⟩, ?_, ?_, ?_⟩
  · intro s hs
    rw [List.mem_append, List.mem_append, List.mem_singleton, List.mem_cons] at hs
    rcases hs with (hs | rfl) | rfl | hs
    · exact h.nonempty s (by simp [hspans, hs])
    · exact hpos
    · exact Nat.sub_pos_of_lt hlt
    · exact h.nonempty s (by simp [hspans, hs])
  · rw [htake, hrows, ← hlen, List.take_left]
  · rw [hdrop, hrows, ← hlen, List.drop_left]
  · intro k _ hk
    have hki : k ≤ i := by
      by_contra hgt
      have hle : (rowsOf (pre ++ [span])).length ≤ (rowsOf (l.spans.take k)).length := by
        have hpre' : pre ++ [span] = l.spans.take (i + 1) := by
          rw [hspans, show pre ++ span :: post = (pre ++ [span]) ++ post by simp,
            List.take_left' (by simp [hpre])]
        rw [hpre', ← List.take_append_drop (i + 1) (l.spans.take k), List.take_take,
          Nat.min_eq_left (by omega), rowsOf_append, List.length_append]
        omega
      simp only [rowsOf_append, rowsOf_cons, rowsOf_nil, List.length_append, Stretch.length_rows,
        Span.len_eq, List.append_nil] at hle
      omega
    rw [hspans, List.append_assoc, List.take_append_of_le_length (by omega),
      List.take_append_of_le_length (by omega)]

theorem RawSpans.Good.splitAt {l : RawSpans} (h : l.Good) (index : Nat) :
    SplitOk l (l.splitAt index).1 index (l.splitAt index).2 := by
  unfold RawSpans.splitAt
  cases hloc : l.locate index with
  | none =>
    have hle := h.locate_eq_none.mp hloc
    refine ⟨h, ?_, ?_, fun _ _ _ => rfl⟩
    · rw [List.take_length, List.take_of_length_le hle]
    · rw [List.drop_length, List.drop_of_length_le hle]
      rfl
  | some p =>
    obtain ⟨i, offset⟩ := p
    obtain ⟨hi, hidx, hlt⟩ := h.locate_eq_some.mp hloc
    by_cases ho : offset = 0
    · simp only [ho, if_true]
      have hr := @rowsOf_split_at l.spans i index (by omega)
      exact ⟨h, hr.1, hr.2, fun _ _ _ => rfl⟩
    · have hs := List.getElem?_eq_getElem hi
      simp only [ho, if_false, hs]
      rw [rowsOf_take_succ hs, List.length_append, Stretch.length_rows, Span.len_eq] at hlt
      generalize hspan : l.spans[i] = span at *
      obtain ⟨pre, post, hpre, hspans⟩ :
          ∃ pre post, pre.length = i ∧ l.spans = pre ++ span :: post := by
        refine ⟨l.spans.take i, l.spans.drop (i + 1), by simp; omega, ?_⟩
        rw [← hspan, ← List.drop_eq_getElem_cons hi, List.take_append_drop]
      have htake : l.spans.take i = pre := by rw [hspans, ← hpre, List.take_left]
      rw [htake] at hidx hlt
      exact splitOk_cut h hspans hpre (by omega) (by omega) hidx

end JewelCase.Queue
