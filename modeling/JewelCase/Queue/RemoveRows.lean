import JewelCase.Queue.SpanList

/-!
# Removing rows in one pass

`remove_rows` answers and leaves what removing its rows one at a time would, the last row first.
-/
namespace JewelCase.Queue

set_option autoImplicit false

open Library (Stretch)

namespace SpanList

/-- The rows removed one at a time from the last to the first: the spans they were, the first row's
first, and the list left. -/
def removeEach (l : SpanList) : List Nat → List Span × SpanList
  | [] => ([], l)
  | row :: rows =>
    let (removed, left) := l.removeEach rows
    let (one, left) := left.remove row (row + 1)
    (one ++ removed, left)

/-! ### One row among numbered rows -/

section Numbered

variable {α : Type}

private theorem filter_cons_of_past (xs : List α) {n row : Nat} (rows : List Nat) (h : row < n) :
    (xs.zipIdx n).filter (fun x => x.2 ∈ row :: rows) =
      (xs.zipIdx n).filter (fun x => x.2 ∈ rows) := by
  apply List.filter_congr
  intro x hx
  have hge := List.le_snd_of_mem_zipIdx hx
  have hne : x.2 ≠ row := by omega
  simp [hne]

private theorem filter_not_cons_of_past (xs : List α) {n row : Nat} (rows : List Nat)
    (h : row < n) :
    (xs.zipIdx n).filter (fun x => x.2 ∉ row :: rows) =
      (xs.zipIdx n).filter (fun x => x.2 ∉ rows) := by
  apply List.filter_congr
  intro x hx
  have hge := List.le_snd_of_mem_zipIdx hx
  have hne : x.2 ≠ row := by omega
  simp [hne]

/-- A row before all of `rows` is the one it was once they are gone. -/
private theorem getElem?_without (xs : List α) (n row : Nat) (rows : List Nat) (hn : n ≤ row)
    (hrows : ∀ r ∈ rows, row < r) :
    (((xs.zipIdx n).filter fun x => x.2 ∉ rows).map Prod.fst)[row - n]? = xs[row - n]? := by
  induction xs generalizing n with
  | nil => simp
  | cons x xs ih =>
    have hkept : n ∉ rows := fun hmem => by have := hrows n hmem; omega
    rw [List.zipIdx_cons, List.filter_cons_of_pos (by simpa using hkept), List.map_cons]
    rcases Nat.eq_or_lt_of_le hn with rfl | hlt
    · simp
    · have hsub : row - n = row - (n + 1) + 1 := by omega
      rw [hsub, List.getElem?_cons_succ, List.getElem?_cons_succ]
      exact ih (n + 1) hlt

/-- Removing `row` and the later `rows` is removing `row` once they are gone. -/
private theorem without_cons (xs : List α) (n row : Nat) (rows : List Nat) (hn : n ≤ row)
    (hrows : ∀ r ∈ rows, row < r) :
    ((xs.zipIdx n).filter fun x => x.2 ∉ row :: rows).map Prod.fst =
      (((xs.zipIdx n).filter fun x => x.2 ∉ rows).map Prod.fst).eraseIdx (row - n) := by
  induction xs generalizing n with
  | nil => simp
  | cons x xs ih =>
    have hkept : n ∉ rows := fun hmem => by have := hrows n hmem; omega
    have hhead : (((x, n) :: xs.zipIdx (n + 1)).filter fun y => y.2 ∉ rows) =
        (x, n) :: (xs.zipIdx (n + 1)).filter fun y => y.2 ∉ rows :=
      List.filter_cons_of_pos (by simpa using hkept)
    rw [List.zipIdx_cons, hhead, List.map_cons]
    rcases Nat.eq_or_lt_of_le hn with rfl | hlt
    · rw [List.filter_cons_of_neg (by simp), Nat.sub_self, List.eraseIdx_cons_zero,
        filter_not_cons_of_past xs rows (Nat.lt_succ_self n)]
    · have hsub : row - n = row - (n + 1) + 1 := by omega
      have hne : n ≠ row := by omega
      rw [List.filter_cons_of_pos (by simp [hkept, hne]), List.map_cons, hsub,
        List.eraseIdx_cons_succ, ih (n + 1) hlt]

/-- The rows at ascending places, in order. -/
private theorem picked_eq (xs : List α) (n : Nat) {rows : List Nat}
    (hsorted : rows.Pairwise (· < ·)) (hn : ∀ r ∈ rows, n ≤ r) :
    ((xs.zipIdx n).filter fun x => x.2 ∈ rows).map Prod.fst =
      rows.filterMap fun r => xs[r - n]? := by
  induction xs generalizing n rows with
  | nil => simp
  | cons x xs ih =>
    -- Past its first place, a list with that place taken off reads the same rows.
    have hshift : ∀ rs : List Nat, (∀ r ∈ rs, n + 1 ≤ r) →
        (rs.filterMap fun r => (x :: xs)[r - n]?) = rs.filterMap fun r => xs[r - (n + 1)]? := by
      intro rs hrs
      apply List.filterMap_congr
      intro r hr
      have hsub : r - n = r - (n + 1) + 1 := by have := hrs r hr; omega
      rw [hsub, List.getElem?_cons_succ]
    rw [List.zipIdx_cons]
    cases rows with
    | nil => simp
    | cons row rows =>
      rw [List.pairwise_cons] at hsorted
      have hrow : n ≤ row := hn row (by simp)
      rcases Nat.eq_or_lt_of_le hrow with rfl | hlt
      · rw [List.filter_cons_of_pos (by simp), List.map_cons,
          filter_cons_of_past xs rows (Nat.lt_succ_self n), ih (n + 1) hsorted.2 hsorted.1,
          List.filterMap_cons_some (b := x) (by simp), hshift rows hsorted.1]
      · have hlater : ∀ r ∈ row :: rows, n + 1 ≤ r := by
          rintro r (_ | ⟨_, hr⟩)
          · exact hlt
          · have := hsorted.1 r hr
            omega
        have hnot : n ∉ row :: rows := fun hmem => by have := hlater n hmem; omega
        rw [List.filter_cons_of_neg (by simpa using hnot), hshift _ hlater]
        exact ih (n + 1) (List.pairwise_cons.mpr hsorted) hlater

end Numbered

/-! ### The two removals agree -/

/-- Spans that hold rows, and read one row or none, are that row's span or none. -/
private theorem spans_of_row {spans : List Span} (hpos : ∀ s ∈ spans, 0 < s.len) {row : Option Row}
    (hrows : rowsOf spans = row.toList) : spans = (row.map single).toList := by
  cases spans with
  | nil =>
    cases row with
    | none => rfl
    | some row => simp at hrows
  | cons span spans =>
    have hlen := congrArg List.length hrows
    rw [length_rowsOf_cons] at hlen
    have hspan := hpos span (by simp)
    cases row with
    | none =>
      rw [Option.toList_none, List.length_nil] at hlen
      omega
    | some row =>
      rw [Option.toList_some, List.length_singleton] at hlen
      have hrest : spans = [] := by
        cases spans with
        | nil => rfl
        | cons next spans =>
          have hnext := hpos next (by simp)
          rw [length_rowsOf_cons] at hlen
          omega
      subst hrest
      obtain ⟨view, start, len⟩ := span
      obtain rfl : len = 1 := by simpa using hlen
      rw [rowsOf_cons, Span.rows_eq, rowsOf_nil, List.append_nil, Option.toList_some] at hrows
      obtain rfl : (view, start) = row := by simpa using hrows
      rfl

/-- The row removed at `row`, and the rows left. -/
private theorem remove_one (l : SpanList) (row : Nat) :
    (l.remove row (row + 1)).1 = ((l.rows[row]?).map single).toList ∧
      (l.remove row (row + 1)).2.rows = l.rows.eraseIdx row := by
  obtain ⟨hremoved, hleft⟩ := rows_remove l row (row + 1)
  constructor
  · apply spans_of_row (l.remove_pos row (row + 1))
    rw [hremoved, List.drop_take, Nat.add_sub_cancel_left, List.take_one, List.head?_drop]
  · rw [hleft, Nat.max_eq_right (Nat.le_succ row), List.eraseIdx_eq_take_drop_succ]

/-- **Removing one at a time.** Each row inside the list goes, answered as its own span. -/
private theorem removeEach_ok (l : SpanList) {rows : List Nat} (hsorted : rows.Pairwise (· < ·)) :
    (l.removeEach rows).1 = (rows.filterMap fun r => (l.rows[r]?).map single) ∧
      (l.removeEach rows).2.rows = (l.rows.zipIdx.filter fun x => x.2 ∉ rows).map Prod.fst := by
  induction rows with
  | nil => simp [removeEach]
  | cons row rows ih =>
    rw [List.pairwise_cons] at hsorted
    obtain ⟨hremoved, hleft⟩ := ih hsorted.2
    obtain ⟨hone, hrest⟩ := remove_one (l.removeEach rows).2 row
    have hread := getElem?_without l.rows 0 row rows (Nat.zero_le row) hsorted.1
    rw [Nat.sub_zero, ← hleft] at hread
    constructor
    · change ((l.removeEach rows).2.remove row (row + 1)).1 ++ (l.removeEach rows).1 = _
      rw [hone, hread, hremoved]
      cases hrow : l.rows[row]? <;> simp [hrow]
    · change ((l.removeEach rows).2.remove row (row + 1)).2.rows = _
      rw [hrest, hleft, without_cons l.rows 0 row rows (Nat.zero_le row) hsorted.1, Nat.sub_zero]

/-- The rows inside the list are those it reads. -/
private theorem read_rows (l : SpanList) (rows : List Nat) :
    (rows.filterMap fun r => (l.rows[r]?).map single).map some =
      (rows.filter (· < l.len)).map fun r => (l.get r).map single := by
  induction rows with
  | nil => rfl
  | cons row rows ih =>
    by_cases hrow : row < l.rows.length
    · rw [List.filter_cons_of_pos (by simpa using hrow), List.map_cons, ← ih, get_eq,
        List.getElem?_eq_getElem hrow, Option.map_some,
        List.filterMap_cons_some (by rw [List.getElem?_eq_getElem hrow, Option.map_some]),
        List.map_cons]
    · rw [List.filter_cons_of_neg (by simpa using hrow), ← ih,
        List.filterMap_cons_none (by rw [List.getElem?_eq_none (by omega), Option.map_none])]

/-- For every list and strictly ascending row indices, some possibly past its end, one pass leaves
what removing them one at a time from the last to the first does, and answers the spans that gives,
in ascending row order: one of one row for each row inside the list. -/
theorem one_pass_removes_each (l : SpanList) {rows : List Nat} (hsorted : rows.Pairwise (· < ·)) :
    (l.removeRows rows).2 = (l.removeEach rows).2 ∧
      (l.removeRows rows).1 = (l.removeEach rows).1 ∧
      (l.removeRows rows).1.map some =
        (rows.filter (· < l.len)).map fun r => (l.get r).map single := by
  obtain ⟨hleft, hremoved⟩ := removeRows_ok l hsorted
  obtain ⟨heach, heachLeft⟩ := removeEach_ok l hsorted
  rw [picked_eq l.rows 0 hsorted (fun r _ => Nat.zero_le r), List.map_filterMap] at hremoved
  simp only [Nat.sub_zero] at hremoved
  refine ⟨ext_rows (hleft.trans heachLeft.symm), hremoved.trans heach.symm, ?_⟩
  rw [hremoved]
  exact read_rows l rows

theorem one_pass_removes_each_of_five :
    ((fromSpans [⟨.key "a", 4, 3⟩, ⟨.key "b", 0, 1⟩, ⟨.key "a", 0, 3⟩]).removeRows [1, 3, 9]).2 =
      ((fromSpans [⟨.key "a", 4, 3⟩, ⟨.key "b", 0, 1⟩, ⟨.key "a", 0, 3⟩]).removeEach [1, 3, 9]).2 :=
  (one_pass_removes_each _ (by decide)).1

end SpanList

end JewelCase.Queue
