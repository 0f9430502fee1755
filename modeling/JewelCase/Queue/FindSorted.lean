import JewelCase.Queue.SpanList
import Mathlib.Data.String.Basic
import Mathlib.Data.List.Sort

/-!
# Finding many items in one sweep

`SpanList::find_sorted`: the items, sorted by key and position, are looked up in one pass
over the spans. On sorted items it agrees with `SpanList.find` item by item.
-/
namespace JewelCase.Queue

set_option autoImplicit false

/-- A key and a position, as the sweeps name an item. -/
abbrev KeyPos := String × Nat

/-- Keys first, then positions. -/
def KeyPos.lt (a b : KeyPos) : Prop := a.1 < b.1 ∨ (a.1 = b.1 ∧ a.2 < b.2)

instance (a b : KeyPos) : Decidable (a.lt b) := inferInstanceAs (Decidable (_ ∨ _))

theorem KeyPos.lt_trans {a b c : KeyPos} (h : a.lt b) (h' : b.lt c) : a.lt c := by
  rcases h with h | ⟨h, hp⟩ <;> rcases h' with h' | ⟨h', hp'⟩
  · exact Or.inl (h.trans h')
  · exact Or.inl (h' ▸ h)
  · exact Or.inl (h ▸ h')
  · exact Or.inr ⟨h.trans h', hp.trans hp'⟩

theorem KeyPos.not_lt_self (a : KeyPos) : ¬ a.lt a := by
  rintro (h | ⟨_, h⟩) <;> exact h.ne rfl

theorem KeyPos.lt_or_eq_or_gt (a b : KeyPos) : a.lt b ∨ a = b ∨ b.lt a := by
  rcases lt_trichotomy a.1 b.1 with h | h | h
  · exact Or.inl (Or.inl h)
  · rcases lt_trichotomy a.2 b.2 with hp | hp | hp
    · exact Or.inl (Or.inr ⟨h, hp⟩)
    · exact Or.inr (Or.inl (Prod.ext h hp))
    · exact Or.inr (Or.inr (Or.inr ⟨h.symm, hp⟩))
  · exact Or.inr (Or.inr (Or.inl h))

/-- Items in ascending order, repeats allowed. -/
def Ascending (items : List KeyPos) : Prop := items.Pairwise (fun a b => ¬ b.lt a)

/-- The rows of the items a span holds, from the first item that could be one: `row` is the
list row of the span's first position. Rows found before stay. -/
def fillSpan (key : String) (start stop row : Nat) :
    List (Option Nat) → List KeyPos → List (Option Nat)
  | found :: rows, (k, pos) :: items =>
    if k ≠ key ∨ pos ≥ stop then found :: rows
    else found.or (some (row + pos - start)) :: fillSpan key start stop row rows items
  | rows, _ => rows

/-- One span of the sweep over `items`. -/
def sweepSpan (l : SpanList) (items : List KeyPos) (rows : List (Option Nat)) (span : Span)
    (i : Nat) : List (Option Nat) :=
  match span.view with
  | .shuffle => rows
  | .key key =>
    let start := partitionPoint (KeyPos.lt · (key, span.start)) items
    rows.take start ++
      fillSpan key span.start (span.start + span.len) (l.startOf i) (rows.drop start)
        (items.drop start)

/-- The first row that reads each of `items` (sorted by key, then position), or `none` for an
item no row reads. -/
def SpanList.findSorted (l : SpanList) (items : List KeyPos) : List (Option Nat) :=
  l.spans.zipIdx.foldl (fun rows (span, i) => sweepSpan l items rows span i)
    (List.replicate items.length none)

/-- What a span adds to the row of one item. -/
private def hit (l : SpanList) (span : Span) (i : Nat) (item : KeyPos) : Option Nat :=
  if span.Reads (.key item.1) item.2 then some (l.startOf i + item.2 - span.start) else none

private theorem fillSpan_eq (l : SpanList) (span : Span) (i : Nat) (key : String)
    (hv : span.view = .key key) (rows : List (Option Nat)) (items : List KeyPos)
    (hsorted : Ascending items) (hge : ∀ item ∈ items, ¬ item.lt (key, span.start))
    (hlen : rows.length = items.length) :
    fillSpan key span.start (span.start + span.len) (l.startOf i) rows items =
      List.zipWith (fun row item => row.or (hit l span i item)) rows items := by
  induction items generalizing rows with
  | nil =>
    obtain rfl : rows = [] := List.eq_nil_of_length_eq_zero hlen
    rfl
  | cons item items ih =>
    obtain ⟨row, rows, rfl⟩ : ∃ row rest, rows = row :: rest := by
      cases rows with
      | nil => simp at hlen
      | cons row rest => exact ⟨row, rest, rfl⟩
    obtain ⟨k, pos⟩ := item
    rw [Ascending, List.pairwise_cons] at hsorted
    have hitem := hge (k, pos) (by simp)
    simp only [fillSpan, List.zipWith_cons_cons]
    by_cases hstop : k ≠ key ∨ pos ≥ span.start + span.len
    · -- past the span's last item: no later item is in it either
      have hpast : ∀ other ∈ (k, pos) :: items, hit l span i other = none := by
        intro other ho
        have hle : ¬ KeyPos.lt other (k, pos) := by
          rcases List.mem_cons.mp ho with rfl | ho
          · exact KeyPos.not_lt_self _
          · exact hsorted.1 other ho
        have hother := hge other ho
        simp only [hit, Span.Reads, hv, View.key.injEq, ite_eq_right_iff, reduceCtorEq, imp_false]
        rintro ⟨hk, h1, h2⟩
        simp only [KeyPos.lt, not_or, not_and, not_lt] at hle hitem
        rcases hstop with hne | hpos
        · have h3 : k ≤ key := hk ▸ hle.1
          exact hne (le_antisymm h3 hitem.1)
        · have h4 : other.1 = k → pos ≤ other.2 := hle.2
          have h5 : k ≤ key := hk ▸ hle.1
          have h6 := h4 (hk.trans (le_antisymm hitem.1 h5))
          omega
      rw [if_pos hstop, hpast _ (by simp), Option.or_none]
      congr 1
      have hlen' : rows.length = items.length := by simpa using hlen
      clear ih hge hsorted hlen
      induction items generalizing rows with
      | nil => simpa using List.eq_nil_of_length_eq_zero hlen'
      | cons other items ih =>
        cases rows with
        | nil => rfl
        | cons r rows =>
          rw [List.zipWith_cons_cons, hpast other (by simp), Option.or_none]
          congr 1
          exact ih rows (fun o ho => hpast o (by
            rcases List.mem_cons.mp ho with h | h
            · exact h ▸ List.mem_cons_self
            · exact List.mem_cons_of_mem _ (List.mem_cons_of_mem _ h))) (by simpa using hlen')
    · rw [if_neg hstop]
      simp only [not_or, not_not, ge_iff_le, not_le] at hstop
      obtain ⟨rfl, hlt⟩ := hstop
      have hhit : hit l span i (k, pos) = some (l.startOf i + pos - span.start) := by
        simp only [KeyPos.lt, not_or, not_and, not_lt] at hitem
        rw [hit, if_pos ⟨hv.symm, hitem.2 trivial, hlt⟩]
      rw [hhit, ih rows hsorted.2 (fun o ho => hge o (List.mem_cons_of_mem _ ho)) (by simpa using hlen)]

/-- Splitting a sorted list where `p` first fails, when what passes `p` comes first. -/
private theorem partitionPoint_split (items : List KeyPos) (bound : KeyPos)
    (hsorted : Ascending items) :
    let n := partitionPoint (KeyPos.lt · bound) items
    (∀ item ∈ items.take n, KeyPos.lt item bound) ∧
      (∀ item ∈ items.drop n, ¬ KeyPos.lt item bound) := by
  induction items with
  | nil => simp [partitionPoint]
  | cons item items ih =>
    rw [Ascending, List.pairwise_cons] at hsorted
    by_cases hlt : KeyPos.lt item bound
    · obtain ⟨h1, h2⟩ := ih hsorted.2
      have hn : partitionPoint (KeyPos.lt · bound) (item :: items) =
          partitionPoint (KeyPos.lt · bound) items + 1 := by
        simp [partitionPoint, hlt]
      simp only [hn, List.take_succ_cons, List.drop_succ_cons]
      refine ⟨?_, h2⟩
      intro other ho
      rcases List.mem_cons.mp ho with rfl | ho
      · exact hlt
      · exact h1 other ho
    · have hn : partitionPoint (KeyPos.lt · bound) (item :: items) = 0 := by
        simp [partitionPoint, hlt]
      simp only [hn, List.take_zero, List.drop_zero]
      refine ⟨by simp, ?_⟩
      intro other ho hob
      rcases List.mem_cons.mp ho with rfl | ho
      · exact hlt hob
      · rcases KeyPos.lt_or_eq_or_gt item other with h | rfl | h
        · exact hlt (KeyPos.lt_trans h hob)
        · exact hlt hob
        · exact hsorted.1 other ho h

private theorem zipWith_or_none (rows : List (Option Nat)) (items : List KeyPos)
    (f : KeyPos → Option Nat) (hf : ∀ item ∈ items, f item = none)
    (hlen : rows.length = items.length) :
    List.zipWith (fun row item => row.or (f item)) rows items = rows := by
  induction items generalizing rows with
  | nil => simpa using (List.eq_nil_of_length_eq_zero hlen).symm
  | cons item items ih =>
    cases rows with
    | nil => rfl
    | cons row rows =>
      rw [List.zipWith_cons_cons, hf item (by simp), Option.or_none,
        ih rows (fun o ho => hf o (List.mem_cons_of_mem _ ho)) (by simpa using hlen)]

theorem sweepSpan_eq (l : SpanList) (items : List KeyPos) (rows : List (Option Nat)) (span : Span)
    (i : Nat) (hsorted : Ascending items) (hlen : rows.length = items.length) :
    sweepSpan l items rows span i =
      List.zipWith (fun row item => row.or (hit l span i item)) rows items := by
  unfold sweepSpan
  cases hv : span.view with
  | shuffle =>
    rw [zipWith_or_none rows items _ _ hlen]
    intro item _
    simp [hit, Span.Reads, hv]
  | key key =>
    obtain ⟨hbefore, hfrom⟩ := partitionPoint_split items (key, span.start) hsorted
    simp only
    generalize partitionPoint (KeyPos.lt · (key, span.start)) items = n at hbefore hfrom
    have hrows : rows = rows.take n ++ rows.drop n := (List.take_append_drop n rows).symm
    have hitems : items = items.take n ++ items.drop n := (List.take_append_drop n items).symm
    conv_rhs => rw [hrows, hitems]
    rw [List.zipWith_append (by simp [hlen]), zipWith_or_none _ (items.take n) _ _ (by simp [hlen]),
      fillSpan_eq l span i key hv _ _ (hsorted.drop) hfrom (by simp [hlen])]
    intro item hm
    have hlt := hbefore item hm
    simp only [hit, Span.Reads, hv, View.key.injEq, ite_eq_right_iff, reduceCtorEq, imp_false]
    rintro ⟨hk, h1, -⟩
    rcases hlt with h | ⟨_, h⟩
    · exact h.ne hk
    · omega

private theorem foldl_zipWith (l : SpanList) (items : List KeyPos) (hsorted : Ascending items)
    (spans : List (Span × Nat)) (f : KeyPos → Option Nat) :
    spans.foldl (fun rows (span, i) => sweepSpan l items rows span i) (items.map f) =
      items.map (fun item => (f item).or (spans.findSome? (fun x => hit l x.1 x.2 item))) := by
  induction spans generalizing f with
  | nil => simp
  | cons x spans ih =>
    obtain ⟨span, i⟩ := x
    have hmap : sweepSpan l items (items.map f) span i =
        items.map (fun item => (f item).or (hit l span i item)) := by
      rw [sweepSpan_eq l items _ span i hsorted (by simp), List.zipWith_map_left, List.zipWith_self]
    simp only [List.foldl_cons]
    rw [hmap, ih]
    apply List.map_congr_left
    intro item _
    rw [List.findSome?_cons]
    cases hit l span i item <;> simp

/-- Searching with the index at hand is finding the index first. -/
private theorem findSome_zipIdx {α β : Type} (p : α → Prop) [DecidablePred p] (g : α → Nat → β)
    (xs : List α) (k : Nat) :
    (xs.zipIdx k).findSome? (fun x => if p x.1 then some (g x.1 x.2) else none) =
      (xs.findIdx? (p ·)).bind (fun i => xs[i]?.map (fun s => g s (k + i))) := by
  induction xs generalizing k with
  | nil => simp
  | cons x xs ih =>
    rw [List.zipIdx_cons, List.findSome?_cons, List.findIdx?_cons]
    by_cases hx : p x
    · simp [hx]
    · simp only [hx, if_false, decide_false, Bool.false_eq_true, ih]
      cases xs.findIdx? (p ·) with
      | none => rfl
      | some i => simp [Nat.add_assoc, Nat.add_comm 1 i]

private theorem find_eq_findSome (l : SpanList) (item : KeyPos) :
    l.spans.zipIdx.findSome? (fun x => hit l x.1 x.2 item) = l.find (.key item.1) item.2 := by
  simp only [hit]
  rw [findSome_zipIdx (fun s : Span => s.Reads (.key item.1) item.2)
    (fun s i => l.startOf i + item.2 - s.start), SpanList.find]
  cases l.spans.findIdx? (fun s => s.Reads (.key item.1) item.2) <;> simp

/-- **The sweep finds what the search finds, item by item.** -/
theorem SpanList.findSorted_eq (l : SpanList) (items : List KeyPos) (hsorted : Ascending items) :
    l.findSorted items = items.map (fun item => l.find (.key item.1) item.2) := by
  have hinit : List.replicate items.length (none : Option Nat) = items.map (fun _ => none) := by
    simp
  rw [SpanList.findSorted, hinit, foldl_zipWith l items hsorted]
  apply List.map_congr_left
  intro item _
  rw [Option.none_or, find_eq_findSome]

/-! ### Sorting -/

/-- Neighbours that repeat, once. -/
def dedup {α : Type} [DecidableEq α] : List α → List α
  | a :: b :: rest => if a = b then dedup (b :: rest) else a :: dedup (b :: rest)
  | short => short

theorem mem_dedup {α : Type} [DecidableEq α] {x : α} {xs : List α} : x ∈ dedup xs ↔ x ∈ xs := by
  fun_induction dedup xs with
  | case1 a rest ih =>
    rw [ih]
    simp
  | case2 a b rest hab ih => simp only [List.mem_cons, ih]
  | case3 => rfl

theorem dedup_sublist {α : Type} [DecidableEq α] (xs : List α) : (dedup xs).Sublist xs := by
  fun_induction dedup xs with
  | case1 a rest ih => exact ih.cons a
  | case2 a b rest hab ih => exact ih.cons_cons a
  | case3 => exact List.Sublist.refl _

theorem dedup_pairwise_lt {xs : List Nat} (h : xs.Pairwise (· ≤ ·)) :
    (dedup xs).Pairwise (· < ·) := by
  fun_induction dedup xs with
  | case1 a rest ih => exact ih h.tail
  | case2 a b rest hab ih =>
    refine List.pairwise_cons.mpr ⟨?_, ih h.tail⟩
    intro c hc
    have hab' : a ≤ b := (List.pairwise_cons.mp h).1 b (by simp)
    have hbc : b ≤ c := by
      rcases List.mem_cons.mp (mem_dedup.1 hc) with rfl | hc
      · exact Nat.le_refl _
      · exact (List.pairwise_cons.mp h.tail).1 c hc
    omega
  | case3 xs hxs =>
    match xs, hxs with
    | [], _ => exact List.Pairwise.nil
    | [a], _ => simp
    | a :: b :: rest, hxs => exact absurd rfl (hxs a b rest)

/-- The items in ascending order. -/
def sortItems (items : List KeyPos) : List KeyPos := items.insertionSort (fun a b => ¬ b.lt a)

theorem mem_sortItems {items : List KeyPos} {item : KeyPos} :
    item ∈ sortItems items ↔ item ∈ items := (List.perm_insertionSort _ items).mem_iff

theorem ascending_sortItems (items : List KeyPos) : Ascending (sortItems items) := by
  have : Std.Total (fun a b : KeyPos => ¬ b.lt a) := ⟨by
    intro a b
    by_contra h
    simp only [not_or, not_not] at h
    exact KeyPos.not_lt_self _ (KeyPos.lt_trans h.1 h.2)⟩
  have : IsTrans KeyPos (fun a b => ¬ b.lt a) := ⟨by
    intro a b c hab hbc hca
    rcases KeyPos.lt_or_eq_or_gt a b with h | rfl | h
    · exact hbc (KeyPos.lt_trans hca h)
    · exact hbc hca
    · exact hab h⟩
  exact List.pairwise_insertionSort _ items

/-- The numbers in ascending order. -/
def sortRows (rows : List Nat) : List Nat := rows.insertionSort (· ≤ ·)

theorem mem_sortRows {rows : List Nat} {row : Nat} : row ∈ sortRows rows ↔ row ∈ rows :=
  (List.perm_insertionSort _ rows).mem_iff

theorem sortRows_pairwise (rows : List Nat) : (sortRows rows).Pairwise (· ≤ ·) :=
  List.pairwise_insertionSort _ rows

end JewelCase.Queue
