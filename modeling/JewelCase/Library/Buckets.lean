import Mathlib.Data.List.Sort
import Mathlib.Tactic.Common

/-!
# Buckets

A stable sort by a number is the buckets of the elements of each number, one after another.
-/
namespace JewelCase.Library.Buckets

set_option autoImplicit false

variable {α β : Type}

/-- The elements of number `b`, in order. -/
def bucket (key : α → Nat) (xs : List α) (b : Nat) : List α := xs.filter fun x => decide (key x = b)

/-- Insertion before the elements of a larger or equal number keeps every bucket in order. -/
theorem bucket_orderedInsert (key : α → Nat) (x : α) (xs : List α) (b : Nat) :
    bucket key (xs.orderedInsert (fun a b => key a ≤ key b) x) b = bucket key (x :: xs) b := by
  induction xs with
  | nil => rfl
  | cons y ys ih =>
    by_cases h : key x ≤ key y
    · rw [List.orderedInsert, if_pos h]
    · rw [List.orderedInsert, if_neg h]
      simp only [bucket, List.filter_cons] at ih ⊢
      rw [ih]
      by_cases hx : key x = b
      · have hy : key y ≠ b := by omega
        simp [hx, hy]
      · simp [hx]

/-- **A stable sort keeps every bucket in order.** -/
theorem bucket_insertionSort (key : α → Nat) (xs : List α) (b : Nat) :
    bucket key (xs.insertionSort fun a b => key a ≤ key b) b = bucket key xs b := by
  induction xs with
  | nil => rfl
  | cons x xs ih =>
    rw [List.insertionSort_cons, bucket_orderedInsert]
    unfold bucket at ih ⊢
    rw [List.filter_cons, List.filter_cons, ih]

theorem sorted_insertionSort (key : α → Nat) (xs : List α) :
    (xs.insertionSort fun a b => key a ≤ key b).Pairwise fun a b => key a ≤ key b := by
  have : Std.Total fun a b : α => key a ≤ key b := ⟨fun a b => Nat.le_total _ _⟩
  have : IsTrans α fun a b : α => key a ≤ key b := ⟨fun a b c => Nat.le_trans⟩
  exact List.pairwise_insertionSort _ _

theorem bucket_eq_nil {key : α → Nat} {xs : List α} {b : Nat} (h : ∀ x ∈ xs, key x ≠ b) :
    bucket key xs b = [] := by
  rw [bucket, List.filter_eq_nil_iff]
  intro x hx
  simpa using h x hx

theorem range'_split {lo n x : Nat} (h1 : lo ≤ x) (h2 : x < lo + n) :
    List.range' lo n =
      List.range' lo (x - lo) ++ x :: List.range' (x + 1) (lo + n - (x + 1)) := by
  have hsplit := @List.range'_append lo (x - lo) (lo + n - x) 1
  rw [show x - lo + (lo + n - x) = n by omega, show lo + 1 * (x - lo) = x by omega] at hsplit
  rw [← hsplit, show lo + n - x = lo + n - (x + 1) + 1 by omega, List.range'_succ]

/-- **Sorted elements, bucket by bucket.** -/
theorem buckets_of_sorted {key : α → Nat} {xs : List α} (hs : xs.Pairwise fun a b => key a ≤ key b)
    {lo n : Nat} (hb : ∀ x ∈ xs, lo ≤ key x ∧ key x < lo + n) :
    (List.range' lo n).flatMap (bucket key xs) = xs := by
  induction xs generalizing lo n with
  | nil =>
    rw [List.flatMap_eq_nil_iff]
    exact fun _ _ => rfl
  | cons x xs ih =>
    rw [List.pairwise_cons] at hs
    obtain ⟨h1, h2⟩ := hb x (by simp)
    have hrest : ∀ y ∈ xs, key x ≤ key y ∧ key y < key x + (lo + n - key x) := by
      intro y hy
      have := hb y (List.mem_cons_of_mem _ hy)
      exact ⟨hs.1 y hy, by omega⟩
    have ih' := ih hs.2 hrest
    rw [show lo + n - key x = lo + n - (key x + 1) + 1 by omega, List.range'_succ,
      List.flatMap_cons] at ih'
    have hbefore : (List.range' lo (key x - lo)).flatMap (bucket key (x :: xs)) = [] := by
      rw [List.flatMap_eq_nil_iff]
      intro b hbm
      rw [List.mem_range'_1] at hbm
      refine bucket_eq_nil fun y hy => ?_
      rcases List.mem_cons.mp hy with rfl | hy
      · omega
      · have := hs.1 y hy
        omega
    have hafter : (List.range' (key x + 1) (lo + n - (key x + 1))).flatMap (bucket key (x :: xs)) =
        (List.range' (key x + 1) (lo + n - (key x + 1))).flatMap (bucket key xs) := by
      refine List.flatMap_congr fun b hbm => ?_
      rw [List.mem_range'_1] at hbm
      have : key x ≠ b := by omega
      simp [bucket, this]
    have hat : bucket key (x :: xs) (key x) = x :: bucket key xs (key x) := by
      simp [bucket]
    rw [range'_split h1 h2, List.flatMap_append, List.flatMap_cons, hbefore, hafter, hat,
      List.nil_append, List.cons_append, ih']

end JewelCase.Library.Buckets
