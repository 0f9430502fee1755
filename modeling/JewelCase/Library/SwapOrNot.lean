import Mathlib.Data.List.Basic
import Mathlib.Tactic.Common

/-!
# Swap-or-not permutations

A round pairs every position below `m` with its reflection about a pivot and swaps the
pair or not, by a coin that both members of the pair see. A round is its own inverse, so
rounds run backwards undo rounds run forwards, whatever the pivots and the coins are.
-/
namespace JewelCase.Library.SwapOrNot

set_option autoImplicit false

/-- The reflection of `x` about `pivot`, among the positions below `m`. -/
def partner (m pivot x : Nat) : Nat := if pivot ≥ x then pivot - x else pivot + (m - x)

/-- One round: `x`, or its partner when the coin of the pair's larger member says so. -/
def swap (m pivot : Nat) (coin : Nat → Bool) (x : Nat) : Nat :=
  if coin (max x (partner m pivot x)) then partner m pivot x else x

theorem partner_lt {m pivot x : Nat} (hp : pivot < m) (hx : x < m) : partner m pivot x < m := by
  unfold partner
  split <;> omega

theorem partner_partner {m pivot x : Nat} (hp : pivot < m) (hx : x < m) :
    partner m pivot (partner m pivot x) = x := by
  unfold partner
  split <;> split <;> omega

theorem swap_lt {m pivot : Nat} (coin : Nat → Bool) {x : Nat} (hp : pivot < m) (hx : x < m) :
    swap m pivot coin x < m := by
  unfold swap
  split
  · exact partner_lt hp hx
  · exact hx

/-- Both members of a pair see the same coin, so a round undoes itself. -/
theorem swap_swap {m pivot : Nat} (coin : Nat → Bool) {x : Nat} (hp : pivot < m) (hx : x < m) :
    swap m pivot coin (swap m pivot coin x) = x := by
  by_cases hc : coin (max x (partner m pivot x)) = true
  · have hs : swap m pivot coin x = partner m pivot x := by simp [swap, hc]
    rw [hs, swap, partner_partner hp hx, Nat.max_comm, if_pos hc]
  · have hs : swap m pivot coin x = x := by simp [swap, hc]
    rw [hs, hs]

section Rounds

variable {α : Type} (round : Nat → α → α) (n : Nat)

/-- The rounds below `n`, first to last. -/
def forward (x : α) : α := (List.range n).foldl (fun x i => round i x) x

/-- The rounds below `n`, last to first. -/
def backward (y : α) : α := (List.range n).reverse.foldl (fun y i => round i y) y

variable {round} {n} {P : α → Prop} (hP : ∀ i x, P x → P (round i x))
  (hinv : ∀ i x, P x → round i (round i x) = x)

theorem forward_succ (x : α) : forward round (n + 1) x = round n (forward round n x) := by
  simp [forward, List.range_succ, List.foldl_append]

theorem backward_succ (y : α) : backward round (n + 1) y = backward round n (round n y) := by
  simp [backward, List.range_succ, List.reverse_append]

include hP

theorem forward_mem {x : α} (hx : P x) : P (forward round n x) := by
  induction n with
  | zero => exact hx
  | succ n ih =>
    rw [forward_succ]
    exact hP n _ ih

theorem backward_mem {y : α} (hy : P y) : P (backward round n y) := by
  induction n generalizing y with
  | zero => exact hy
  | succ n ih =>
    rw [backward_succ]
    exact ih (hP n y hy)

include hinv

theorem backward_forward {x : α} (hx : P x) : backward round n (forward round n x) = x := by
  induction n with
  | zero => rfl
  | succ n ih => rw [forward_succ, backward_succ, hinv n _ (forward_mem hP hx), ih]

theorem forward_backward {y : α} (hy : P y) : forward round n (backward round n y) = y := by
  induction n generalizing y with
  | zero => rfl
  | succ n ih => rw [forward_succ, backward_succ, ih (hP n y hy), hinv n y hy]

end Rounds

end JewelCase.Library.SwapOrNot
