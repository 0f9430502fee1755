import Mathlib.Algebra.GroupWithZero.Nat
import JewelCase.Library.SwapOrNot

/-!
# The shuffle permutation

`crates/core/src/queue/permutation.rs`: a seeded swap-or-not shuffle whose pivots and coins
come from SplitMix64. Positions are naturals; the generator is 64-bit with wrapping, as the
source writes it.
-/
namespace JewelCase.Queue

set_option autoImplicit false

open Library.SwapOrNot

/-- The SplitMix64 increment. -/
def gamma : UInt64 := 0x9E3779B97F4A7C15

/-- The SplitMix64 output finalizer. -/
def mix (z : UInt64) : UInt64 :=
  let z := (z ^^^ (z >>> 30)) * 0xBF58476D1CE4E5B9
  let z := (z ^^^ (z >>> 27)) * 0x94D049BB133111EB
  z ^^^ (z >>> 31)

/-- Output `n` of SplitMix64 started from state `seed`. -/
def splitmix (seed : UInt32) (n : UInt64) : UInt64 :=
  mix (seed.toUInt64 + (n + 1) * gamma)

/-- How many bits `n` takes. -/
def bits (n : Nat) : Nat := if n = 0 then 0 else n.log2 + 1

/-- The number of rounds for a list of `m` rows. -/
def rounds (m : Nat) : Nat := 6 * bits (m - 1) + 6

/-- Round `i`'s pivot. -/
def pivotOf (seed : UInt32) (m i : Nat) : Nat :=
  (splitmix seed (2 * UInt64.ofNat i)).toNat % m

/-- The coin of the pair whose larger member is `high`, in round `i`. -/
def coinOf (seed : UInt32) (i high : Nat) : Bool :=
  mix (splitmix seed (2 * UInt64.ofNat i + 1) ^^^ UInt64.ofNat high) >>> 63 == 1

/-- Round `i` applied to `x`: its partner if the round's coin says to swap, else `x`. -/
def round (seed : UInt32) (m i x : Nat) : Nat := swap m (pivotOf seed m i) (coinOf seed i) x

/-- Where position `x` of the unshuffled list lands, for a list of `m` rows. -/
def permute (seed : UInt32) (m x : Nat) : Nat :=
  if m < 2 then x else forward (round seed m) (rounds m) x

/-- The position that lands at `y`. -/
def unpermute (seed : UInt32) (m y : Nat) : Nat :=
  if m < 2 then y else backward (round seed m) (rounds m) y

theorem round_lt (seed : UInt32) {m : Nat} (i x : Nat) (hx : x < m) : round seed m i x < m :=
  swap_lt _ (Nat.mod_lt _ (by omega)) hx

theorem round_round (seed : UInt32) {m : Nat} (i x : Nat) (hx : x < m) :
    round seed m i (round seed m i x) = x :=
  swap_swap _ (Nat.mod_lt _ (by omega)) hx

theorem permute_lt (seed : UInt32) {m x : Nat} (hx : x < m) : permute seed m x < m := by
  unfold permute
  split
  · exact hx
  · exact forward_mem (round_lt seed) hx

theorem unpermute_lt (seed : UInt32) {m y : Nat} (hy : y < m) : unpermute seed m y < m := by
  unfold unpermute
  split
  · exact hy
  · exact backward_mem (round_lt seed) hy

theorem unpermute_permute (seed : UInt32) {m x : Nat} (hx : x < m) :
    unpermute seed m (permute seed m x) = x := by
  unfold unpermute permute
  split
  · rfl
  · exact backward_forward (round_lt seed) (round_round seed) hx

theorem permute_unpermute (seed : UInt32) {m y : Nat} (hy : y < m) :
    permute seed m (unpermute seed m y) = y := by
  unfold unpermute permute
  split
  · rfl
  · exact forward_backward (round_lt seed) (round_round seed) hy

-- a vector of `parity.json`
example : permute 1 12 5 = 6 := by decide +kernel

end JewelCase.Queue

/-!
## The shuffle permutation in 64 bits

`crates/core/src/queue/permutation.rs` again, in the words it is written in. Where the source adds,
subtracts or multiplies without wrapping, an overflow has no result. None happens, and each result
is the one over naturals.
-/
namespace JewelCase.Queue.Words

open Library.SwapOrNot (partner_lt swap)

set_option autoImplicit false

/-- `+` of two `u64`s -/
def add (a b : UInt64) : Option UInt64 := if a.toNat + b.toNat < 2 ^ 64 then some (a + b) else none

/-- `-` of two `u64`s -/
def sub (a b : UInt64) : Option UInt64 := if b.toNat ≤ a.toNat then some (a - b) else none

/-- `*` of two `u64`s -/
def mul (a b : UInt64) : Option UInt64 := if a.toNat * b.toNat < 2 ^ 64 then some (a * b) else none

/-- `u64::leading_zeros` -/
def leadingZeros (x : UInt64) : Nat := 64 - bits x.toNat

/-- `u64::saturating_sub` -/
def saturatingSub (a b : UInt64) : UInt64 := if b.toNat ≤ a.toNat then a - b else 0

/-- The number of rounds for a list of `m` rows, in 32 bits. -/
def rounds (m : UInt64) : Option Nat :=
  let zeros := leadingZeros (saturatingSub m 1)
  if zeros ≤ 64 ∧ 6 * (64 - zeros) + 6 < 2 ^ 32 then some (6 * (64 - zeros) + 6) else none

/-- The reflection of `x` about `pivot`. -/
def partner (m pivot x : UInt64) : Option UInt64 :=
  if pivot ≥ x then sub pivot x else (sub m x).bind fun after => add pivot after

/-- Round `i` applied to `x`. -/
def round (seed : UInt32) (m : UInt64) (i : UInt32) (x : UInt64) : Option UInt64 := do
  let pivot := splitmix seed (← mul 2 i.toUInt64) % m
  let partner ← partner m pivot x
  let high := max x partner
  let coin := splitmix seed (← add (← mul 2 i.toUInt64) 1)
  return if mix (coin ^^^ high) >>> 63 == 1 then partner else x

/-- `permute_with` -/
def permuteWith (seed : UInt32) (m : UInt64) (rounds : Nat) (x : UInt64) : Option UInt64 :=
  if m < 2 then some x
  else (List.range rounds).foldlM (fun x i => round seed m (UInt32.ofNat i) x) x

/-- `unpermute_with` -/
def unpermuteWith (seed : UInt32) (m : UInt64) (rounds : Nat) (y : UInt64) : Option UInt64 :=
  if m < 2 then some y
  else (List.range rounds).reverse.foldlM (fun y i => round seed m (UInt32.ofNat i) y) y

/-- Where position `x` of the unshuffled list lands, for a list of `m` rows. -/
def permute (seed : UInt32) (m x : UInt64) : Option UInt64 :=
  (rounds m).bind fun rounds => permuteWith seed m rounds x

/-- The position that lands at `y`. -/
def unpermute (seed : UInt32) (m y : UInt64) : Option UInt64 :=
  (rounds m).bind fun rounds => unpermuteWith seed m rounds y

/-! ### One round -/

theorem toNat_ofNat {n : Nat} (h : n < 2 ^ 64) : (UInt64.ofNat n).toNat = n :=
  UInt64.toNat_ofNat_of_lt' h

theorem mul_two (i : UInt32) : mul 2 i.toUInt64 = some (2 * UInt64.ofNat i.toNat) := by
  have hi := i.toNat_lt
  have hsmall : (2 : UInt64).toNat * i.toUInt64.toNat < 2 ^ 64 := by
    rw [UInt32.toNat_toUInt64]
    show 2 * i.toNat < 2 ^ 64
    omega
  have heq : i.toUInt64 = UInt64.ofNat i.toNat := by
    rw [← UInt64.toNat_inj, UInt32.toNat_toUInt64, toNat_ofNat (by omega)]
  unfold mul
  rw [if_pos hsmall, heq]

theorem add_one (i : UInt32) :
    add (2 * UInt64.ofNat i.toNat) 1 = some (2 * UInt64.ofNat i.toNat + 1) := by
  have hi := i.toNat_lt
  have hdouble : (2 * UInt64.ofNat i.toNat).toNat = 2 * i.toNat := by
    rw [UInt64.toNat_mul, toNat_ofNat (by omega)]
    show 2 * i.toNat % 2 ^ 64 = 2 * i.toNat
    omega
  have hsmall : (2 * UInt64.ofNat i.toNat).toNat + (1 : UInt64).toNat < 2 ^ 64 := by
    rw [hdouble]
    show 2 * i.toNat + 1 < 2 ^ 64
    omega
  unfold add
  rw [if_pos hsmall]

theorem toNat_max (a b : UInt64) : (max a b).toNat = max a.toNat b.toNat := by
  rw [show max a b = if a ≤ b then b else a from rfl]
  by_cases h : a ≤ b
  · rw [if_pos h, Nat.max_eq_right (UInt64.le_iff_toNat_le.mp h)]
  · have hlt := UInt64.le_iff_toNat_le.not.mp h
    rw [if_neg h, Nat.max_eq_left (by omega)]

/-- The reflection about a pivot, which neither subtraction nor the addition leaves 64 bits for. -/
theorem partner_eq {m pivot x : UInt64} (hp : pivot.toNat < m.toNat) (hx : x.toNat < m.toNat) :
    partner m pivot x =
      some (UInt64.ofNat (Library.SwapOrNot.partner m.toNat pivot.toNat x.toNat)) := by
  have hm := m.toNat_lt
  unfold partner Library.SwapOrNot.partner
  by_cases hle : pivot ≥ x
  · have hle' : x.toNat ≤ pivot.toNat := UInt64.le_iff_toNat_le.mp hle
    rw [if_pos hle, if_pos (show pivot.toNat ≥ x.toNat from hle'), sub, if_pos hle']
    congr 1
    rw [← UInt64.toNat_inj, UInt64.toNat_sub_of_le _ _ hle, toNat_ofNat (by omega)]
  · have hlt : ¬ pivot.toNat ≥ x.toNat := UInt64.le_iff_toNat_le.not.mp hle
    have hsub : (m - x).toNat = m.toNat - x.toNat :=
      UInt64.toNat_sub_of_le _ _ (UInt64.le_iff_toNat_le.mpr (Nat.le_of_lt hx))
    rw [if_neg hle, if_neg hlt, sub, if_pos (Nat.le_of_lt hx), Option.bind_some, add, hsub, if_pos (by omega)]
    congr 1
    rw [← UInt64.toNat_inj, UInt64.toNat_add, hsub, toNat_ofNat (by omega),
      Nat.mod_eq_of_lt (by omega)]

theorem round_eq (seed : UInt32) {m x : UInt64} (i : UInt32) (hx : x.toNat < m.toNat) :
    round seed m i x = some (UInt64.ofNat (Queue.round seed m.toNat i.toNat x.toNat)) := by
  have hm := m.toNat_lt
  have hpivot : (splitmix seed (2 * UInt64.ofNat i.toNat) % m).toNat =
      pivotOf seed m.toNat i.toNat := by
    rw [UInt64.toNat_mod]
    rfl
  have hlt : (splitmix seed (2 * UInt64.ofNat i.toNat) % m).toNat < m.toNat := by
    rw [hpivot]
    exact Nat.mod_lt _ (by omega)
  have hpartner : Library.SwapOrNot.partner m.toNat (pivotOf seed m.toNat i.toNat) x.toNat < m.toNat :=
    partner_lt (by omega) hx
  have hhigh : ∀ other, other < 2 ^ 64 →
      max x (UInt64.ofNat other) = UInt64.ofNat (max x.toNat other) := by
    intro other hother
    rw [← UInt64.toNat_inj, toNat_max, toNat_ofNat hother, toNat_ofNat (by omega)]
  unfold round
  simp only [mul_two, add_one, partner_eq hlt hx, hpivot, hhigh _ (Nat.lt_trans hpartner hm),
    Option.bind_eq_bind, Option.bind_some, Option.pure_def]
  unfold Queue.round swap coinOf
  split
  · rfl
  · rw [UInt64.ofNat_toNat]

theorem round_lt (seed : UInt32) {m x : UInt64} (i : UInt32) (hx : x < m) :
    ∃ y, round seed m i x = some y ∧ y < m ∧
      y.toNat = Queue.round seed m.toNat i.toNat x.toNat := by
  have hx' := UInt64.lt_iff_toNat_lt.mp hx
  have hm := m.toNat_lt
  have hlt := Queue.round_lt seed i.toNat x.toNat hx'
  have hnat := toNat_ofNat (Nat.lt_trans hlt hm)
  exact ⟨_, round_eq seed i hx', UInt64.lt_iff_toNat_lt.mpr (by rw [hnat]; exact hlt), hnat⟩

/-! ### All rounds -/

/-- Rounds in any order. -/
theorem foldlM_eq (seed : UInt32) {m : UInt64} (order : List Nat) (hsmall : ∀ i ∈ order, i < 2 ^ 32)
    {x : UInt64} (hx : x < m) :
    ∃ y, order.foldlM (fun x i => round seed m (UInt32.ofNat i) x) x = some y ∧ y < m ∧
      y.toNat = order.foldl (fun x i => Queue.round seed m.toNat i x) x.toNat := by
  induction order generalizing x with
  | nil => exact ⟨x, rfl, hx, rfl⟩
  | cons i rest ih =>
    obtain ⟨y, hround, hy, hnat⟩ := round_lt seed (UInt32.ofNat i) hx
    obtain ⟨z, hrest, hz, hznat⟩ := ih (fun j hj => hsmall j (List.mem_cons_of_mem _ hj)) hy
    rw [UInt32.toNat_ofNat_of_lt' (hsmall i List.mem_cons_self)] at hnat
    refine ⟨z, ?_, hz, ?_⟩
    · rw [List.foldlM_cons, hround]
      exact hrest
    · rw [hznat, hnat, List.foldl_cons]

theorem bits_le {n : Nat} (h : n < 2 ^ 64) : bits n ≤ 64 := by
  unfold bits
  split
  · omega
  · next hne =>
    have := (Nat.log2_lt hne).mpr h
    omega

theorem rounds_eq (m : UInt64) :
    rounds m = some (Queue.rounds m.toNat) ∧ Queue.rounds m.toNat < 2 ^ 32 := by
  have hsub : (saturatingSub m 1).toNat = m.toNat - 1 := by
    unfold saturatingSub
    by_cases h : (1 : UInt64).toNat ≤ m.toNat
    · rw [if_pos h, UInt64.toNat_sub_of_le _ _ (UInt64.le_iff_toNat_le.mpr h)]
      rfl
    · rw [if_neg h]
      have h1 : (1 : UInt64).toNat = 1 := rfl
      rw [show (0 : UInt64).toNat = 0 from rfl]
      omega
  have hbits := bits_le (n := m.toNat - 1) (by have := m.toNat_lt; omega)
  have hzeros : 64 - (64 - bits (m.toNat - 1)) = bits (m.toNat - 1) := by omega
  unfold rounds Queue.rounds leadingZeros
  simp only [hsub, hzeros]
  refine ⟨if_pos ?_, ?_⟩ <;> omega

theorem permute_eq (seed : UInt32) {m x : UInt64} (hx : x < m) :
    ∃ y, permute seed m x = some y ∧ y < m ∧ y.toNat = Queue.permute seed m.toNat x.toNat := by
  have htwo : m < 2 ↔ m.toNat < 2 := UInt64.lt_iff_toNat_lt
  obtain ⟨hrounds, hsmall⟩ := rounds_eq m
  unfold permute permuteWith Queue.permute
  rw [hrounds, Option.bind_some]
  by_cases h : m < 2
  · rw [if_pos h, if_pos (htwo.mp h)]
    exact ⟨x, rfl, hx, rfl⟩
  · rw [if_neg h, if_neg (htwo.not.mp h)]
    refine foldlM_eq seed _ ?_ hx
    intro i hi
    exact Nat.lt_trans (List.mem_range.mp hi) hsmall

theorem unpermute_eq (seed : UInt32) {m y : UInt64} (hy : y < m) :
    ∃ x, unpermute seed m y = some x ∧ x < m ∧
      x.toNat = Queue.unpermute seed m.toNat y.toNat := by
  have htwo : m < 2 ↔ m.toNat < 2 := UInt64.lt_iff_toNat_lt
  obtain ⟨hrounds, hsmall⟩ := rounds_eq m
  unfold unpermute unpermuteWith Queue.unpermute
  rw [hrounds, Option.bind_some]
  by_cases h : m < 2
  · rw [if_pos h, if_pos (htwo.mp h)]
    exact ⟨y, rfl, hy, rfl⟩
  · rw [if_neg h, if_neg (htwo.not.mp h)]
    refine foldlM_eq seed _ ?_ hy
    intro i hi
    exact Nat.lt_trans (List.mem_range.mp (List.mem_reverse.mp hi)) hsmall

/-- In 64 bits, for every size and position below it: no step overflows, each round is its own
inverse, and the shuffle and its inverse undo each other both ways. -/
theorem permutation_inverts (seed : UInt32) (m x : UInt64) (hx : x < m) :
    (∃ y, permute seed m x = some y ∧ y < m ∧ unpermute seed m y = some x) ∧
    (∃ y, unpermute seed m x = some y ∧ y < m ∧ permute seed m y = some x) ∧
    ∀ i, ∃ y, round seed m i x = some y ∧ y < m ∧ round seed m i y = some x := by
  have hx' := UInt64.lt_iff_toNat_lt.mp hx
  refine ⟨?_, ?_, ?_⟩
  · obtain ⟨y, hpermute, hy, hnat⟩ := permute_eq seed hx
    obtain ⟨z, hunpermute, -, hback⟩ := unpermute_eq seed hy
    rw [hnat, unpermute_permute seed hx'] at hback
    exact ⟨y, hpermute, hy, UInt64.toNat_inj.mp hback ▸ hunpermute⟩
  · obtain ⟨y, hunpermute, hy, hnat⟩ := unpermute_eq seed hx
    obtain ⟨z, hpermute, -, hback⟩ := permute_eq seed hy
    rw [hnat, permute_unpermute seed hx'] at hback
    exact ⟨y, hunpermute, hy, UInt64.toNat_inj.mp hback ▸ hpermute⟩
  · intro i
    obtain ⟨y, hround, hy, hnat⟩ := round_lt seed i hx
    obtain ⟨z, hagain, -, hback⟩ := round_lt seed i hy
    rw [hnat, round_round seed i.toNat x.toNat hx'] at hback
    exact ⟨y, hround, hy, UInt64.toNat_inj.mp hback ▸ hagain⟩

theorem permutation_inverts_top :
    (18446744073709551614 : UInt64) < 18446744073709551615 ∧
    ∃ y, permute 7 18446744073709551615 18446744073709551614 = some y ∧
      y < 18446744073709551615 ∧
        unpermute 7 18446744073709551615 y = some 18446744073709551614 :=
  ⟨by decide, (permutation_inverts 7 18446744073709551615 18446744073709551614 (by decide)).1⟩

end JewelCase.Queue.Words
