import Mathlib.Algebra.GroupWithZero.Nat
import Mathlib.Data.List.Basic

/-!
# Intervals

Lists of half-open intervals of naturals, ascending and apart, and what it is for such a list to
be the stretches of a range where a predicate holds.
-/
namespace JewelCase.Library

set_option autoImplicit false

/-- Intervals inside `lo..hi`, ascending, apart and none of them empty. -/
def Intervals (lo hi : Nat) : List (Nat × Nat) → Prop
  | [] => True
  | x :: xs => lo ≤ x.1 ∧ x.1 < x.2 ∧ x.2 ≤ hi ∧ Intervals x.2 hi xs

/-- Whether an interval of the list holds `i`. -/
def Covers (xs : List (Nat × Nat)) (i : Nat) : Prop := ∃ x ∈ xs, x.1 ≤ i ∧ i < x.2

instance (xs : List (Nat × Nat)) (i : Nat) : Decidable (Covers xs i) :=
  inferInstanceAs (Decidable (∃ x ∈ xs, _))

@[simp] theorem covers_nil (i : Nat) : ¬ Covers [] i := by simp [Covers]

@[simp] theorem covers_cons (x : Nat × Nat) (xs : List (Nat × Nat)) (i : Nat) :
    Covers (x :: xs) i ↔ (x.1 ≤ i ∧ i < x.2) ∨ Covers xs i := by
  simp [Covers]

theorem Intervals.mono {lo lo' hi : Nat} {xs : List (Nat × Nat)} (h : Intervals lo hi xs)
    (hle : lo' ≤ lo) : Intervals lo' hi xs := by
  cases xs with
  | nil => trivial
  | cons x xs => exact ⟨Nat.le_trans hle h.1, h.2⟩

theorem Intervals.mem {lo hi : Nat} {xs : List (Nat × Nat)} (h : Intervals lo hi xs)
    {x : Nat × Nat} (hx : x ∈ xs) : lo ≤ x.1 ∧ x.1 < x.2 ∧ x.2 ≤ hi := by
  induction xs generalizing lo with
  | nil => cases hx
  | cons y ys ih =>
    rcases List.mem_cons.mp hx with rfl | hx
    · exact ⟨h.1, h.2.1, h.2.2.1⟩
    · have := ih h.2.2.2 hx
      exact ⟨by have := h.1; have := h.2.1; omega, this.2⟩

theorem Intervals.pairwise {lo hi : Nat} {xs : List (Nat × Nat)} (h : Intervals lo hi xs) :
    xs.Pairwise (fun a b => a.2 ≤ b.1) := by
  induction xs generalizing lo with
  | nil => exact List.Pairwise.nil
  | cons x xs ih => exact List.pairwise_cons.mpr ⟨fun y hy => (h.2.2.2.mem hy).1, ih h.2.2.2⟩

/-- The intervals are the stretches of `lo..hi` where `p` holds. -/
structure Cover (p : Nat → Prop) (lo hi : Nat) (xs : List (Nat × Nat)) : Prop where
  intervals : Intervals lo hi xs
  covers : ∀ i, Covers xs i ↔ lo ≤ i ∧ i < hi ∧ p i

variable {p : Nat → Prop} {lo hi : Nat} {xs : List (Nat × Nat)}

/-- Nothing to cover. -/
theorem Cover.nil (h : ∀ i, lo ≤ i → i < hi → ¬ p i) : Cover p lo hi [] := by
  refine ⟨trivial, fun i => iff_of_false (covers_nil i) ?_⟩
  rintro ⟨h1, h2, h3⟩
  exact h i h1 h2 h3

/-- A stretch where `p` fails comes first. -/
theorem Cover.skip {mid : Nat} (h : Cover p mid hi xs) (hle : lo ≤ mid)
    (hno : ∀ i, lo ≤ i → i < mid → i < hi → ¬ p i) : Cover p lo hi xs := by
  refine ⟨h.intervals.mono hle, fun i => (h.covers i).trans ?_⟩
  constructor
  · exact fun hi => ⟨Nat.le_trans hle hi.1, hi.2⟩
  · rintro ⟨h1, h2, h3⟩
    refine ⟨?_, h2, h3⟩
    by_contra hlt
    exact hno i h1 (by omega) h2 h3

/-- A stretch where `p` holds comes first. -/
theorem Cover.cons {mid : Nat} (h : Cover p mid hi xs) (hlt : lo < mid) (hle : mid ≤ hi)
    (hyes : ∀ i, lo ≤ i → i < mid → p i) : Cover p lo hi ((lo, mid) :: xs) := by
  refine ⟨⟨Nat.le_refl _, hlt, hle, h.intervals⟩, fun i => ?_⟩
  rw [covers_cons, h.covers]
  constructor
  · rintro (⟨h1, h2⟩ | ⟨h1, h2, h3⟩)
    · exact ⟨h1, by omega, hyes i h1 h2⟩
    · exact ⟨by omega, h2, h3⟩
  · rintro ⟨h1, h2, h3⟩
    by_cases hm : i < mid
    · exact Or.inl ⟨h1, hm⟩
    · exact Or.inr ⟨by omega, h2, h3⟩

theorem Cover.congr {p' : Nat → Prop} (h : Cover p lo hi xs)
    (hp : ∀ i, lo ≤ i → i < hi → (p i ↔ p' i)) : Cover p' lo hi xs := by
  refine ⟨h.intervals, fun i => (h.covers i).trans ?_⟩
  constructor
  · exact fun hi => ⟨hi.1, hi.2.1, (hp i hi.1 hi.2.1).mp hi.2.2⟩
  · exact fun hi => ⟨hi.1, hi.2.1, (hp i hi.1 hi.2.1).mpr hi.2.2⟩

/-! ### Stretches apart -/

/-- No two intervals that touch. -/
def Separate (xs : List (Nat × Nat)) : Prop := xs.Pairwise fun a b => a.2 < b.1

theorem Cover.tail {x : Nat × Nat} (h : Cover p lo hi (x :: xs)) : Cover p x.2 hi xs := by
  obtain ⟨hlo, hpos, hhi, hrest⟩ := h.intervals
  refine ⟨hrest, fun i => ?_⟩
  have hcovers := h.covers i
  rw [covers_cons] at hcovers
  constructor
  · intro hi
    obtain ⟨y, hy, hy1, hy2⟩ := hi
    have hbound := hrest.mem hy
    have := hcovers.mp (.inr ⟨y, hy, hy1, hy2⟩)
    exact ⟨by omega, this.2⟩
  · rintro ⟨hge, hlt, hp⟩
    obtain hin | hin := hcovers.mpr ⟨by omega, hlt, hp⟩
    · omega
    · exact hin

/-- The first interval is where what is covered begins. -/
theorem Cover.first_le {x : Nat × Nat} (h : Cover p lo hi (x :: xs)) {i : Nat}
    (hi : Covers (x :: xs) i) : x.1 ≤ i := by
  obtain ⟨hlo, hpos, hhi, hrest⟩ := h.intervals
  rw [covers_cons] at hi
  obtain ⟨hge, -⟩ | ⟨y, hy, hy1, -⟩ := hi
  · exact hge
  · have := (hrest.mem hy).1
    omega

theorem Cover.first_covers {x : Nat × Nat} (h : Cover p lo hi (x :: xs)) : Covers (x :: xs) x.1 :=
  (covers_cons x xs x.1).mpr (.inl ⟨Nat.le_refl _, h.intervals.2.1⟩)

theorem Cover.stop_le {x y : Nat × Nat} {ys : List (Nat × Nat)} (hx : Cover p lo hi (x :: xs))
    (hy : Cover p lo hi (y :: ys)) (hsep : Separate (x :: xs)) (hfirst : y.1 = x.1) :
    y.2 ≤ x.2 := by
  by_contra hlt
  have hpos := hx.intervals.2.1
  have hin : Covers (y :: ys) x.2 := (covers_cons y ys x.2).mpr (.inl ⟨by omega, by omega⟩)
  have hout := (hx.covers x.2).mpr ((hy.covers x.2).mp hin)
  rw [covers_cons] at hout
  obtain ⟨-, hself⟩ | ⟨z, hz, hz1, -⟩ := hout
  · omega
  · have := (List.pairwise_cons.mp hsep).1 z hz
    omega

/-- **Stretches that do not touch are determined by what they cover.** -/
theorem Cover.unique {ys : List (Nat × Nat)} (hx : Cover p lo hi xs) (hy : Cover p lo hi ys)
    (hsepx : Separate xs) (hsepy : Separate ys) : xs = ys := by
  induction xs generalizing lo ys with
  | nil =>
    cases ys with
    | nil => rfl
    | cons y ys =>
      have hin := (hx.covers y.1).mpr ((hy.covers y.1).mp hy.first_covers)
      exact absurd hin (covers_nil y.1)
  | cons x xs ih =>
    cases ys with
    | nil =>
      have hin := (hy.covers x.1).mpr ((hx.covers x.1).mp hx.first_covers)
      exact absurd hin (covers_nil x.1)
    | cons y ys =>
      have hxy := hx.first_le ((hx.covers y.1).mpr ((hy.covers y.1).mp hy.first_covers))
      have hyx := hy.first_le ((hy.covers x.1).mpr ((hx.covers x.1).mp hx.first_covers))
      have hfirst : x.1 = y.1 := Nat.le_antisymm hxy hyx
      have hstop : x.2 = y.2 := Nat.le_antisymm (hy.stop_le hx hsepy hfirst)
        (hx.stop_le hy hsepx hfirst.symm)
      obtain rfl : x = y := Prod.ext hfirst hstop
      rw [ih hx.tail hy.tail (List.pairwise_cons.mp hsepx).2 (List.pairwise_cons.mp hsepy).2]

end JewelCase.Library

/-!
## Blocks of addresses

The addresses that share a prefix with a block's first one, over words of any width.
-/
namespace JewelCase.Library

set_option autoImplicit false

/-- The addresses whose first `length` bits are those of `first`. -/
structure Block (w : Nat) where
  first : BitVec w
  length : Nat
deriving DecidableEq, Repr

variable {w : Nat}

def Block.Contains (block : Block w) (address : BitVec w) : Prop :=
  address >>> (w - block.length) = block.first >>> (w - block.length)

instance (block : Block w) (address : BitVec w) : Decidable (block.Contains address) :=
  inferInstanceAs (Decidable (_ = _))

theorem Block.contains_iff {block : Block w} {address : BitVec w} :
    block.Contains address ↔
      address.toNat / 2 ^ (w - block.length) = block.first.toNat / 2 ^ (w - block.length) := by
  unfold Block.Contains
  rw [← BitVec.toNat_inj, BitVec.toNat_ushiftRight, BitVec.toNat_ushiftRight,
    Nat.shiftRight_eq_div_pow, Nat.shiftRight_eq_div_pow]

/-- A block of one address. -/
theorem Block.contains_whole {first address : BitVec w} :
    (⟨first, w⟩ : Block w).Contains address ↔ address = first := by
  rw [Block.contains_iff]
  simp only [Nat.sub_self, Nat.pow_zero, Nat.div_one]
  exact BitVec.toNat_inj

/-- A block among wider addresses, those that start with `high`. -/
def Block.under {v : Nat} (high : BitVec v) (block : Block w) : Block (v + w) :=
  ⟨high ++ block.first, v + block.length⟩

/-- Wider addresses are in a block if they start with `high` and end in one of the block. -/
theorem Block.contains_under {v : Nat} {high : BitVec v} {block : Block w} {address : BitVec (v + w)}
    (h : block.length ≤ w) : (block.under high).Contains address ↔
      address.toNat / 2 ^ w = high.toNat ∧ block.Contains (address.setWidth w) := by
  have hbits : v + w - (v + block.length) = w - block.length := by omega
  have hfirst : (high ++ block.first).toNat = high.toNat * 2 ^ w + block.first.toNat := by
    rw [BitVec.toNat_append, Nat.shiftLeft_eq, Nat.mul_comm,
      Nat.two_pow_add_eq_or_of_lt block.first.isLt]
  have hpow : 2 ^ w = 2 ^ block.length * 2 ^ (w - block.length) := by
    rw [← Nat.pow_add]
    congr 1
    omega
  have hpos : 0 < 2 ^ (w - block.length) := Nat.two_pow_pos _
  have hsplit : ∀ high low : Nat, (high * 2 ^ w + low) / 2 ^ (w - block.length) =
      high * 2 ^ block.length + low / 2 ^ (w - block.length) := by
    intro high low
    rw [hpow, ← Nat.mul_assoc, Nat.add_comm, Nat.add_mul_div_right _ _ hpos, Nat.add_comm]
  have hlow : ∀ low < 2 ^ w, low / 2 ^ (w - block.length) < 2 ^ block.length := by
    intro low hlt
    rw [Nat.div_lt_iff_lt_mul hpos, ← hpow]
    exact hlt
  have haddress : address.toNat = address.toNat / 2 ^ w * 2 ^ w + address.toNat % 2 ^ w :=
    (Nat.div_add_mod' _ _).symm
  rw [contains_iff, contains_iff, under]
  simp only
  rw [hbits, hfirst, hsplit, BitVec.toNat_setWidth]
  rw [haddress, hsplit, ← haddress]
  have hends := hlow _ (Nat.mod_lt address.toNat (Nat.two_pow_pos w))
  have hfirst := hlow _ block.first.isLt
  constructor
  · intro heq
    have hmod := congrArg (· % 2 ^ block.length) heq
    have hdiv := congrArg (· / 2 ^ block.length) heq
    simp only [Nat.mul_add_mod_self_right, Nat.mod_eq_of_lt hends, Nat.mod_eq_of_lt hfirst] at hmod
    simp only [Nat.mul_comm _ (2 ^ block.length), Nat.mul_add_div (Nat.two_pow_pos block.length),
      Nat.div_eq_of_lt hends, Nat.div_eq_of_lt hfirst, Nat.add_zero] at hdiv
    exact ⟨hdiv, hmod⟩
  · rintro ⟨hhigh, hblock⟩
    rw [hhigh, hblock]

end JewelCase.Library
