import Mathlib.Algebra.GroupWithZero.Nat
import Mathlib.Data.List.Induction
import Mathlib.Data.Nat.Notation

/-!
# Numbers and lists of numbers in order

Lists of numbers compare by the first numbers that differ, and a list before those that go on from
it. Starts of one length decide first, and then what follows them.
-/
namespace JewelCase.Library.Lexical

set_option autoImplicit false

/-- How two numbers compare. -/
def order (m n : Nat) : Ordering := compareOfLessAndEq m n

theorem order_lt {m n : Nat} (h : m < n) : order m n = .lt := if_pos h

@[simp] theorem order_self (n : Nat) : order n n = .eq := by
  rw [order, compareOfLessAndEq, if_neg (Nat.lt_irrefl n), if_pos rfl]

theorem order_gt {m n : Nat} (h : n < m) : order m n = .gt := by
  rw [order, compareOfLessAndEq, if_neg (Nat.lt_asymm h), if_neg (Nat.ne_of_gt h)]

theorem order_add (k m n : Nat) : order (k + m) (k + n) = order m n := by
  rcases Nat.lt_trichotomy m n with hlt | rfl | hgt
  · rw [order_lt hlt, order_lt (by omega)]
  · rw [order_self, order_self]
  · rw [order_gt hgt, order_gt (by omega)]

/-- A leading part decides, and then what follows it. -/
theorem order_lead {k a b u v : Nat} (hu : u < k) (hv : v < k) :
    order (k * a + u) (k * b + v) = (order a b).then (order u v) := by
  rcases Nat.lt_trichotomy a b with hlt | rfl | hgt
  · have hmul := Nat.mul_le_mul_left k (Nat.succ_le_iff.mpr hlt)
    rw [Nat.mul_succ] at hmul
    rw [order_lt hlt, order_lt (by omega), Ordering.lt_then]
  · rw [order_self, Ordering.eq_then, order_add]
  · have hmul := Nat.mul_le_mul_left k (Nat.succ_le_iff.mpr hgt)
    rw [Nat.mul_succ] at hmul
    rw [order_gt hgt, order_gt (by omega), Ordering.gt_then]

/-- How two lists of numbers compare. -/
def lexOrder (xs ys : List Nat) : Ordering := List.compareLex order xs ys

theorem lexOrder_cons (x y : Nat) (xs ys : List Nat) :
    lexOrder (x :: xs) (y :: ys) = (order x y).then (lexOrder xs ys) :=
  List.compareLex_cons_cons

/-- Starts of one length decide, and then what follows them. -/
theorem lexOrder_append {xs ys : List Nat} (h : xs.length = ys.length) (xs' ys' : List Nat) :
    lexOrder (xs ++ xs') (ys ++ ys') = (lexOrder xs ys).then (lexOrder xs' ys') := by
  induction xs generalizing ys with
  | nil =>
    obtain rfl := List.length_eq_zero_iff.mp h.symm
    rfl
  | cons x xs ih =>
    cases ys with
    | nil => cases h
    | cons y ys =>
      rw [List.cons_append, List.cons_append, lexOrder_cons, lexOrder_cons, ih (Nat.succ.inj h),
        Ordering.then_assoc]

end JewelCase.Library.Lexical

/-!
## Decimal digits

The number a text of digits writes. A text without a leading zero is the one its number is printed
as, and texts of one length compare as their numbers do.
-/
namespace JewelCase.Library.Decimal

open JewelCase.Library.Lexical

set_option autoImplicit false

/-- The number that `digits` writes. -/
def value (digits : List Char) : Nat := Nat.ofDigitChars 10 digits 0

/-- Whether every character is an ASCII digit. -/
def AllDigits (text : List Char) : Prop := ∀ c ∈ text, c.isDigit = true

variable {c : Char} {digits others : List Char}

theorem isDigit_iff : c.isDigit = true ↔ 48 ≤ c.toNat ∧ c.toNat ≤ 57 := by
  unfold Char.isDigit
  rw [Bool.and_eq_true, decide_eq_true_eq, decide_eq_true_eq]
  exact Iff.rfl

/-- The digit that a character is. -/
def digit (c : Char) : Nat := c.toNat - 48

theorem digit_lt (h : c.isDigit = true) : digit c < 10 := by
  have := isDigit_iff.1 h
  unfold digit
  omega

theorem digitChar_digit (h : c.isDigit = true) : Nat.digitChar (digit c) = c := by
  have hbounds := isDigit_iff.1 h
  apply Char.toNat_inj.mp
  rw [Nat.toNat_digitChar_of_lt_ten (digit_lt h), digit]
  omega

@[simp] theorem value_nil : value [] = 0 := Nat.ofDigitChars_nil

theorem value_append (digits others : List Char) :
    value (digits ++ others) = 10 ^ others.length * value digits + value others := by
  rw [value, Nat.ofDigitChars_append, Nat.ofDigitChars_eq_ofDigitChars_zero]
  rfl

theorem value_singleton (c : Char) : value [c] = digit c := by
  rw [value, Nat.ofDigitChars_cons, Nat.ofDigitChars_nil, Nat.mul_zero, Nat.zero_add]
  rfl

theorem value_cons (c : Char) (digits : List Char) :
    value (c :: digits) = 10 ^ digits.length * digit c + value digits := by
  rw [← List.singleton_append, value_append, value_singleton]

theorem value_concat (digits : List Char) (c : Char) :
    value (digits ++ [c]) = 10 * value digits + digit c := by
  rw [value_append, value_singleton]
  rfl

theorem value_lt (h : AllDigits digits) : value digits < 10 ^ digits.length := by
  induction digits with
  | nil => decide
  | cons c digits ih =>
    obtain ⟨hc, hrest⟩ := List.forall_mem_cons.mp h
    have hdigit := digit_lt hc
    have hlt := ih hrest
    rw [value_cons, List.length_cons, Nat.pow_succ]
    have hmul := Nat.mul_le_mul_left (10 ^ digits.length) (Nat.succ_le_iff.mpr hdigit)
    rw [Nat.mul_succ] at hmul
    omega

/-- A text of digits that does not begin with a zero writes no smaller number than its length
allows. -/
theorem le_value (hc : c.isDigit = true) (hzero : c ≠ '0') (digits : List Char) :
    10 ^ digits.length ≤ value (c :: digits) := by
  have hpos : 1 ≤ digit c := by
    have hbounds := isDigit_iff.1 hc
    have hne : c.toNat ≠ 48 := fun he => hzero (Char.toNat_inj.mp he)
    unfold digit
    omega
  rw [value_cons]
  have hmul := Nat.mul_le_mul_left (10 ^ digits.length) hpos
  omega

/-! ### Printing -/

theorem allDigits_toDigits (n : Nat) : AllDigits (Nat.toDigits 10 n) := fun _ hc =>
  Nat.isDigit_of_mem_toDigits (by decide) (by decide) hc

theorem value_toDigits (n : Nat) : value (Nat.toDigits 10 n) = n :=
  Nat.ofDigitChars_toDigits (by decide) (by decide)

/-- **Without a leading zero, digits are what their number is printed as.** -/
theorem toDigits_value (hc : c.isDigit = true) (hzero : c ≠ '0') (h : AllDigits digits) :
    Nat.toDigits 10 (value (c :: digits)) = c :: digits := by
  induction digits using List.reverseRecOn with
  | nil =>
    rw [value_singleton, Nat.toDigits_of_lt_base (digit_lt hc), digitChar_digit hc]
  | append_singleton digits d ih =>
    have hd := h d (List.mem_append_right _ (List.mem_singleton.mpr rfl))
    have hpos : 0 < value (c :: digits) :=
      Nat.lt_of_lt_of_le (Nat.pow_pos (by decide)) (le_value hc hzero digits)
    rw [← List.cons_append, value_concat,
      ← Nat.toDigits_append_toDigits (by decide) hpos (digit_lt hd),
      ih fun x hx => h x (List.mem_append_left _ hx), Nat.toDigits_of_lt_base (digit_lt hd),
      digitChar_digit hd]

/-- A positive number is printed without a leading zero. -/
theorem toDigits_head {n : Nat} (h : 0 < n) : (Nat.toDigits 10 n).head? ≠ some '0' := by
  intro hhead
  obtain ⟨rest, hrest⟩ := List.head?_eq_some_iff.mp hhead
  have hlen : n < 10 ^ rest.length := by
    have hall := allDigits_toDigits n
    rw [hrest] at hall
    have hlt := value_lt (List.forall_mem_cons.mp hall).2
    have hvalue := value_toDigits n
    rw [hrest, value_cons, show digit '0' = 0 from rfl, Nat.mul_zero, Nat.zero_add] at hvalue
    omega
  by_cases hnil : rest.length = 0
  · rw [hnil] at hlen
    omega
  · have hle := (Nat.length_toDigits_le_iff (by decide) (Nat.pos_of_ne_zero hnil)).mpr hlen
    rw [hrest, List.length_cons] at hle
    omega

/-! ### Digits of one length -/

/-- A number's digits after as many zeros as make them `width` long. -/
def padded (width n : Nat) : List Char :=
  List.replicate (width - (Nat.toDigits 10 n).length) '0' ++ Nat.toDigits 10 n

theorem allDigits_padded (width n : Nat) : AllDigits (padded width n) := by
  intro c hc
  rcases List.mem_append.mp hc with hc | hc
  · rw [(List.mem_replicate.mp hc).2]
    decide
  · exact allDigits_toDigits n c hc

theorem value_padded (width n : Nat) : value (padded width n) = n := by
  have hzeros : ∀ k, value (List.replicate k '0') = 0 := by
    intro k
    induction k with
    | zero => rfl
    | succ k ih =>
      rw [List.replicate_succ, value_cons, ih, show digit '0' = 0 from rfl, Nat.mul_zero]
  rw [padded, value_append, hzeros, value_toDigits, Nat.mul_zero, Nat.zero_add]

theorem length_padded {width n : Nat} (hwidth : 0 < width) (h : n < 10 ^ width) :
    (padded width n).length = width := by
  have hle := (Nat.length_toDigits_le_iff (by decide) hwidth).mpr h
  rw [padded, List.length_append, List.length_replicate]
  omega

/-- **Digits of one length compare as their numbers do.** -/
theorem lexOrder_digits (h : AllDigits digits) (h' : AllDigits others)
    (hlen : digits.length = others.length) :
    lexOrder (digits.map Char.toNat) (others.map Char.toNat) =
      order (value digits) (value others) := by
  induction digits generalizing others with
  | nil =>
    obtain rfl := List.length_eq_zero_iff.mp hlen.symm
    rfl
  | cons c digits ih =>
    cases others with
    | nil => cases hlen
    | cons d others =>
      obtain ⟨hc, hdigits⟩ := List.forall_mem_cons.mp h
      obtain ⟨hd, hothers⟩ := List.forall_mem_cons.mp h'
      have hlen' := Nat.succ.inj hlen
      have hdigit : order c.toNat d.toNat = order (digit c) (digit d) := by
        have hcs : c.toNat = 48 + digit c := by
          have := isDigit_iff.1 hc
          unfold digit
          omega
        have hds : d.toNat = 48 + digit d := by
          have := isDigit_iff.1 hd
          unfold digit
          omega
        rw [hcs, hds, order_add]
      have hlt := value_lt hdigits
      have hlt' := value_lt hothers
      rw [← hlen'] at hlt'
      rw [List.map_cons, List.map_cons, lexOrder_cons, ih hdigits hothers hlen', value_cons,
        value_cons, ← hlen', order_lead hlt hlt', hdigit]

end JewelCase.Library.Decimal
