import Mathlib.Data.List.Basic

/-!
# Codes that say where they end

A code writes a value as a word, and reads one from the front of an input, with what is left. In a
prefix code a word is read back whatever follows it, and nothing but words is read. A number of
values, written one after another, is a prefix code again.
-/
namespace JewelCase.Library

set_option autoImplicit false

variable {α β : Type} {write : α → Option (List β)} {read : List β → Option (α × List β)}

/-- Words are read back whatever follows, and only words are read. -/
structure PrefixCode (write : α → Option (List β)) (read : List β → Option (α × List β)) :
    Prop where
  read_write : ∀ {a word}, write a = some word → ∀ rest, read (word ++ rest) = some (a, rest)
  write_read : ∀ {input a rest}, read input = some (a, rest) →
    ∃ word, write a = some word ∧ input = word ++ rest

namespace PrefixCode

end PrefixCode

/-! ### Values one after another -/

/-- Reads `n` values. -/
def readMany (read : List β → Option (α × List β)) : Nat → List β → Option (List α × List β)
  | 0, input => some ([], input)
  | n + 1, input => do
    let (a, input) ← read input
    let (as, input) ← readMany read n input
    return (a :: as, input)

/-- Whether writing a value only adds its word to what is written. -/
def Adds (put : List β → α → Option (List β)) : Prop :=
  ∀ out a, put out a = (put [] a).map (out ++ ·)

variable {put : List β → α → Option (List β)}

theorem Adds.foldlM (h : Adds put) (out : List β) (as : List α) :
    as.foldlM put out = (as.foldlM put []).map (out ++ ·) := by
  induction as generalizing out with
  | nil => exact congrArg some (List.append_nil out).symm
  | cons a as ih =>
    rw [List.foldlM_cons, List.foldlM_cons, h out a]
    cases hword : put [] a with
    | none => rfl
    | some word =>
      rw [Option.map_some, Option.bind_eq_bind, Option.bind_some, Option.bind_some,
        ih (out ++ word), ih word]
      cases as.foldlM put [] with
      | none => rfl
      | some words => exact congrArg some (List.append_assoc ..)

theorem Adds.foldlM_cons (h : Adds put) (a : α) (as : List α) :
    (a :: as).foldlM put [] =
      (put [] a).bind fun word => (as.foldlM put []).map (word ++ ·) := by
  rw [List.foldlM_cons]
  congr 1
  funext word
  exact h.foldlM word as

/-- A list has a word exactly if each of its values has one. -/
theorem Adds.foldlM_isSome (h : Adds put) {as : List α} :
    (as.foldlM put []).isSome ↔ ∀ a ∈ as, (put [] a).isSome := by
  induction as with
  | nil => exact iff_of_true rfl (by simp)
  | cons a as ih =>
    rw [h.foldlM_cons, List.forall_mem_cons, ← ih]
    cases put [] a with
    | none => exact iff_of_false (by simp) (by simp)
    | some word => simp

/-- The values of a list, written one after another, are read back whatever follows. -/
theorem PrefixCode.readMany_foldlM (code : PrefixCode (put []) read) (h : Adds put) {as : List α}
    {word : List β} (hword : as.foldlM put [] = some word) (rest : List β) :
    readMany read as.length (word ++ rest) = some (as, rest) := by
  induction as generalizing word with
  | nil =>
    obtain rfl := Option.some.inj hword
    rfl
  | cons a as ih =>
    rw [h.foldlM_cons] at hword
    obtain ⟨first, hfirst, hword⟩ := Option.bind_eq_some_iff.mp hword
    obtain ⟨words, hwords, rfl⟩ := Option.map_eq_some_iff.mp hword
    rw [List.length_cons, readMany, List.append_assoc, code.read_write hfirst]
    change (readMany read as.length (words ++ rest)).bind _ = _
    rw [ih hwords]
    rfl

/-- Only values written one after another are read. -/
theorem PrefixCode.of_readMany (code : PrefixCode (put []) read) (h : Adds put) {n : Nat}
    {input rest : List β} {as : List α} (hread : readMany read n input = some (as, rest)) :
    as.length = n ∧ ∃ word, as.foldlM put [] = some word ∧ input = word ++ rest := by
  induction n generalizing input as with
  | zero =>
    obtain ⟨rfl, rfl⟩ := Prod.mk.inj (Option.some.inj hread)
    exact ⟨rfl, [], rfl, rfl⟩
  | succ n ih =>
    obtain ⟨⟨a, left⟩, ha, hread⟩ := Option.bind_eq_some_iff.mp hread
    obtain ⟨⟨more, last⟩, hmore, hread⟩ := Option.bind_eq_some_iff.mp hread
    obtain ⟨rfl, rfl⟩ := Prod.mk.inj (Option.some.inj hread)
    obtain ⟨first, hfirst, rfl⟩ := code.write_read ha
    obtain ⟨hlen, words, hwords, rfl⟩ := ih hmore
    refine ⟨congrArg (· + 1) hlen, first ++ words, ?_, (List.append_assoc ..).symm⟩
    rw [h.foldlM_cons, hfirst, Option.bind_some, hwords, Option.map_some]

/-- Where nothing is read from an empty input, no two lists are written alike. -/
theorem PrefixCode.foldlM_inj (code : PrefixCode (put []) read) (h : Adds put)
    (hnil : read [] = none) {as others : List α} {word : List β}
    (hword : as.foldlM put [] = some word) (hother : others.foldlM put [] = some word) :
    as = others := by
  have hempty : ∀ {a}, put [] a ≠ some [] := by
    intro a ha
    have hread := code.read_write ha []
    rw [List.nil_append, hnil] at hread
    cases hread
  have hcons : ∀ {a more}, (a :: more).foldlM put [] ≠ some [] := by
    intro a more hsome
    rw [h.foldlM_cons] at hsome
    obtain ⟨first, hfirst, hsome⟩ := Option.bind_eq_some_iff.mp hsome
    obtain ⟨words, _, heq⟩ := Option.map_eq_some_iff.mp hsome
    obtain ⟨rfl, rfl⟩ := List.append_eq_nil_iff.mp heq
    exact hempty hfirst
  induction as generalizing others word with
  | nil =>
    obtain rfl := Option.some.inj hword
    cases others with
    | nil => rfl
    | cons b others => exact absurd hother hcons
  | cons a as ih =>
    cases others with
    | nil =>
      obtain rfl := Option.some.inj hother
      exact absurd hword hcons
    | cons b others =>
      rw [h.foldlM_cons] at hword hother
      obtain ⟨first, hfirst, hword⟩ := Option.bind_eq_some_iff.mp hword
      obtain ⟨words, hwords, rfl⟩ := Option.map_eq_some_iff.mp hword
      obtain ⟨first', hfirst', hother⟩ := Option.bind_eq_some_iff.mp hother
      obtain ⟨words', hwords', heq⟩ := Option.map_eq_some_iff.mp hother
      have hread := code.read_write hfirst' words'
      rw [heq, code.read_write hfirst words] at hread
      obtain ⟨rfl, rfl⟩ := Prod.mk.inj (Option.some.inj hread)
      rw [ih hwords hwords']

end JewelCase.Library
