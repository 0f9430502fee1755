import Mathlib.Data.List.Basic
import Mathlib.Data.List.Induction
import Mathlib.Data.Nat.Find
import Mathlib.Order.Lattice

/-!
# Optimal string alignment

The distance between two lists when inserting, deleting or changing an item, or swapping two
neighbours, counts one, and no part is edited twice.
-/
namespace JewelCase.Library

set_option autoImplicit false

variable {α : Type}

/-- `xs` and `ys` aligned from the left, with `n` edits. -/
inductive Aligned : List α → List α → Nat → Prop
  | nil : Aligned [] [] 0
  | insert {xs ys : List α} {n : Nat} (b : α) (h : Aligned xs ys n) : Aligned xs (ys ++ [b]) (n + 1)
  | delete {xs ys : List α} {n : Nat} (a : α) (h : Aligned xs ys n) : Aligned (xs ++ [a]) ys (n + 1)
  | keep {xs ys : List α} {n : Nat} (a : α) (h : Aligned xs ys n) :
    Aligned (xs ++ [a]) (ys ++ [a]) n
  | change {xs ys : List α} {n : Nat} (a b : α) (h : Aligned xs ys n) :
    Aligned (xs ++ [a]) (ys ++ [b]) (n + 1)
  | swap {xs ys : List α} {n : Nat} (a b : α) (h : Aligned xs ys n) :
    Aligned (xs ++ [b] ++ [a]) (ys ++ [a] ++ [b]) (n + 1)

namespace Aligned

theorem deleted (xs : List α) : Aligned xs [] xs.length := by
  induction xs using List.reverseRecOn with
  | nil => exact .nil
  | append_singleton xs a ih =>
    rw [List.length_append, List.length_singleton]
    exact .delete a ih

theorem inserted {xs ys : List α} {n : Nat} (h : Aligned xs ys n) (more : List α) :
    Aligned xs (ys ++ more) (n + more.length) := by
  induction more using List.reverseRecOn with
  | nil => simpa using h
  | append_singleton more b ih =>
    rw [List.length_append, List.length_singleton, ← List.append_assoc, ← Nat.add_assoc]
    exact .insert b ih

/-- Each edit changes the length by one at most. -/
theorem length_le {xs ys : List α} {n : Nat} (h : Aligned xs ys n) :
    xs.length ≤ ys.length + n ∧ ys.length ≤ xs.length + n := by
  induction h with
  | nil => simp
  | insert b h ih => simp only [List.length_append, List.length_singleton]; omega
  | delete a h ih => simp only [List.length_append, List.length_singleton]; omega
  | keep a h ih => simp only [List.length_append, List.length_singleton]; omega
  | change a b h ih => simp only [List.length_append, List.length_singleton]; omega
  | swap a b h ih => simp only [List.length_append, List.length_singleton]; omega

/-- Each edit brings one item in at most. -/
theorem count_le [DecidableEq α] {xs ys : List α} {n : Nat} (h : Aligned xs ys n) (c : α) :
    ys.count c ≤ xs.count c + n := by
  have hone : ∀ a : α, List.count c [a] ≤ 1 := fun a => List.count_le_length
  induction h with
  | nil => simp
  | insert b h ih =>
    have hb := hone b
    rw [List.count_append]
    omega
  | delete a h ih =>
    rw [List.count_append]
    omega
  | keep a h ih =>
    rw [List.count_append, List.count_append]
    omega
  | change a b h ih =>
    have hb := hone b
    rw [List.count_append, List.count_append]
    omega
  | swap a b h ih =>
    have hb := hone b
    simp only [List.count_append]
    omega

/-- Edits that all lengthen a list insert into it. -/
theorem sublist {xs ys : List α} {n : Nat} (h : Aligned xs ys n)
    (hlength : ys.length = xs.length + n) : xs.Sublist ys := by
  induction h with
  | nil => exact List.Sublist.refl []
  | insert b h ih =>
    rw [List.length_append, List.length_singleton] at hlength
    exact (ih (by omega)).trans (List.sublist_append_left _ _)
  | delete a h ih =>
    have hle := h.length_le
    simp only [List.length_append, List.length_singleton] at hlength
    omega
  | keep a h ih =>
    simp only [List.length_append, List.length_singleton] at hlength
    exact (ih (by omega)).append (List.Sublist.refl [a])
  | change a b h ih =>
    have hle := h.length_le
    simp only [List.length_append, List.length_singleton] at hlength
    omega
  | swap a b h ih =>
    have hle := h.length_le
    simp only [List.length_append, List.length_singleton] at hlength
    omega

/-- A part of a list is it with the rest inserted. -/
theorem of_sublist {xs ys : List α} (h : xs.Sublist ys) : Aligned xs ys (ys.length - xs.length) := by
  have hreverse : ∀ {xs ys : List α}, xs.Sublist ys →
      Aligned xs.reverse ys.reverse (ys.length - xs.length) := by
    intro xs ys h
    induction h with
    | slnil => exact .nil
    | cons b h ih =>
      have hle := h.length_le
      rw [List.reverse_cons, List.length_cons, Nat.sub_add_comm hle]
      exact .insert b ih
    | cons_cons a h ih =>
      rw [List.reverse_cons, List.reverse_cons, List.length_cons, List.length_cons,
        Nat.add_sub_add_right]
      exact .keep a ih
  simpa using hreverse (List.reverse_sublist.mpr h)

/-- How two lists that end in `a` and `b` are aligned. -/
theorem snoc_cases {xs ys : List α} {a b : α} {n : Nat} (h : Aligned (xs ++ [a]) (ys ++ [b]) n) :
    (∃ m, n = m + 1 ∧ Aligned (xs ++ [a]) ys m) ∨ (∃ m, n = m + 1 ∧ Aligned xs (ys ++ [b]) m) ∨
      (a = b ∧ Aligned xs ys n) ∨ (∃ m, n = m + 1 ∧ Aligned xs ys m) ∨
      ∃ m xs' ys', n = m + 1 ∧ xs = xs' ++ [b] ∧ ys = ys' ++ [a] ∧ Aligned xs' ys' m := by
  generalize hx : xs ++ [a] = left at h
  generalize hy : ys ++ [b] = right at h
  cases h with
  | nil => simp at hx
  | insert b' h =>
    obtain ⟨rfl, -⟩ := List.append_inj' hy rfl
    exact Or.inl ⟨_, rfl, hx ▸ h⟩
  | delete a' h =>
    obtain ⟨rfl, -⟩ := List.append_inj' hx rfl
    exact Or.inr (Or.inl ⟨_, rfl, hy ▸ h⟩)
  | keep c h =>
    obtain ⟨rfl, ha⟩ := List.append_inj' hx rfl
    obtain ⟨rfl, hb⟩ := List.append_inj' hy rfl
    rw [List.singleton_inj] at ha hb
    exact Or.inr (Or.inr (Or.inl ⟨ha.trans hb.symm, h⟩))
  | change a' b' h =>
    obtain ⟨rfl, -⟩ := List.append_inj' hx rfl
    obtain ⟨rfl, -⟩ := List.append_inj' hy rfl
    exact Or.inr (Or.inr (Or.inr (Or.inl ⟨_, rfl, h⟩)))
  | swap a' b' h =>
    obtain ⟨rfl, ha⟩ := List.append_inj' hx rfl
    obtain ⟨rfl, hb⟩ := List.append_inj' hy rfl
    rw [List.singleton_inj] at ha hb
    subst ha hb
    exact Or.inr (Or.inr (Or.inr (Or.inr ⟨_, _, _, rfl, rfl, rfl, h⟩)))

end Aligned

/-! ### The distance -/

theorem exists_aligned (xs ys : List α) : ∃ n, Aligned xs ys n :=
  ⟨_, (Aligned.deleted xs).inserted ys⟩

open Classical in
/-- The least edits that align two lists. -/
noncomputable def osa (xs ys : List α) : Nat := Nat.find (exists_aligned xs ys)

theorem osa_le_iff {xs ys : List α} {n : Nat} : osa xs ys ≤ n ↔ ∃ m ≤ n, Aligned xs ys m := by
  classical
  exact Nat.find_le_iff _ _

theorem aligned_osa (xs ys : List α) : Aligned xs ys (osa xs ys) := by
  classical
  exact Nat.find_spec (exists_aligned xs ys)

theorem osa_le {xs ys : List α} {n : Nat} (h : Aligned xs ys n) : osa xs ys ≤ n :=
  osa_le_iff.2 ⟨n, Nat.le_refl n, h⟩

theorem osa_nil_right (xs : List α) : osa xs [] = xs.length := by
  refine Nat.le_antisymm (osa_le (.deleted xs)) ?_
  have hle := (aligned_osa xs []).length_le.1
  simpa using hle

theorem osa_nil_left (ys : List α) : osa [] ys = ys.length := by
  have hinserted := osa_le (Aligned.nil.inserted ys)
  have hle := (aligned_osa [] ys).length_le.2
  simp only [List.nil_append, List.length_nil, Nat.zero_add] at hinserted hle
  exact Nat.le_antisymm hinserted hle

/-- **The distance of longer lists from that of shorter ones.** -/
theorem osa_snoc_le_iff [DecidableEq α] {xs ys : List α} {a b : α} {n : Nat} :
    osa (xs ++ [a]) (ys ++ [b]) ≤ n ↔
      osa (xs ++ [a]) ys + 1 ≤ n ∨ osa xs (ys ++ [b]) + 1 ≤ n ∨
        osa xs ys + (if a = b then 0 else 1) ≤ n ∨
        ∃ xs' ys', xs = xs' ++ [b] ∧ ys = ys' ++ [a] ∧ osa xs' ys' + 1 ≤ n := by
  constructor
  · intro h
    obtain ⟨m, hm, haligned⟩ := osa_le_iff.1 h
    obtain ⟨k, rfl, hk⟩ | ⟨k, rfl, hk⟩ | ⟨rfl, hk⟩ | ⟨k, rfl, hk⟩ | ⟨k, xs', ys', rfl, hx, hy, hk⟩ :=
      haligned.snoc_cases
    · have hle := osa_le hk
      exact Or.inl (by omega)
    · have hle := osa_le hk
      exact Or.inr (Or.inl (by omega))
    · have hle := osa_le hk
      rw [if_pos rfl]
      exact Or.inr (Or.inr (Or.inl (by omega)))
    · have hle := osa_le hk
      refine Or.inr (Or.inr (Or.inl ?_))
      split <;> omega
    · have hle := osa_le hk
      exact Or.inr (Or.inr (Or.inr ⟨xs', ys', hx, hy, by omega⟩))
  · rintro (h | h | h | ⟨xs', ys', rfl, rfl, h⟩)
    · exact (osa_le (.insert b (aligned_osa _ _))).trans h
    · exact (osa_le (.delete a (aligned_osa _ _))).trans h
    · split_ifs at h with hab
      · subst hab
        exact (osa_le (.keep a (aligned_osa _ _))).trans h
      · exact (osa_le (.change a b (aligned_osa _ _))).trans h
    · exact (osa_le (.swap a b (aligned_osa _ _))).trans h

end JewelCase.Library
