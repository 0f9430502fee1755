import JewelCase.Library.Lists
import Mathlib.Data.List.Chain
import Mathlib.Data.List.Iterate
import Mathlib.Logic.Function.Iterate

/-!
# Stretches of consecutive rows

A stretch is a compact name for `len` rows, each the successor of the one before.
A list of stretches is canonical when none is empty and no two neighbours could be
one stretch; a canonical list is then determined by the rows it stands for. Nothing
here knows what a row is: the successor is a parameter.
-/
namespace JewelCase.Library

set_option autoImplicit false

/-- A type of stretches over rows: a first row and a length determine a stretch. -/
class Stretch (β : Type) (ρ : outParam Type) where
  head : β → ρ
  len : β → Nat
  next : ρ → ρ
  ext : ∀ a b : β, head a = head b → len a = len b → a = b

open JewelCase.Library.Lists (lastN lastN_append length_lastN lastN_of_length_le lastN_suffix)

namespace Stretch

variable {β ρ : Type} [Stretch β ρ]

/-- The rows a stretch stands for. -/
def rows (b : β) : List ρ := List.iterate (next β) (head b) (len b)

/-- The row that would continue a stretch. -/
def after (b : β) : ρ := (next β)^[len b] (head b)

/-- The rows of a list of stretches, in order. -/
def flat (bs : List β) : List ρ := bs.flatMap rows

/-- No stretch is empty, and no stretch is continued by its right neighbour. -/
def Canonical (bs : List β) : Prop :=
  (∀ b ∈ bs, 0 < len b) ∧ bs.IsChain (fun a b => after a ≠ head b)

@[simp] theorem length_rows (b : β) : (rows b).length = len b := List.length_iterate _ _ _

@[simp] theorem flat_nil : flat ([] : List β) = [] := rfl

@[simp] theorem flat_cons (b : β) (bs : List β) : flat (b :: bs) = rows b ++ flat bs := rfl

@[simp] theorem flat_append (as bs : List β) : flat (as ++ bs) = flat as ++ flat bs :=
  List.flatMap_append

theorem flat_singleton (b : β) : flat [b] = rows b := by simp

theorem rows_of_empty {b : β} (h : len b = 0) : rows b = [] := by simp [rows, h, List.iterate]

theorem rows_eq_cons {b : β} (h : 0 < len b) :
    rows b = head b :: List.iterate (next β) (next β (head b)) (len b - 1) := by
  obtain ⟨n, hn⟩ : ∃ n, len b = n + 1 := ⟨len b - 1, by omega⟩
  simp [rows, hn, List.iterate]

theorem getElem?_rows (b : β) (i : Nat) (hi : i < len b) :
    (rows b)[i]? = some ((next β)^[i] (head b)) :=
  List.getElem?_iterate _ _ _ _ hi

theorem length_flat_pos {b : β} {bs : List β} (h : 0 < len b) : flat (b :: bs) ≠ [] := by
  rw [flat_cons, rows_eq_cons h]
  simp

theorem canonical_nil : Canonical ([] : List β) := ⟨by simp, .nil⟩

theorem canonical_singleton {b : β} (h : 0 < len b) : Canonical [b] := ⟨by simpa using h, by simp⟩

theorem Canonical.tail {b : β} {bs : List β} (h : Canonical (b :: bs)) : Canonical bs :=
  ⟨fun c hc => h.1 c (List.mem_cons_of_mem _ hc), (List.isChain_cons.mp h.2).2⟩

theorem Canonical.left {as bs : List β} (h : Canonical (as ++ bs)) : Canonical as :=
  ⟨fun b hb => h.1 b (List.mem_append_left _ hb), h.2.left_of_append⟩

theorem Canonical.right {as bs : List β} (h : Canonical (as ++ bs)) : Canonical bs :=
  ⟨fun b hb => h.1 b (List.mem_append_right _ hb), h.2.right_of_append⟩

theorem Canonical.drop {bs : List β} (h : Canonical bs) (n : Nat) : Canonical (bs.drop n) :=
  ⟨fun b hb => h.1 b (List.mem_of_mem_drop hb), h.2.drop n⟩

/-- Two canonical lists may be joined where the right one does not continue the left one. -/
theorem Canonical.append {as bs : List β} (ha : Canonical as) (hb : Canonical bs)
    (hj : ∀ a ∈ as.getLast?, ∀ b ∈ bs.head?, after a ≠ head b) : Canonical (as ++ bs) := by
  refine ⟨?_, List.isChain_append.mpr ⟨ha.2, hb.2, hj⟩⟩
  intro b hm
  rcases List.mem_append.mp hm with h | h
  · exact ha.1 b h
  · exact hb.1 b h

/-- The row after a stretch, when there is one, does not continue it. -/
theorem Canonical.next_row {b : β} {bs : List β} (h : Canonical (b :: bs)) :
    (flat bs)[0]? ≠ some (after b) := by
  cases bs with
  | nil => simp
  | cons c cs =>
    have hc : 0 < len c := h.1 c (by simp)
    have hne := (List.isChain_cons.mp h.2).1 c (by simp)
    rw [flat_cons, rows_eq_cons hc]
    simpa using Ne.symm hne

private theorem len_le_of_flat_eq {a b : β} {as bs : List β} (ha : Canonical (a :: as))
    (h : flat (a :: as) = flat (b :: bs)) (hh : head a = head b) : len b ≤ len a := by
  by_contra hlt
  have hlt' : len a < len b := by omega
  have hrow : (flat (b :: bs))[len a]? = some (after a) := by
    rw [flat_cons, List.getElem?_append_left (by simpa using hlt'), getElem?_rows b _ hlt',
      after, hh]
  rw [← h, flat_cons, List.getElem?_append_right (by simp)] at hrow
  simp only [length_rows, Nat.sub_self] at hrow
  exact ha.next_row hrow

/-- **A canonical list of stretches is determined by its rows.** -/
theorem canonical_ext {as bs : List β} (ha : Canonical as) (hb : Canonical bs)
    (h : flat as = flat bs) : as = bs := by
  induction as generalizing bs with
  | nil =>
    cases bs with
    | nil => rfl
    | cons b bs => exact absurd h.symm (length_flat_pos (hb.1 b (by simp)))
  | cons a as ih =>
    cases bs with
    | nil => exact absurd h (length_flat_pos (ha.1 a (by simp)))
    | cons b bs =>
      have hpa : 0 < len a := ha.1 a (by simp)
      have hpb : 0 < len b := hb.1 b (by simp)
      have hh : head a = head b := by
        have h0 := congrArg (·[0]?) h
        simpa [rows_eq_cons hpa, rows_eq_cons hpb] using h0
      have hl : len a = len b :=
        Nat.le_antisymm (len_le_of_flat_eq hb h.symm hh.symm) (len_le_of_flat_eq ha h hh)
      have hab : a = b := Stretch.ext a b hh hl
      subst hab
      rw [flat_cons, flat_cons] at h
      rw [ih ha.tail hb.tail (List.append_cancel_left h)]

/-! ### Extending a list at its end -/

/-- Joins `b` onto the last stretch where `join` can, and adds it as a new one otherwise. -/
def extendLast (join : β → β → Option β) (bs : List β) (b : β) : List β :=
  match bs.getLast? with
  | some last =>
    match join last b with
    | some both => bs.dropLast ++ [both]
    | none => bs ++ [b]
  | none => bs ++ [b]

/-- `join` joins exactly the stretches where the second continues the first. -/
structure Joins (join : β → β → Option β) : Prop where
  some_of : ∀ a b, after a = head b →
    ∃ c, join a b = some c ∧ head c = head a ∧ len c = len a + len b
  none_of : ∀ a b, after a ≠ head b → join a b = none

theorem rows_join {a b c : β} (ha : after a = head b) (hc : head c = head a)
    (hl : len c = len a + len b) : rows c = rows a ++ rows b := by
  simp only [rows, hc, hl, List.iterate_add]
  rw [← ha, after]

theorem after_join {a b c : β} (ha : after a = head b) (hc : head c = head a)
    (hl : len c = len a + len b) : after c = after b := by
  rw [after, hc, hl, Nat.add_comm, Function.iterate_add_apply]
  rw [show (next β)^[len a] (head a) = head b from ha, after]

variable {join : β → β → Option β}

theorem extendLast_nil (b : β) : extendLast join [] b = [b] := rfl

theorem extendLast_snoc (bs : List β) (a b : β) :
    extendLast join (bs ++ [a]) b =
      match join a b with
      | some c => bs ++ [c]
      | none => bs ++ [a, b] := by
  simp only [extendLast, List.getLast?_append, List.getLast?_singleton, Option.some_or,
    List.dropLast_concat]
  cases join a b <;> simp

/-- Only the last stretch matters to an extension. -/
theorem extendLast_append (as : List β) {bs : List β} (hb : bs ≠ []) (c : β) :
    extendLast join (as ++ bs) c = as ++ extendLast join bs c := by
  obtain ⟨init, last, rfl⟩ : ∃ init last, bs = init ++ [last] :=
    ⟨bs.dropLast, bs.getLast hb, (List.dropLast_append_getLast hb).symm⟩
  rw [← List.append_assoc, extendLast_snoc, extendLast_snoc]
  cases join last c <;> simp

theorem extendLast_ne_nil (bs : List β) (b : β) : extendLast join bs b ≠ [] := by
  rcases List.eq_nil_or_concat bs with rfl | ⟨init, last, rfl⟩
  · simp [extendLast_nil]
  · rw [List.concat_eq_append, extendLast_snoc]
    cases join last b <;> simp

theorem flat_extendLast (hj : Joins join) (bs : List β) (b : β) :
    flat (extendLast join bs b) = flat bs ++ rows b := by
  rcases List.eq_nil_or_concat bs with rfl | ⟨init, last, rfl⟩
  · simp [extendLast_nil]
  · rw [List.concat_eq_append, extendLast_snoc]
    by_cases h : after last = head b
    · obtain ⟨c, hc, hh, hl⟩ := hj.some_of last b h
      simp [hc, rows_join h hh hl]
    · simp [hj.none_of last b h]

theorem Canonical.extendLast (hj : Joins join) {bs : List β} (h : Canonical bs) {b : β}
    (hb : 0 < len b) : Canonical (extendLast join bs b) := by
  rcases List.eq_nil_or_concat bs with rfl | ⟨init, last, rfl⟩
  · exact canonical_singleton hb
  · rw [List.concat_eq_append] at h
    rw [List.concat_eq_append, extendLast_snoc]
    have hinit := h.left
    have hlast : ∀ a ∈ init.getLast?, after a ≠ head last := by
      intro a ha
      exact (List.isChain_append.mp h.2).2.2 a ha last (by simp)
    by_cases hc : after last = head b
    · obtain ⟨c, hcj, hh, hl⟩ := hj.some_of last b hc
      rw [hcj]
      refine hinit.append (canonical_singleton (by omega)) ?_
      intro a ha d hd
      obtain rfl : c = d := by simpa using hd
      rw [hh]
      exact hlast a ha
    · rw [hj.none_of last b hc]
      rw [show init ++ [last, b] = (init ++ [last]) ++ [b] by simp]
      refine h.append (canonical_singleton hb) ?_
      intro a ha d hd
      obtain rfl : last = a := by simpa using ha
      obtain rfl : b = d := by simpa using hd
      exact hc

/-- The canonical list with the rows of `bs`: empty stretches dropped, neighbours joined. -/
def coalesce (join : β → β → Option β) (bs : List β) : List β :=
  (bs.filter (fun b => 0 < len b)).foldl (Stretch.extendLast join) []

theorem flat_filter_pos (bs : List β) : flat (bs.filter (fun b => 0 < len b)) = flat bs := by
  induction bs with
  | nil => rfl
  | cons b bs ih =>
    by_cases h : 0 < len b
    · rw [List.filter_cons_of_pos (by simpa using h), flat_cons, flat_cons, ih]
    · rw [List.filter_cons_of_neg (by simpa using h), flat_cons, rows_of_empty (by omega), ih,
        List.nil_append]

theorem flat_foldl_extendLast (hj : Joins join) (bs as : List β) :
    flat (as.foldl (Stretch.extendLast join) bs) = flat bs ++ flat as := by
  induction as generalizing bs with
  | nil => simp
  | cons a as ih => rw [List.foldl_cons, ih, flat_extendLast hj, flat_cons, List.append_assoc]

theorem canonical_foldl_extendLast (hj : Joins join) {bs as : List β} (h : Canonical bs)
    (ha : ∀ a ∈ as, 0 < len a) : Canonical (as.foldl (Stretch.extendLast join) bs) := by
  induction as generalizing bs with
  | nil => exact h
  | cons a as ih =>
    exact ih (h.extendLast hj (ha a (by simp))) (fun c hc => ha c (List.mem_cons_of_mem _ hc))

theorem flat_coalesce (hj : Joins join) (bs : List β) : flat (coalesce join bs) = flat bs := by
  rw [coalesce, flat_foldl_extendLast hj, flat_nil, List.nil_append, flat_filter_pos]

theorem canonical_coalesce (hj : Joins join) (bs : List β) : Canonical (coalesce join bs) :=
  canonical_foldl_extendLast hj canonical_nil (fun a ha => by simpa using (List.mem_filter.mp ha).2)

/-- Adding stretches that are canonical among themselves joins at most the first of them. -/
theorem foldl_extendLast_cons (hj : Joins join) (bs : List β) {c : β} {cs : List β}
    (h : Canonical (c :: cs)) :
    (c :: cs).foldl (Stretch.extendLast join) bs = Stretch.extendLast join bs c ++ cs := by
  induction cs generalizing bs c with
  | nil => simp
  | cons d cs ih =>
    rw [List.foldl_cons, ih _ h.tail]
    have hne : after c ≠ head d := (List.isChain_cons.mp h.2).1 d (by simp)
    -- whatever `c` was joined to ends where `c` does, so `d` does not continue it
    obtain ⟨init, last, hlast, hafter⟩ :
        ∃ init last, Stretch.extendLast join bs c = init ++ [last] ∧ after last = after c := by
      rcases List.eq_nil_or_concat bs with rfl | ⟨init, last, rfl⟩
      · exact ⟨[], c, rfl, rfl⟩
      · rw [List.concat_eq_append, extendLast_snoc]
        by_cases hc : after last = head c
        · obtain ⟨e, he, hh, hl⟩ := hj.some_of last c hc
          rw [he]
          exact ⟨init, e, rfl, after_join hc hh hl⟩
        · rw [hj.none_of last c hc]
          exact ⟨init ++ [last], c, by simp, rfl⟩
    rw [hlast, extendLast_snoc, hj.none_of last d (hafter ▸ hne)]
    simp

/-- Stretches whose rows end as a canonical list's do end as that list does, but for its first
stretch. -/
theorem eq_append_of_suffix (hj : Joins join) {as cs : List β} {c : β} (ha : Canonical as)
    (hc : Canonical (c :: cs)) {xs : List ρ} (hf : flat as = xs ++ flat (c :: cs))
    (hx : ∃ as' : List β, Canonical as' ∧ flat as' = xs) :
    ∃ pre, pre ≠ [] ∧ as = pre ++ cs := by
  obtain ⟨as', ha', rfl⟩ := hx
  refine ⟨Stretch.extendLast join as' c, extendLast_ne_nil as' c, ?_⟩
  rw [← foldl_extendLast_cons hj as' hc]
  refine canonical_ext ha (canonical_foldl_extendLast hj ha' hc.1) ?_
  rw [flat_foldl_extendLast hj, hf]

theorem length_le_of_suffix (hj : Joins join) {as cs : List β} (ha : Canonical as)
    (hc : Canonical cs) {xs : List ρ} (hf : flat as = xs ++ flat cs)
    (hx : ∃ as' : List β, Canonical as' ∧ flat as' = xs) : cs.length ≤ as.length := by
  cases cs with
  | nil => simp
  | cons c cs =>
    obtain ⟨pre, hne, rfl⟩ := eq_append_of_suffix hj ha hc hf hx
    have := List.length_pos_iff.mpr hne
    simp
    omega

/-- **The newest stretches depend only on the newest rows.** -/
theorem lastN_of_suffix (hj : Joins join) {n : Nat} {as bs cs : List β} (ha : Canonical as)
    (hb : Canonical bs) (hc : Canonical cs) {xs ys : List ρ} (hfa : flat as = xs ++ flat cs)
    (hfb : flat bs = ys ++ flat cs) (hn : n < cs.length)
    (hx : ∃ as' : List β, Canonical as' ∧ flat as' = xs)
    (hy : ∃ bs' : List β, Canonical bs' ∧ flat bs' = ys) :
    lastN n as = lastN n bs := by
  cases cs with
  | nil => simp at hn
  | cons c cs =>
    have hn' : n ≤ cs.length := by simpa using Nat.le_of_lt_succ hn
    obtain ⟨pre, -, rfl⟩ := eq_append_of_suffix hj ha hc hfa hx
    obtain ⟨pre', -, rfl⟩ := eq_append_of_suffix hj hb hc hfb hy
    rw [lastN_append _ hn', lastN_append _ hn']

/-- Every list of rows is what some canonical list of stretches stands for, when single rows
are stretches. -/
theorem exists_canonical (hj : Joins join) (single : ρ → β)
    (hs : ∀ r, head (single r) = r ∧ len (single r) = 1) (rs : List ρ) :
    ∃ bs : List β, Canonical bs ∧ flat bs = rs := by
  refine ⟨coalesce join (rs.map single), canonical_coalesce hj _, ?_⟩
  rw [flat_coalesce hj]
  induction rs with
  | nil => rfl
  | cons r rs ih =>
    rw [List.map_cons, flat_cons, ih, rows, (hs r).1, (hs r).2]
    rfl

/-- Keeping only the newest stretches may be done before or after an extension. -/
theorem lastN_extendLast {n : Nat} (hn : 0 < n) (bs : List β) (b : β) :
    lastN n (extendLast join (lastN n bs) b) = lastN n (extendLast join bs b) := by
  by_cases hb : bs.length ≤ n
  · rw [lastN_of_length_le hb]
  · obtain ⟨old, hold⟩ := lastN_suffix n bs
    have hlen : (lastN n bs).length = n := by rw [length_lastN]; omega
    have hne : lastN n bs ≠ [] := by
      intro h
      rw [h] at hlen
      simp at hlen
      omega
    conv_rhs => rw [← hold, extendLast_append old hne]
    refine (lastN_append old ?_).symm
    rcases List.eq_nil_or_concat (lastN n bs) with h | ⟨init, last, h⟩
    · exact absurd h hne
    · rw [h, List.concat_eq_append] at hlen
      rw [h, List.concat_eq_append, extendLast_snoc]
      cases join last b <;> simp at hlen ⊢ <;> omega

end Stretch

end JewelCase.Library
