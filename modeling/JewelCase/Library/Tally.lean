import Mathlib.Algebra.BigOperators.Group.List.Basic
import Mathlib.Algebra.Group.Int.Defs
import Mathlib.Algebra.Group.Prod
import Mathlib.Algebra.Order.Group.Int
import Mathlib.Tactic.Abel
import JewelCase.Library.Keyed

/-!
# Tables that count

A table with a row for each key that anything has, which holds how much there is under it. Its rows
are raised and lowered as things come and go, and a row goes when its count reaches zero.
-/
namespace JewelCase.Library.Tally

set_option autoImplicit false

/-- An amount of things, and how many they are. -/
class Amount (V : Type) extends AddCommGroup V where
  size : V → Int
  size_add : ∀ a b, size (a + b) = size a + size b

instance : Amount Int where
  size := id
  size_add := fun _ _ => rfl

/-- Things with two more numbers to each. -/
instance : Amount (Int × Int × Int) where
  size := Prod.fst
  size_add := fun _ _ => rfl

abbrev Table (κ V : Type) := List (κ × V)

variable {κ V : Type} [DecidableEq κ] [Amount V]

open Amount (size)

def has (t : Table κ V) (k : κ) : Bool := t.any fun row => decide (row.1 = k)

/-- Adds to the row of a key, or inserts it. -/
def raise (t : Table κ V) (k : κ) (d : V) : Table κ V :=
  if has t k then t.map fun row => if row.1 = k then (row.1, row.2 + d) else row
  else t ++ [(k, d)]

/-- Takes from the rows of some keys. -/
def taken (t : Table κ V) (p : κ → Bool) (d : V) : Table κ V :=
  t.map fun row => if p row.1 then (row.1, row.2 - d) else row

/-- Takes from the rows of some keys, and deletes those left with none. -/
def lower (t : Table κ V) (p : κ → Bool) (d : V) : Table κ V :=
  (taken t p d).filter fun row => !(p row.1 && decide (size row.2 = 0))

/-- The keys whose rows `lower` deletes. -/
def unused (t : Table κ V) (p : κ → Bool) (d : V) : List κ :=
  ((taken t p d).filter fun row => p row.1 && decide (size row.2 = 0)).map Prod.fst

/-- The table holds what there is under each key, in one row for each key that has any. -/
structure Exact (t : Table κ V) (f : κ → V) : Prop where
  nodup : (t.map Prod.fst).Nodup
  value : ∀ row ∈ t, row.2 = f row.1
  mem : ∀ k, k ∈ t.map Prod.fst ↔ size (f k) ≠ 0

variable {t : Table κ V} {f g : κ → V} {k : κ} {p : κ → Bool} {d : V}

@[simp] theorem size_zero : size (0 : V) = 0 := by
  have h := Amount.size_add (0 : V) 0
  rw [add_zero] at h
  omega

theorem size_sub (a b : V) : size (a - b) = size a - size b := by
  have h := Amount.size_add (a - b) b
  rw [sub_add_cancel] at h
  omega

omit [Amount V] in
theorem has_iff : has t k = true ↔ k ∈ t.map Prod.fst := by
  unfold has
  simp

omit [DecidableEq κ] in
theorem Exact.congr (h : Exact t f) (hfg : ∀ k, g k = f k) : Exact t g where
  nodup := h.nodup
  value := fun row hrow => by rw [hfg, h.value row hrow]
  mem := fun k => by rw [hfg, h.mem]

theorem map_fst_raise : (raise t k d).map Prod.fst =
    if has t k then t.map Prod.fst else t.map Prod.fst ++ [k] := by
  unfold raise
  split
  · rw [List.map_map]
    apply List.map_congr_left
    intro row _
    rw [Function.comp_apply]
    split <;> rfl
  · rw [List.map_append, List.map_singleton]

omit [DecidableEq κ] in
theorem map_fst_taken : (taken t p d).map Prod.fst = t.map Prod.fst := by
  rw [taken, List.map_map]
  apply List.map_congr_left
  intro row _
  rw [Function.comp_apply]
  split <;> rfl

/-- More under one key. -/
theorem Exact.raise (h : Exact t f) (hd : 0 < size d) (hpos : ∀ k, 0 ≤ size (f k))
    (hzero : ∀ k, size (f k) = 0 → f k = 0)
    (hg : ∀ k', g k' = f k' + if k' = k then d else 0) : Exact (raise t k d) g := by
  have hsize : ∀ k', size (g k') = size (f k') + if k' = k then size d else 0 := by
    intro k'
    rw [hg, Amount.size_add]
    split
    · rfl
    · rw [size_zero]
  by_cases hhas : has t k = true
  · refine ⟨?_, ?_, ?_⟩
    · rw [map_fst_raise, if_pos hhas]
      exact h.nodup
    · intro row hrow
      rw [Tally.raise, if_pos hhas] at hrow
      obtain ⟨old, hold, rfl⟩ := List.mem_map.mp hrow
      by_cases hk : old.1 = k
      · rw [if_pos hk, hg, if_pos hk, h.value old hold]
      · rw [if_neg hk, hg, if_neg hk, add_zero, h.value old hold]
    · intro k'
      rw [map_fst_raise, if_pos hhas, h.mem, hsize]
      by_cases hk : k' = k
      · have hmem := (h.mem k).mp (has_iff.mp hhas)
        have hnonneg := hpos k
        rw [if_pos hk, hk]
        constructor <;> intro <;> omega
      · rw [if_neg hk, add_zero]
  · have hnew : k ∉ t.map Prod.fst := fun hmem => hhas (has_iff.mpr hmem)
    have hnone : f k = 0 := hzero k (by_contra fun hne => hnew ((h.mem k).mpr hne))
    refine ⟨?_, ?_, ?_⟩
    · rw [map_fst_raise, if_neg hhas]
      exact List.nodup_append.mpr ⟨h.nodup, List.nodup_singleton k, fun a ha b hb => by
        rw [List.mem_singleton.mp hb]
        exact fun hab => hnew (hab ▸ ha)⟩
    · intro row hrow
      rw [Tally.raise, if_neg hhas] at hrow
      rcases List.mem_append.mp hrow with hrow | hrow
      · have hne : row.1 ≠ k := fun hk => hnew (hk ▸ List.mem_map_of_mem hrow)
        rw [hg, if_neg hne, add_zero, h.value row hrow]
      · rw [List.mem_singleton.mp hrow, hg, if_pos rfl, hnone, zero_add]
    · intro k'
      rw [map_fst_raise, if_neg hhas, List.mem_append, List.mem_singleton, h.mem, hsize]
      by_cases hk : k' = k
      · rw [if_pos hk, hk, hnone, size_zero]
        simp
        omega
      · rw [if_neg hk, add_zero, or_iff_left hk]

omit [DecidableEq κ] in
/-- Less under some keys. -/
theorem Exact.lower (h : Exact t f) (hd : 0 < size d) (hpos : ∀ k, 0 ≤ size (g k))
    (hg : ∀ k, g k = f k - if p k then d else 0) : Exact (lower t p d) g := by
  have hsize : ∀ k, size (g k) = size (f k) - if p k then size d else 0 := by
    intro k
    rw [hg, size_sub]
    split
    · rfl
    · rw [size_zero]
  have hvalue : ∀ row ∈ taken t p d, row.2 = g row.1 := by
    intro row hrow
    obtain ⟨old, hold, rfl⟩ := List.mem_map.mp hrow
    by_cases hk : p old.1 = true
    · rw [if_pos hk, hg, if_pos hk, h.value old hold]
    · rw [if_neg hk, hg, if_neg hk, sub_zero, h.value old hold]
  refine ⟨?_, ?_, ?_⟩
  · have hnodup := h.nodup
    rw [← map_fst_taken (p := p) (d := d)] at hnodup
    exact hnodup.sublist (List.filter_sublist.map _)
  · intro row hrow
    exact hvalue row (List.mem_filter.mp hrow).1
  · intro k
    constructor
    · intro hmem
      obtain ⟨row, hrow, rfl⟩ := List.mem_map.mp hmem
      obtain ⟨hrow, hkeep⟩ := List.mem_filter.mp hrow
      rw [← hvalue row hrow]
      by_cases hp : p row.1 = true
      · simpa [hp] using hkeep
      · have hkey : row.1 ∈ t.map Prod.fst := by
          rw [← map_fst_taken (p := p) (d := d)]
          exact List.mem_map_of_mem hrow
        rw [hvalue row hrow, hsize, if_neg hp, sub_zero]
        exact (h.mem row.1).mp hkey
    · intro hne
      have hkey : k ∈ (taken t p d).map Prod.fst := by
        rw [map_fst_taken, h.mem]
        intro hzero
        have hle := hpos k
        rw [hsize, hzero] at hle hne
        by_cases hp : p k = true
        · rw [if_pos hp] at hle
          omega
        · rw [if_neg hp] at hne
          exact hne rfl
      obtain ⟨row, hrow, rfl⟩ := List.mem_map.mp hkey
      refine List.mem_map_of_mem (List.mem_filter.mpr ⟨hrow, ?_⟩)
      rw [hvalue row hrow]
      simp [hne]

omit [DecidableEq κ] in
/-- What was in the table is in it still or was deleted. -/
theorem countP_unused (q : κ → Bool) :
    ((lower t p d).map Prod.fst).countP q + (unused t p d).countP q =
      (t.map Prod.fst).countP q := by
  rw [← map_fst_taken (t := t) (p := p) (d := d), lower, unused]
  induction taken t p d with
  | nil => rfl
  | cons row rows ih =>
    rw [List.filter_cons, List.filter_cons, List.map_cons, List.countP_cons, ← ih]
    cases p row.1 && decide (size row.2 = 0)
    · simp only [Bool.not_false, if_true, Bool.false_eq_true, if_false, List.map_cons,
        List.countP_cons]
      omega
    · simp only [Bool.not_true, if_true, Bool.false_eq_true, if_false, List.map_cons,
        List.countP_cons]
      omega

/-! ### Recounts -/

variable {α : Type}

/-- What some things have under a key, each counted. -/
def recount (w : α → κ → V) (xs : List α) (k : κ) : V := (xs.map fun x => w x k).sum

/-- What a thing has under a key is nothing, or something. -/
def Counts (w : α → κ → V) : Prop := ∀ x k, w x k = 0 ∨ 0 < size (w x k)

section Recount

omit [DecidableEq κ]

variable {w : α → κ → V} {xs : List α} {x x' : α}

@[simp] theorem recount_nil (k : κ) : recount w [] k = 0 := rfl

@[simp] theorem recount_cons (k : κ) : recount w (x :: xs) k = w x k + recount w xs k := by
  rw [recount, List.map_cons, List.sum_cons, recount]

theorem recount_append (k : κ) : recount w (xs ++ [x]) k = recount w xs k + w x k := by
  induction xs with
  | nil => rw [List.nil_append, recount_cons, recount_nil, add_comm]
  | cons y ys ih => rw [List.cons_append, recount_cons, recount_cons, ih, add_assoc]

theorem recount_none_or (hw : Counts w) (k : κ) :
    recount w xs k = 0 ∨ 0 < size (recount w xs k) := by
  induction xs with
  | nil => exact Or.inl rfl
  | cons y ys ih =>
    rw [recount_cons, Amount.size_add]
    rcases hw y k with hy | hy
    · rw [hy, zero_add, size_zero, zero_add]
      exact ih
    · rcases ih with hys | hys
      · rw [hys, size_zero, add_zero]
        exact Or.inr (by omega)
      · exact Or.inr (by omega)

theorem size_recount_nonneg (hw : Counts w) (k : κ) : 0 ≤ size (recount w xs k) := by
  have hxs : recount w xs k = 0 ∨ 0 < size (recount w xs k) := recount_none_or hw k
  rcases hxs with h | h
  · rw [h, size_zero]
  · omega

theorem recount_pos (hw : Counts w) {x : α} (hx : x ∈ xs) {k : κ} (h : 0 < size (w x k)) :
    0 < size (recount w xs k) := by
  induction xs with
  | nil => cases hx
  | cons y ys ih =>
    rw [recount_cons, Amount.size_add]
    rcases List.mem_cons.mp hx with rfl | hmem
    · have hrest : 0 ≤ size (recount w ys k) := size_recount_nonneg hw k
      omega
    · have hrest := ih hmem
      rcases hw y k with hy | hy
      · rw [hy, size_zero]
        omega
      · omega

theorem recount_eq_zero (hw : Counts w) (k : κ) (h : size (recount w xs k) = 0) :
    recount w xs k = 0 := by
  have hxs : recount w xs k = 0 ∨ 0 < size (recount w xs k) := recount_none_or hw k
  rcases hxs with hzero | hpos
  · exact hzero
  · omega

/-- A key has a row just when something counts under it. -/
theorem Exact.mem_iff {t : Table κ V} (h : Exact t (recount w xs)) (hw : Counts w) (k : κ) :
    k ∈ t.map Prod.fst ↔ ∃ x ∈ xs, 0 < size (w x k) := by
  rw [h.mem]
  constructor
  · intro hne
    by_contra hnone
    refine hne ?_
    have hzero : ∀ n ∈ xs.map fun x => w x k, n = 0 := fun n hn => by
      obtain ⟨x, hx, rfl⟩ := List.mem_map.mp hn
      exact (hw x k).resolve_right fun hpos => hnone ⟨x, hx, hpos⟩
    rw [recount, List.sum_eq_zero hzero, size_zero]
  · rintro ⟨x, hx, hpos⟩
    have hcounts := recount_pos hw hx hpos
    omega

/-- What a row holds is never nothing, or less. -/
theorem Exact.pos {t : Table κ V} (h : Exact t (recount w xs)) (hw : Counts w) {row : κ × V}
    (hrow : row ∈ t) : 0 < size row.2 := by
  have hne := (h.mem row.1).mp (List.mem_map_of_mem hrow)
  have hnonneg : 0 ≤ size (recount w xs row.1) := size_recount_nonneg hw row.1
  rw [h.value row hrow]
  omega

/-- One thing in another's place. -/
theorem recount_replace {ι : Type} [DecidableEq ι] {key : α → ι} (h : (xs.map key).Nodup)
    (hx : x ∈ xs) (x' : α) (k : κ) :
    recount w (xs.map fun y => if key y = key x then x' else y) k =
      recount w xs k - w x k + w x' k := by
  induction xs with
  | nil => cases hx
  | cons y ys ih =>
    rw [List.map_cons, List.nodup_cons] at h
    rw [List.map_cons, recount_cons, recount_cons]
    rcases List.mem_cons.mp hx with rfl | hmem
    · have hrest : (ys.map fun z => if key z = key x then x' else z) = ys := by
        rw [List.map_congr_left (g := id), List.map_id]
        intro z hz
        rw [if_neg, id]
        exact fun hkey => h.1 (hkey ▸ List.mem_map_of_mem hz)
      rw [if_pos rfl, hrest]
      abel
    · have hne : key y ≠ key x := fun hkey => h.1 (hkey ▸ List.mem_map_of_mem hmem)
      rw [if_neg hne, ih h.2 hmem]
      abel

/-- One thing fewer. -/
theorem recount_without {ι : Type} [DecidableEq ι] {key : α → ι} (h : (xs.map key).Nodup)
    (hx : x ∈ xs) (k : κ) :
    recount w (Keyed.without key xs (key x)) k = recount w xs k - w x k := by
  induction xs with
  | nil => cases hx
  | cons y ys ih =>
    rw [List.map_cons, List.nodup_cons] at h
    rw [recount_cons, Keyed.without]
    rcases List.mem_cons.mp hx with rfl | hmem
    · have hrest : ys.filter (fun z => decide (key z ≠ key x)) = ys := by
        apply List.filter_eq_self.mpr
        intro z hz
        exact decide_eq_true fun hkey => h.1 (hkey ▸ List.mem_map_of_mem hz)
      rw [List.filter_cons_of_neg (by simp), hrest]
      abel
    · have hne : key y ≠ key x := fun hkey => h.1 (hkey ▸ List.mem_map_of_mem hmem)
      have hrest := ih h.2 hmem
      rw [Keyed.without] at hrest
      rw [List.filter_cons_of_pos (by simp [hne]), recount_cons, hrest]
      abel

end Recount

/-- The rows of several keys raised. -/
theorem Exact.raiseEach {t : Table κ Int} {f : κ → Int} (h : Exact t f) (hpos : ∀ k, 0 ≤ f k)
    {ks : List κ} (hks : ks.Nodup) :
    Exact (ks.foldl (fun t k => Tally.raise t k 1) t)
      fun k => f k + if k ∈ ks then 1 else 0 := by
  induction ks generalizing t f with
  | nil => exact h.congr fun k => by rw [if_neg List.not_mem_nil]; exact Int.add_zero _
  | cons k ks ih =>
    rw [List.nodup_cons] at hks
    have hstep : Exact (Tally.raise t k 1) fun k' => f k' + if k' = k then 1 else 0 :=
      h.raise Int.one_pos hpos (fun _ => id) fun _ => rfl
    have hnonneg : ∀ k', 0 ≤ f k' + if k' = k then 1 else 0 := by
      intro k'
      have hf := hpos k'
      split <;> omega
    refine (ih hstep hnonneg hks.2).congr fun k' => ?_
    by_cases hk : k' = k
    · have hnew : k' ∉ ks := hk ▸ hks.1
      simp [hk, hks.1]
    · simp [hk]

/-! ### The last of some things -/

section Last

variable {α : Type} {w : α → κ → V} {xs : List α} {x x' : α}

omit [DecidableEq κ] in
theorem Exact.same_last (h : Exact t (recount w (xs ++ [x]))) (hx : ∀ k, w x' k = w x k) :
    Exact t (recount w (xs ++ [x'])) :=
  h.congr fun k => by rw [recount_append, recount_append, hx]

/-- It has more under one key. -/
theorem Exact.raise_last (hw : Counts w) (h : Exact t (recount w (xs ++ [x]))) (hd : 0 < size d)
    (hx : ∀ k', w x' k' = w x k' + if k' = k then d else 0) :
    Exact (Tally.raise t k d) (recount w (xs ++ [x'])) :=
  h.raise hd (size_recount_nonneg hw) (recount_eq_zero hw) fun k' => by
    rw [recount_append, recount_append, hx, add_assoc]

omit [DecidableEq κ] in
/-- It has less under some keys. -/
theorem Exact.lower_last (hw : Counts w) (h : Exact t (recount w (xs ++ [x]))) (hd : 0 < size d)
    (hx : ∀ k, w x k = w x' k + if p k then d else 0) :
    Exact (Tally.lower t p d) (recount w (xs ++ [x'])) :=
  h.lower hd (size_recount_nonneg hw) fun k => by
    rw [recount_append, recount_append, hx]
    abel

/-- It comes, with something under one key. -/
theorem Exact.raise_new (hw : Counts w) (h : Exact t (recount w xs)) (hd : 0 < size d)
    (hx : ∀ k', w x k' = if k' = k then d else 0) :
    Exact (Tally.raise t k d) (recount w (xs ++ [x])) :=
  h.raise hd (size_recount_nonneg hw) (recount_eq_zero hw) fun k' => by
    rw [recount_append, hx]

/-- It comes, with one under each of some keys. -/
theorem Exact.raiseEach_new {t : Table κ Int} {w : α → κ → Int} (hw : Counts w)
    (h : Exact t (recount w xs)) {ks : List κ} (hks : ks.Nodup)
    (hx : ∀ k, w x k = if k ∈ ks then 1 else 0) :
    Exact (ks.foldl (fun t k => Tally.raise t k 1) t) (recount w (xs ++ [x])) :=
  (h.raiseEach (size_recount_nonneg hw) hks).congr fun k => by
    rw [recount_append, hx]

omit [DecidableEq κ] in
/-- It goes, from under some keys. -/
theorem Exact.lower_gone (hw : Counts w) (h : Exact t (recount w (xs ++ [x]))) (hd : 0 < size d)
    (hx : ∀ k, w x k = if p k then d else 0) : Exact (Tally.lower t p d) (recount w xs) :=
  h.lower hd (size_recount_nonneg hw) fun k => by
    rw [recount_append, hx, add_sub_cancel_right]

end Last

/-! ### Rows counted by what they are of -/

theorem sum_one {α ι : Type} [DecidableEq ι] {id : α → ι} {xs : List α} (h : (xs.map id).Nodup) {k : ι}
    (hk : k ∈ xs.map id) (n : Int) : (xs.map fun x => if k = id x then n else 0).sum = n := by
  induction xs with
  | nil => cases hk
  | cons x xs ih =>
    obtain ⟨hx, hxs⟩ := List.nodup_cons.mp h
    rw [List.map_cons, List.sum_cons]
    rcases List.mem_cons.mp hk with heq | hmem
    · have hrest : (xs.map fun y => if k = id y then n else 0).sum = 0 := by
        apply List.sum_eq_zero
        intro m hm
        obtain ⟨y, hy, rfl⟩ := List.mem_map.mp hm
        refine if_neg fun hid => hx ?_
        rw [← heq, hid]
        exact List.mem_map_of_mem hy
      rw [if_pos heq, hrest, Int.add_zero]
    · have hne : k ≠ id x := fun heq => hx (heq ▸ hmem)
      rw [if_neg hne, Int.zero_add]
      exact ih hxs hmem

/-- Rows counted by what each is of are the rows. -/
theorem sum_countP {α β ι : Type} [DecidableEq ι] {id : α → ι} {of : β → ι} {xs : List α}
    {rows : List β} (h : (xs.map id).Nodup) (hof : ∀ r ∈ rows, of r ∈ xs.map id) (p : β → Bool) :
    (xs.map fun x => ((rows.countP fun r => decide (of r = id x) && p r : Nat) : Int)).sum =
      rows.countP p := by
  induction rows with
  | nil => simp
  | cons r rows ih =>
    have hrest := ih fun s hs => hof s (List.mem_cons_of_mem r hs)
    have hone := sum_one h (hof r List.mem_cons_self) (if p r then 1 else 0)
    calc (xs.map fun x =>
          (((r :: rows).countP fun r => decide (of r = id x) && p r : Nat) : Int)).sum
        = (xs.map fun x => ((rows.countP fun r => decide (of r = id x) && p r : Nat) : Int) +
            if of r = id x then (if p r then 1 else 0) else 0).sum := by
          congr 1
          apply List.map_congr_left
          intro x _
          rw [List.countP_cons]
          by_cases hid : of r = id x <;> cases p r <;> simp [hid]
      _ = rows.countP p + if p r then 1 else 0 := by rw [List.sum_map_add, hrest, hone]
      _ = ((r :: rows).countP p : Nat) := by
          rw [List.countP_cons]
          cases p r <;> simp

end JewelCase.Library.Tally
