import Mathlib.Data.List.Induction
import Mathlib.Data.List.Nodup
import Mathlib.Data.List.Sort

/-!
# Elements of a list picked by position

`filterIdx p xs` keeps the elements of `xs` whose position satisfies `p`, in order. Picking an
ascending list of positions one by one is the same, and what is kept and what is left make up the
list again.
-/
namespace JewelCase.Library.Picks

set_option autoImplicit false

variable {α β : Type}

/-- The elements at the positions that satisfy `p`, in order. -/
def filterIdx (p : Nat → Bool) (xs : List α) : List α :=
  (xs.zipIdx.filter fun r => p r.2).map Prod.fst

@[simp] theorem filterIdx_nil (p : Nat → Bool) : filterIdx p ([] : List α) = [] := rfl

theorem filterIdx_zipIdx (p : Nat → Bool) (xs : List α) (k : Nat) :
    ((xs.zipIdx k).filter fun r => p r.2).map Prod.fst = filterIdx (fun i => p (k + i)) xs := by
  unfold filterIdx
  rw [List.zipIdx_eq_map_add (i := k), List.filter_map, List.map_map]
  rfl

theorem filterIdx_append (p : Nat → Bool) (xs ys : List α) :
    filterIdx p (xs ++ ys) = filterIdx p xs ++ filterIdx (fun i => p (xs.length + i)) ys := by
  rw [← filterIdx_zipIdx p ys]
  unfold filterIdx
  rw [List.zipIdx_append, List.filter_append, List.map_append, Nat.zero_add]

theorem filterIdx_cons (p : Nat → Bool) (x : α) (xs : List α) :
    filterIdx p (x :: xs) =
      if p 0 then x :: filterIdx (fun i => p (1 + i)) xs else filterIdx (fun i => p (1 + i)) xs := by
  rw [← filterIdx_zipIdx p xs]
  unfold filterIdx
  rw [List.zipIdx_cons, List.filter_cons]
  by_cases h : p 0 <;> simp [h]

theorem filterIdx_all {p : Nat → Bool} {xs : List α} (h : ∀ i < xs.length, p i = true) :
    filterIdx p xs = xs := by
  unfold filterIdx
  rw [List.filter_eq_self.mpr fun r hr => h r.2 (List.snd_lt_of_mem_zipIdx hr), List.zipIdx_map_fst]

theorem filterIdx_none {p : Nat → Bool} {xs : List α} (h : ∀ i < xs.length, p i = false) :
    filterIdx p xs = [] := by
  unfold filterIdx
  rw [List.map_eq_nil_iff, List.filter_eq_nil_iff]
  intro r hr
  rw [h r.2 (List.snd_lt_of_mem_zipIdx hr)]
  decide

theorem filterIdx_map (f : α → β) (p : Nat → Bool) (xs : List α) :
    filterIdx p (xs.map f) = (filterIdx p xs).map f := by
  unfold filterIdx
  rw [List.zipIdx_map, List.filter_map, List.map_map, List.map_map]
  rfl

theorem filterIdx_sublist (p : Nat → Bool) (xs : List α) : (filterIdx p xs).Sublist xs := by
  have h : ((xs.zipIdx.filter fun r => p r.2).map Prod.fst).Sublist (xs.zipIdx.map Prod.fst) :=
    (List.filter_sublist ..).map _
  rwa [List.zipIdx_map_fst] at h

/-- What is picked and what is left are the list. -/
theorem filterIdx_perm (p : Nat → Bool) (xs : List α) :
    (filterIdx p xs ++ filterIdx (fun i => !p i) xs).Perm xs := by
  have h := (List.filter_append_perm (fun r : α × Nat => p r.2) xs.zipIdx).map Prod.fst
  rwa [List.map_append, List.zipIdx_map_fst] at h

theorem filterIdx_length (p : Nat → Bool) (xs : List α) :
    (filterIdx p xs).length + (filterIdx (fun i => !p i) xs).length = xs.length := by
  rw [← List.length_append, (filterIdx_perm p xs).length_eq]

/-- Read by position, the elements picked are those at the positions of the range that pass. -/
theorem filterIdx_eq_filterMap (p : Nat → Bool) (xs : List α) :
    filterIdx p xs = ((List.range xs.length).filter p).filterMap (xs[·]?) := by
  induction xs using List.reverseRecOn with
  | nil => rfl
  | append_singleton xs x ih =>
    have hsame : ((List.range xs.length).filter p).filterMap ((xs ++ [x])[·]?) =
        ((List.range xs.length).filter p).filterMap (xs[·]?) := by
      apply List.filterMap_congr
      intro i hi
      exact List.getElem?_append_left (List.mem_range.mp (List.mem_filter.mp hi).1)
    rw [filterIdx_append, List.length_append, List.length_singleton, List.range_succ,
      List.filter_append, List.filterMap_append, hsame, ← ih, filterIdx_cons]
    by_cases h : p xs.length <;> simp [h]

/-- An ascending list of positions is the positions of the range that are on it. -/
theorem filter_range_mem {ps : List Nat} {n : Nat} (hs : ps.Pairwise (· < ·))
    (hn : ∀ i ∈ ps, i < n) :
    (List.range n).filter (fun i => decide (i ∈ ps)) = ps := by
  apply @List.Perm.eq_of_pairwise _ (· < ·)
  · intro a b _ _ hab hba
    omega
  · exact List.Pairwise.filter _ List.pairwise_lt_range
  · exact hs
  · rw [List.perm_ext_iff_of_nodup (List.nodup_range.filter _) (hs.imp Nat.ne_of_lt)]
    intro i
    rw [List.mem_filter, List.mem_range, decide_eq_true_eq]
    exact ⟨fun h => h.2, fun h => ⟨hn i h, h⟩⟩

/-- Picking ascending positions one by one. -/
theorem filterMap_getElem? {ps : List Nat} {xs : List α} (hs : ps.Pairwise (· < ·))
    (hn : ∀ i ∈ ps, i < xs.length) :
    ps.filterMap (xs[·]?) = filterIdx (fun i => decide (i ∈ ps)) xs := by
  rw [filterIdx_eq_filterMap, filter_range_mem hs hn]

theorem length_filterIdx_mem {ps : List Nat} {xs : List α} (hs : ps.Pairwise (· < ·))
    (hn : ∀ i ∈ ps, i < xs.length) :
    (filterIdx (fun i => decide (i ∈ ps)) xs).length = ps.length := by
  rw [← filterMap_getElem? hs hn]
  have h : ∀ i ∈ ps, (xs[i]?).isSome := by
    intro i hi
    simpa using hn i hi
  clear hs hn
  induction ps with
  | nil => rfl
  | cons i ps ih =>
    obtain ⟨x, hx⟩ := Option.isSome_iff_exists.mp (h i (by simp))
    rw [List.filterMap_cons_some hx, List.length_cons, List.length_cons,
      ih fun j hj => h j (List.mem_cons_of_mem _ hj)]

/-- Put back in at `at`, a block of the elements and the rest are the list with that block in. -/
theorem insert_perm (place : Nat) (block rest : List α) :
    (rest.take place ++ block ++ rest.drop place).Perm (block ++ rest) := by
  calc rest.take place ++ block ++ rest.drop place
      _ |>.Perm (block ++ rest.take place ++ rest.drop place) :=
        List.perm_append_comm.append_right _
      _ |>.Perm (block ++ rest) := by
        rw [List.append_assoc, List.take_append_drop]

end JewelCase.Library.Picks

/-!
## Ranking positions

The positions of a list are sorted by a comparator that looks at the items and, where they tie, at
the positions. Such a comparator puts any list's positions in exactly one order.
-/
namespace JewelCase.Library.Ranking

set_option autoImplicit false

variable {α : Type}

/-- The positions of `xs`, as `c` orders them. -/
def rank (c : α × Nat → α × Nat → Ordering) (xs : List α) : List Nat :=
  (xs.zipIdx.insertionSort fun a b => c a b ≠ .gt).map Prod.snd

/-- Position `p` of `xs` comes before position `q`. -/
def Precedes (c : α × Nat → α × Nat → Ordering) (xs : List α) (p q : Nat) : Prop :=
  ∃ x ∈ xs[p]?, ∃ y ∈ xs[q]?, c (x, p) (y, q) = .lt

/-- `a` is listed before `b`. -/
def Lists (l : List Nat) (a b : Nat) : Prop := [a, b].Sublist l

variable {c : α × Nat → α × Nat → Ordering} {xs : List α} {p q r : Nat}

theorem precedes_iff {x y : α} (hx : xs[p]? = some x) (hy : xs[q]? = some y) :
    Precedes c xs p q ↔ c (x, p) (y, q) = .lt := by
  constructor
  · rintro ⟨x', hx', y', hy', hlt⟩
    obtain rfl := Option.some.inj (hx.symm.trans hx')
    obtain rfl := Option.some.inj (hy.symm.trans hy')
    exact hlt
  · intro hlt
    exact ⟨x, hx, y, hy, hlt⟩

/-- Of two items of a list, one is listed before the other. -/
theorem lists_or {l : List Nat} (hp : p ∈ l) (hq : q ∈ l) (hne : p ≠ q) :
    Lists l p q ∨ Lists l q p := by
  obtain ⟨before, after, rfl⟩ := List.append_of_mem hp
  rcases List.mem_append.mp hq with h | h
  · refine .inr ((List.singleton_sublist.mpr h).append ?_)
    exact List.singleton_sublist.mpr List.mem_cons_self
  · have hafter : q ∈ after := (List.mem_cons.mp h).resolve_left hne.symm
    exact .inl (((List.singleton_sublist.mpr hafter).cons_cons p).trans
      (List.sublist_append_right _ _))

section Order

variable [Std.TransCmp c]

theorem precedes_irrefl : ¬ Precedes c xs p p := by
  rintro ⟨x, hx, y, hy, hlt⟩
  obtain rfl := Option.some.inj (hx.symm.trans hy)
  have hself : c (x, p) (x, p) = .eq := Std.ReflCmp.compare_self
  rw [hself] at hlt
  exact absurd hlt (by decide)

theorem precedes_trans (hpq : Precedes c xs p q) (hqr : Precedes c xs q r) :
    Precedes c xs p r := by
  obtain ⟨x, hx, y, hy, hxy⟩ := hpq
  obtain ⟨z, hz, hyz⟩ := (show ∃ z ∈ xs[r]?, c (y, q) (z, r) = .lt by
    obtain ⟨y', hy', z, hz, hyz⟩ := hqr
    obtain rfl := Option.some.inj (hy.symm.trans hy')
    exact ⟨z, hz, hyz⟩)
  exact ⟨x, hx, z, hz, Std.TransCmp.lt_trans hxy hyz⟩

theorem precedes_asymm (hpq : Precedes c xs p q) : ¬ Precedes c xs q p := fun hqp =>
  precedes_irrefl (precedes_trans hpq hqp)

theorem rank_perm (c : α × Nat → α × Nat → Ordering) (xs : List α) :
    (rank c xs).Perm (List.range xs.length) := by
  have hperm := (List.perm_insertionSort (fun a b => c a b ≠ .gt) xs.zipIdx).map Prod.snd
  rwa [List.zipIdx_map_snd, ← List.range_eq_range'] at hperm

theorem rank_nodup (c : α × Nat → α × Nat → Ordering) (xs : List α) : (rank c xs).Nodup :=
  (rank_perm c xs).nodup_iff.mpr List.nodup_range

omit [Std.TransCmp c] in
theorem mem_rank : p ∈ rank c xs ↔ p < xs.length := by
  rw [(rank_perm c xs).mem_iff, List.mem_range]

/-- What the comparator does not put after another is transitive and total. -/
theorem notAfter_total : Std.Total fun a b : α × Nat => c a b ≠ .gt where
  total a b := by
    rw [ne_eq, ne_eq, ← not_and_or]
    rintro ⟨hab, hba⟩
    rw [Std.OrientedCmp.gt_iff_lt.mp hab] at hba
    exact absurd hba (by decide)

theorem notAfter_trans : IsTrans (α × Nat) fun a b => c a b ≠ .gt where
  trans a b d hab hbd := by
    exact Ordering.isLE_iff_ne_gt.mp
      (Std.TransCmp.isLE_trans (Ordering.isLE_iff_ne_gt.mpr hab) (Ordering.isLE_iff_ne_gt.mpr hbd))

variable (hties : ∀ a b, c a b = .eq → a.2 = b.2)

include hties

theorem precedes_total (hp : p < xs.length) (hq : q < xs.length) (hne : p ≠ q) :
    Precedes c xs p q ∨ Precedes c xs q p := by
  have hx := List.getElem?_eq_getElem hp
  have hy := List.getElem?_eq_getElem hq
  rw [precedes_iff hx hy, precedes_iff hy hx]
  cases hc : c (xs[p], p) (xs[q], q) with
  | lt => exact .inl rfl
  | eq => exact absurd (hties _ _ hc) hne
  | gt => exact .inr (Std.OrientedCmp.gt_iff_lt.mp hc)

theorem rank_sorted : (rank c xs).Pairwise (Precedes c xs) := by
  have htotal : Std.Total fun a b : α × Nat => c a b ≠ .gt := notAfter_total
  have htrans : IsTrans (α × Nat) fun a b => c a b ≠ .gt := notAfter_trans
  have hsorted := List.pairwise_insertionSort (fun a b : α × Nat => c a b ≠ .gt) xs.zipIdx
  have hapart := List.pairwise_map.mp (rank_nodup c xs)
  refine List.pairwise_map.mpr ((hsorted.and hapart).imp_of_mem ?_)
  intro a b ha hb ⟨hle, hne⟩
  have hmem : ∀ e ∈ xs.zipIdx.insertionSort (fun a b => c a b ≠ .gt), xs[e.2]? = some e.1 := by
    intro e he
    rw [(List.perm_insertionSort _ _).mem_iff] at he
    exact List.mem_zipIdx_iff_getElem?.mp he
  rw [precedes_iff (hmem a ha) (hmem b hb)]
  cases hc : c a b with
  | lt => rfl
  | eq => exact absurd (hties _ _ hc) hne
  | gt => exact absurd hc hle

/-- **The comparator's order of the positions is the only one.** -/
theorem eq_rank_iff {l : List Nat} :
    l = rank c xs ↔ l.Perm (List.range xs.length) ∧ l.Pairwise (Precedes c xs) := by
  constructor
  · rintro rfl
    exact ⟨rank_perm c xs, rank_sorted hties⟩
  · rintro ⟨hperm, hsorted⟩
    refine (hperm.trans (rank_perm c xs).symm).eq_of_pairwise ?_ hsorted (rank_sorted hties)
    intro p q _ _ hpq hqp
    exact absurd hqp (precedes_asymm hpq)

theorem lists_iff (hp : p < xs.length) (hq : q < xs.length) :
    Lists (rank c xs) p q ↔ Precedes c xs p q := by
  have hlisted : ∀ {a b : Nat}, Lists (rank c xs) a b → Precedes c xs a b :=
    List.pairwise_iff_forall_sublist.mp (rank_sorted hties)
  refine ⟨hlisted, fun hpq => ?_⟩
  have hne : p ≠ q := by
    rintro rfl
    exact precedes_irrefl hpq
  refine (lists_or (mem_rank.2 hp) (mem_rank.2 hq) hne).resolve_right fun hqp => ?_
  exact precedes_asymm hpq (hlisted hqp)

end Order

end JewelCase.Library.Ranking
