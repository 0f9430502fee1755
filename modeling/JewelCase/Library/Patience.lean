import Mathlib.Data.List.Sort
import Mathlib.Data.List.Perm.Subperm
import Mathlib.Order.Nat

/-!
# Longest increasing runs by piles

Indices are dealt in order onto piles, each onto the first whose top is not below it, and each is
linked to the top of the pile before. Followed back from the last pile, the links are a strictly
increasing run, and no strictly increasing run is longer than the number of piles.
-/
namespace JewelCase.Library.Patience

set_option autoImplicit false

variable {α : Type} [LinearOrder α]

/-- The index on top of each pile, and each index's link back. -/
structure Piles where
  tails : List Nat
  before : List (Option Nat)

/-- The pile that index `i` goes onto. -/
def pileOf (val : Nat → α) (s : Piles) (i : Nat) : Nat :=
  (s.tails.takeWhile fun t => decide (val t < val i)).length

/-- Deals index `i`. -/
def place (val : Nat → α) (s : Piles) (i : Nat) : Piles :=
  let n := pileOf val s i
  { tails := if n = s.tails.length then s.tails ++ [i] else s.tails.set n i
    before := s.before ++ [if n = 0 then none else s.tails[n - 1]?] }

/-- Deals the first `n` indices. -/
def piles (val : Nat → α) (n : Nat) : Piles := (List.range n).foldl (place val) ⟨[], []⟩

/-- The links followed back from an index, for at most so many steps. -/
def walkBack (before : List (Option Nat)) : Nat → Option Nat → List Nat
  | 0, _ => []
  | _, none => []
  | fuel + 1, some i => i :: walkBack before fuel (before[i]?.join)

/-- The run found among the first `n` indices, last first. -/
def run (val : Nat → α) (n : Nat) : List Nat :=
  walkBack (piles val n).before n (piles val n).tails.getLast?

/-- What holds once the first `n` indices are dealt, `depth` the pile each went onto. -/
structure Dealt (val : Nat → α) (n : Nat) (s : Piles) (depth : Nat → Nat) : Prop where
  length : s.before.length = n
  tail_lt : ∀ d t, s.tails[d]? = some t → t < n ∧ depth t = d
  tails_lt : s.tails.Pairwise fun a b => val a < val b
  top : ∀ k < n, ∃ t, s.tails[depth k]? = some t ∧ val t ≤ val k
  link_none : ∀ k < n, depth k = 0 → s.before[k]? = some none
  link_some : ∀ k < n, ∀ d, depth k = d + 1 →
    ∃ b, s.before[k]? = some (some b) ∧ b < k ∧ val b < val k ∧ depth b = d
  deeper : ∀ j k, j < k → k < n → val j < val k → depth j < depth k

variable {val : Nat → α} {n : Nat} {s : Piles} {depth : Nat → Nat}

theorem pileOf_le (val : Nat → α) (s : Piles) (i : Nat) : pileOf val s i ≤ s.tails.length :=
  (List.takeWhile_prefix _).length_le

theorem takeWhile_lt {β : Type} {p : β → Bool} {xs : List β} {d : Nat} {x : β}
    (hd : d < (xs.takeWhile p).length) (hx : xs[d]? = some x) : p x = true := by
  induction xs generalizing d with
  | nil => cases hx
  | cons y ys ih =>
    by_cases hy : p y
    · rw [List.takeWhile_cons_of_pos hy, List.length_cons] at hd
      cases d with
      | zero =>
        obtain rfl : y = x := by simpa using hx
        exact hy
      | succ d => exact ih (by omega) hx
    · rw [List.takeWhile_cons_of_neg hy] at hd
      cases hd

theorem takeWhile_stop {β : Type} {p : β → Bool} {xs : List β} {x : β}
    (hx : xs[(xs.takeWhile p).length]? = some x) : p x = false := by
  induction xs with
  | nil => cases hx
  | cons y ys ih =>
    by_cases hy : p y
    · rw [List.takeWhile_cons_of_pos hy, List.length_cons] at hx
      exact ih hx
    · rw [List.takeWhile_cons_of_neg hy] at hx
      obtain rfl : y = x := by simpa using hx
      simpa using hy

/-- The tops of the piles before are below. -/
theorem lt_pileOf {i d t : Nat} (hd : d < pileOf val s i) (ht : s.tails[d]? = some t) :
    val t < val i := by
  have hp := takeWhile_lt hd ht
  exact of_decide_eq_true hp

/-- The top of the pile itself is not. -/
theorem pileOf_top {i t : Nat} (ht : s.tails[pileOf val s i]? = some t) : val i ≤ val t := by
  have hp := takeWhile_stop ht
  exact not_lt.mp (of_decide_eq_false hp)

/-- The piles once `i` is dealt. -/
theorem place_tails (val : Nat → α) (s : Piles) (i : Nat) (d : Nat) :
    (place val s i).tails[d]? = if d = pileOf val s i then some i else s.tails[d]? := by
  have hle := pileOf_le val s i
  unfold place
  by_cases hn : pileOf val s i = s.tails.length
  · simp only [if_pos hn]
    by_cases hd : d = pileOf val s i
    · rw [if_pos hd, hd, hn, List.getElem?_concat_length]
    · rw [if_neg hd]
      rcases Nat.lt_or_ge d s.tails.length with hlt | hge
      · rw [List.getElem?_append_left hlt]
      · rw [List.getElem?_eq_none (by simpa using by omega), List.getElem?_eq_none hge]
  · simp only [if_neg hn]
    by_cases hd : d = pileOf val s i
    · rw [if_pos hd, hd, List.getElem?_set_self (by omega)]
    · rw [if_neg hd, List.getElem?_set_ne (Ne.symm hd)]

theorem place_before (val : Nat → α) (s : Piles) (i : Nat) :
    (place val s i).before =
      s.before ++ [if pileOf val s i = 0 then none else s.tails[pileOf val s i - 1]?] := rfl

/-- **Dealing one more index.** It goes one pile deeper than every earlier index below it. -/
theorem Dealt.place (h : Dealt val n s depth) :
    Dealt val (n + 1) (place val s n) (Function.update depth n (pileOf val s n)) := by
  have hold : ∀ k, k < n → Function.update depth n (pileOf val s n) k = depth k :=
    fun k hk => Function.update_of_ne (Nat.ne_of_lt hk) _ _
  have hnew : Function.update depth n (pileOf val s n) n = pileOf val s n :=
    Function.update_self _ _ _
  have hbefore : ∀ k, k < n → (Patience.place val s n).before[k]? = s.before[k]? := by
    intro k hk
    rw [place_before, List.getElem?_append_left (by rw [h.length]; exact hk)]
  have hlink : (Patience.place val s n).before[n]? =
      some (if pileOf val s n = 0 then none else s.tails[pileOf val s n - 1]?) := by
    rw [place_before, ← h.length, List.getElem?_concat_length]
  have htop : ∀ k < n, depth k = pileOf val s n → val n ≤ val k := by
    intro k hk he
    obtain ⟨t, ht, hle⟩ := h.top k hk
    rw [he] at ht
    exact (pileOf_top ht).trans hle
  refine ⟨?_, ?_, ?_, ?_, ?_, ?_, ?_⟩
  · rw [place_before, List.length_append, h.length]
    rfl
  · intro d t ht
    rw [place_tails] at ht
    by_cases hd : d = pileOf val s n
    · rw [if_pos hd] at ht
      obtain rfl : n = t := by simpa using ht
      exact ⟨Nat.lt_succ_self _, hnew.trans hd.symm⟩
    · rw [if_neg hd] at ht
      obtain ⟨hlt, he⟩ := h.tail_lt d t ht
      exact ⟨by omega, (hold t hlt).trans he⟩
  · rw [List.pairwise_iff_getElem]
    intro c d hc hd hcd
    have hc' := place_tails val s n c
    have hd' := place_tails val s n d
    rw [List.getElem?_eq_getElem hc] at hc'
    rw [List.getElem?_eq_getElem hd] at hd'
    by_cases hcn : c = pileOf val s n
    · rw [if_pos hcn, Option.some.injEq] at hc'
      rw [if_neg (by omega)] at hd'
      obtain ⟨hdl, hdg⟩ := List.getElem?_eq_some_iff.mp hd'.symm
      have hcl : c < s.tails.length := by omega
      have hget : s.tails[pileOf val s n]? = some s.tails[c] := by
        rw [← hcn, List.getElem?_eq_getElem hcl]
      have h₁ := pileOf_top hget
      have h₂ := List.pairwise_iff_getElem.mp h.tails_lt c d hcl hdl hcd
      rw [hc', ← hdg]
      exact h₁.trans_lt h₂
    · rw [if_neg hcn] at hc'
      by_cases hdn : d = pileOf val s n
      · rw [if_pos hdn, Option.some.injEq] at hd'
        rw [hd']
        exact lt_pileOf (by omega) hc'.symm
      · rw [if_neg hdn] at hd'
        obtain ⟨hcl, hcg⟩ := List.getElem?_eq_some_iff.mp hc'.symm
        obtain ⟨hdl, hdg⟩ := List.getElem?_eq_some_iff.mp hd'.symm
        rw [← hcg, ← hdg]
        exact List.pairwise_iff_getElem.mp h.tails_lt c d hcl hdl hcd
  · intro k hk
    rcases Nat.lt_succ_iff_lt_or_eq.mp hk with hk | rfl
    · rw [hold k hk, place_tails]
      by_cases hd : depth k = pileOf val s n
      · rw [if_pos hd]
        exact ⟨n, rfl, htop k hk hd⟩
      · rw [if_neg hd]
        exact h.top k hk
    · rw [hnew, place_tails, if_pos rfl]
      exact ⟨k, rfl, le_refl _⟩
  · intro k hk hd
    rcases Nat.lt_succ_iff_lt_or_eq.mp hk with hk | rfl
    · rw [hbefore k hk]
      exact h.link_none k hk (by rwa [hold k hk] at hd)
    · rw [hnew] at hd
      rw [hlink, if_pos hd]
  · intro k hk d hd
    rcases Nat.lt_succ_iff_lt_or_eq.mp hk with hk | rfl
    · rw [hold k hk] at hd
      obtain ⟨b, hb, hbk, hlt, hbd⟩ := h.link_some k hk d hd
      exact ⟨b, by rw [hbefore k hk, hb], hbk, hlt, by rw [hold b (hbk.trans hk), hbd]⟩
    · rw [hnew] at hd
      have hdl : d < s.tails.length := by
        have := pileOf_le val s k
        omega
      have hget : s.tails[d]? = some s.tails[d] := List.getElem?_eq_getElem hdl
      obtain ⟨hlt, hdd⟩ := h.tail_lt d _ hget
      refine ⟨s.tails[d], ?_, hlt, lt_pileOf (by omega) hget, by rw [hold _ hlt, hdd]⟩
      rw [hlink, if_neg (by omega), hd, Nat.add_sub_cancel, hget]
  · intro j k hjk hk hlt
    rcases Nat.lt_succ_iff_lt_or_eq.mp hk with hk | rfl
    · rw [hold j (hjk.trans hk), hold k hk]
      exact h.deeper j k hjk hk hlt
    · rw [hold j hjk, hnew]
      obtain ⟨t, ht, hle⟩ := h.top j hjk
      by_contra hge
      rcases Nat.lt_or_eq_of_le (not_lt.mp hge) with hgt | heq
      · -- the tops ascend, so a deeper pile's top is not below either
        have hpl : pileOf val s k < s.tails.length :=
          hgt.trans (List.getElem?_eq_some_iff.mp ht).1
        have h₁ := @pileOf_top _ _ val s k _ (List.getElem?_eq_getElem hpl)
        obtain ⟨htl, htg⟩ := List.getElem?_eq_some_iff.mp ht
        have h₂ := List.pairwise_iff_getElem.mp h.tails_lt _ _ hpl htl hgt
        rw [htg] at h₂
        exact absurd (hlt.trans_le (h₁.trans (h₂.le.trans hle))) (lt_irrefl _)
      · exact absurd (hlt.trans_le (htop j hjk heq.symm)) (lt_irrefl _)

theorem exists_dealt (val : Nat → α) (n : Nat) : ∃ depth, Dealt val n (piles val n) depth := by
  induction n with
  | zero =>
    refine ⟨fun _ => 0, rfl, ?_, .nil, ?_, ?_, ?_, ?_⟩
    · intro d t ht
      cases ht
    all_goals intros; omega
  | succ n ih =>
    obtain ⟨depth, h⟩ := ih
    have hsucc : piles val (n + 1) = place val (piles val n) n := by
      rw [piles, List.range_succ, List.foldl_append]
      rfl
    rw [hsucc]
    exact ⟨_, h.place⟩

/-! ### The run -/

/-- Links followed back from an index of depth `d`: `d + 1` indices, each before and below the one
it was reached from. -/
theorem Dealt.walkBack_spec (h : Dealt val n s depth) {d : Nat} {i : Nat} (hi : i < n)
    (hd : depth i = d) {fuel : Nat} (hf : d < fuel) :
    (walkBack s.before fuel (some i)).length = d + 1 ∧
      (∀ j ∈ walkBack s.before fuel (some i), j ≤ i ∧ val j ≤ val i) ∧
      (walkBack s.before fuel (some i)).Pairwise fun a b => b < a ∧ val b < val a := by
  induction d generalizing i fuel with
  | zero =>
    obtain ⟨fuel, rfl⟩ : ∃ m, fuel = m + 1 := ⟨fuel - 1, by omega⟩
    have hend : walkBack s.before fuel none = [] := by cases fuel <;> rfl
    rw [walkBack, h.link_none i hi hd, Option.join_some, hend]
    simp
  | succ d ih =>
    obtain ⟨fuel, rfl⟩ : ∃ m, fuel = m + 1 := ⟨fuel - 1, by omega⟩
    obtain ⟨b, hb, hbi, hlt, hbd⟩ := h.link_some i hi d hd
    obtain ⟨hlen, hle, hpw⟩ := @ih b (hbi.trans hi) hbd fuel (by omega)
    rw [walkBack, hb, Option.join_some]
    refine ⟨by rw [List.length_cons, hlen], ?_, List.pairwise_cons.mpr ⟨?_, hpw⟩⟩
    · intro j hj
      rcases List.mem_cons.mp hj with rfl | hj
      · exact ⟨le_refl _, le_refl _⟩
      · exact ⟨(hle j hj).1.trans hbi.le, (hle j hj).2.trans hlt.le⟩
    · intro j hj
      exact ⟨(hle j hj).1.trans_lt hbi, (hle j hj).2.trans_lt hlt⟩

theorem Dealt.depth_lt (h : Dealt val n s depth) {k : Nat} (hk : k < n) :
    depth k < s.tails.length := by
  obtain ⟨t, ht, -⟩ := h.top k hk
  exact (List.getElem?_eq_some_iff.mp ht).1

theorem Dealt.tails_le (h : Dealt val n s depth) : s.tails.length ≤ n := by
  have hn : s.tails.Nodup := by
    rw [List.nodup_iff_getElem?_ne_getElem?]
    intro c d hcd hd he
    rw [List.getElem?_eq_getElem hd] at he
    have h₁ := (h.tail_lt _ _ he).2
    have h₂ := (h.tail_lt _ _ (List.getElem?_eq_getElem hd)).2
    omega
  have hsub : s.tails ⊆ List.range n := by
    intro t ht
    obtain ⟨d, hd⟩ := List.mem_iff_getElem?.mp ht
    exact List.mem_range.mpr (h.tail_lt d t hd).1
  have := (hn.subperm hsub).length_le
  rwa [List.length_range] at this

/-- The run found is increasing, and as long as there are piles. -/
theorem run_spec (val : Nat → α) (n : Nat) :
    (run val n).length = (piles val n).tails.length ∧ (∀ i ∈ run val n, i < n) ∧
      (run val n).Pairwise fun a b => b < a ∧ val b < val a := by
  obtain ⟨depth, h⟩ := exists_dealt val n
  unfold run
  cases hlast : (piles val n).tails.getLast? with
  | none =>
    have hend : walkBack (piles val n).before n none = [] := by cases n <;> rfl
    rw [hend, List.getLast?_eq_none_iff.mp hlast]
    simp
  | some t =>
    have hne : (piles val n).tails ≠ [] := by
      intro hnil
      rw [hnil] at hlast
      cases hlast
    have hpos := List.length_pos_iff.mpr hne
    rw [List.getLast?_eq_getElem?] at hlast
    obtain ⟨hlt, hd⟩ := h.tail_lt _ t hlast
    have hfuel := h.tails_le
    obtain ⟨hlen, hle, hpw⟩ := @Dealt.walkBack_spec _ _ _ _ _ _ h _ _ hlt hd n (by omega)
    exact ⟨by omega, fun i hi => (hle i hi).1.trans_lt hlt, hpw⟩

/-- **No increasing run is longer.** Its indices go ever deeper, and there is no pile further. -/
theorem length_le_run {is : List Nat} (hlt : ∀ i ∈ is, i < n)
    (hpw : is.Pairwise fun a b => a < b ∧ val a < val b) :
    is.length ≤ (run val n).length := by
  obtain ⟨depth, h⟩ := exists_dealt val n
  rw [(run_spec val n).1]
  have hdeep : (is.map depth).Pairwise (· < ·) := by
    rw [List.pairwise_map]
    refine hpw.imp_of_mem ?_
    intro a b _ hb hab
    exact h.deeper a b hab.1 (hlt b hb) hab.2
  have hsub : is.map depth ⊆ List.range (piles val n).tails.length := by
    intro d hd
    obtain ⟨i, hi, rfl⟩ := List.mem_map.mp hd
    exact List.mem_range.mpr (h.depth_lt (hlt i hi))
  have hn : (is.map depth).Nodup := hdeep.imp Nat.ne_of_lt
  have := (hn.subperm hsub).length_le
  rwa [List.length_map, List.length_range] at this

end JewelCase.Library.Patience
