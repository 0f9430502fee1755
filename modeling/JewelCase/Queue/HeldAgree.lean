import JewelCase.Queue.Invariants

/-!
# Both ways of finding what the shuffle holds

Looking positions up and subtracting the rows that are not held answer the same ranges: in each
overlap both are the longest stretches held. And no sum they are chosen by goes below zero.
-/
namespace JewelCase.Queue

set_option autoImplicit false

open Library
open Library.Lists

/-! ### Stretches -/

theorem heldOffsets_separate (held : Nat → Bool) (n c k : Nat) (hk : k + c = n) :
    Separate (heldOffsets held n (List.range' k (c + 1)) none) ∧
      ∀ first, Separate (heldOffsets held n (List.range' k (c + 1)) (some first)) := by
  induction c generalizing k with
  | zero =>
    obtain rfl : k = n := by omega
    simp [heldOffsets, Separate]
  | succ c ih =>
    obtain ⟨hnone, hsome⟩ := ih (k + 1) (by omega)
    have hlt : decide (k < n) = true := by
      simp only [decide_eq_true_eq]
      omega
    rw [List.range'_succ]
    simp only [heldOffsets, hlt, Bool.true_and]
    cases held k with
    | true => exact ⟨hsome k, hsome⟩
    | false =>
      refine ⟨hnone, fun first => List.pairwise_cons.mpr ⟨?_, hnone⟩⟩
      intro stretch hstretch
      have hcover := (heldOffsets_cover held n c (k + 1) (by omega)).1
      have := (hcover.intervals.mem hstretch).1
      simp only
      omega

theorem betweenGaps_separate (stop : Nat) (gaps : List Nat) (row : Nat)
    (hsorted : gaps.Pairwise (· ≤ ·)) : Separate (betweenGaps stop gaps row) := by
  have hone : Separate (if row < stop then [(row, stop)] else []) := by
    split <;> simp [Separate]
  induction gaps generalizing row with
  | nil => exact hone
  | cons gap gaps ih =>
    rw [List.pairwise_cons] at hsorted
    rw [betweenGaps]
    by_cases hstop : gap ≥ stop
    · rw [if_pos hstop]
      exact hone
    · rw [if_neg hstop]
      have hrest : Separate (betweenGaps stop gaps (gap + 1)) := by
        refine ih (gap + 1) hsorted.2 ?_
        split <;> simp [Separate]
      by_cases hgap : gap > row
      · rw [if_pos hgap, List.singleton_append]
        refine List.pairwise_cons.mpr ⟨?_, hrest⟩
        intro stretch hstretch
        have hcover := betweenGaps_cover stop gaps (gap + 1) hsorted.2 fun g hg => by
          have := hsorted.1 g hg
          omega
        have := (hcover.intervals.mem hstretch).1
        simp only
        omega
      · rw [if_neg hgap, List.nil_append]
        exact hrest

theorem separate_shift {base : Nat} {xs : List (Nat × Nat)} (h : Separate xs)
    (hge : ∀ x ∈ xs, base ≤ x.1 ∧ x.1 < x.2) : Separate (xs.map fun x => (x.1 - base, x.2 - base)) := by
  unfold Separate
  rw [List.pairwise_map]
  refine h.imp_of_mem ?_
  intro a b ha hb hlt
  have := hge a ha
  have := hge b hb
  simp only
  omega

namespace QueueState

variable {q : QueueState}

/-- Looking up and subtracting find the same stretches of an overlap. -/
theorem Readable.stretches_eq (h : q.Readable) (hn : q.order.rows.Nodup) {s : Shuffle}
    (hs : q.shuffle = some s) (first : Nat) {base count : Nat} (hb : base + count ≤ s.base.len) :
    heldOffsets (fun i =>
        match rowOfPosition q.shuffleRows (unpermute s.seed s.base.len (base + i)) with
        | some row => decide (row ≥ first)
        | none => false) count (List.range (count + 1)) none =
      (betweenGaps (base + count) ((q.unheld s first).drop
        (partitionPoint (fun u => decide (u < base)) (q.unheld s first))) base).map
          fun x => (x.1 - base, x.2 - base) := by
  have hgaps := h.gaps_cover hn hs first hb
  have hsorted : (q.unheld s first).Pairwise (· ≤ ·) := sortRows_pairwise _
  refine (lookup_cover hn s first base count).unique (cover_shift hgaps) ?_ ?_
  · rw [List.range_eq_range']
    exact (heldOffsets_separate _ count count 0 (Nat.zero_add _)).1
  · refine separate_shift (betweenGaps_separate _ _ _ (hsorted.sublist (List.drop_sublist _ _))) ?_
    intro x hx
    have hbound := hgaps.intervals.mem hx
    exact ⟨hbound.1, hbound.2.1⟩

theorem overlap_le {base : SpanList} {ranges : List Range} {x : String × Overlap}
    (hx : x ∈ overlapsOf base ranges) : x.2.base + x.2.count ≤ base.len := by
  obtain ⟨r, -, hx⟩ := List.mem_flatMap.mp hx
  obtain ⟨o, ho, rfl⟩ := List.mem_map.mp hx
  have hpos := ((overlapsFrom_apart r.key r.first r.stop base.spans 0).1 o ho).2
  have := (List.getElem?_eq_some_iff.mp (baseOverlap_get ho (i := o.count - 1) (by omega)).1).1
  rw [SpanList.len_eq]
  simp only
  omega

/-- **Both strategies answer the same ranges.** -/
theorem Placed.shuffleHeldBy_agree (h : q.Placed) (first : Nat) (ranges : List Range) :
    q.shuffleHeldBy first ranges (some true) = q.shuffleHeldBy first ranges (some false) := by
  unfold shuffleHeldBy
  cases hs : q.shuffle with
  | none => rfl
  | some s =>
    simp only [Option.getD_some, if_true, Bool.false_eq_true, if_false]
    refine List.flatMap_congr fun x hx => ?_
    have hx' : x ∈ overlapsOf s.base ranges := hx
    have hstretches := h.toReadable.stretches_eq h.order_rows_nodup hs first (overlap_le hx')
    refine (congrArg (List.map fun y => (⟨x.1, x.2.first + y.1, x.2.first + y.2⟩ : Range))
      hstretches).trans ?_
    rw [List.map_map]
    refine List.map_congr_left fun y hy => ?_
    have hbound := (h.toReadable.gaps_cover h.order_rows_nodup hs first
      (overlap_le hx')).intervals.mem hy
    simp only [Function.comp_apply, Range.mk.injEq, true_and]
    omega

theorem Placed.shuffleHeldBy_any (h : q.Placed) (first : Nat) (ranges : List Range)
    (lookup : Option Bool) :
    q.shuffleHeldBy first ranges lookup = q.shuffleHeld first ranges := by
  have hboth : ∀ a b : Bool, q.shuffleHeldBy first ranges (some a) =
      q.shuffleHeldBy first ranges (some b) := by
    intro a b
    cases a <;> cases b
    · rfl
    · exact (h.shuffleHeldBy_agree first ranges).symm
    · exact h.shuffleHeldBy_agree first ranges
    · rfl
  have hsome : ∀ lookup : Option Bool, ∃ a : Bool, q.shuffleHeldBy first ranges lookup =
      q.shuffleHeldBy first ranges (some a) := by
    intro lookup
    cases lookup with
    | some a => exact ⟨a, rfl⟩
    | none =>
      unfold shuffleHeldBy
      cases q.shuffle with
      | none => exact ⟨true, rfl⟩
      | some s => exact ⟨_, rfl⟩
  obtain ⟨a, ha⟩ := hsome lookup
  obtain ⟨b, hb⟩ := hsome none
  rw [shuffleHeld, ha, hb]
  exact hboth a b

theorem sum_lens_le {m : Nat} {rows : List ShuffleRow} {first : Nat}
    (hascending : rows.Pairwise fun a b => a.start + a.len ≤ b.start)
    (hfirst : ∀ r ∈ rows, first ≤ r.start) (hm : ∀ r ∈ rows, r.start + r.len ≤ m)
    (hle : first ≤ m) : first + (rows.map (·.len)).sum ≤ m := by
  induction rows generalizing first with
  | nil => simpa using hle
  | cons r rows ih =>
    rw [List.pairwise_cons] at hascending
    have hr := hfirst r List.mem_cons_self
    have hrm := hm r List.mem_cons_self
    have hrest := ih hascending.2 hascending.1
      (fun s hs => hm s (List.mem_cons_of_mem _ hs)) hrm
    rw [List.map_cons, List.sum_cons]
    omega

/-- In every queue there is: both strategies answer the same ranges, and so does the one chosen.
None is empty. Together they hold the positions of the ranges that the shuffle's base holds and
that the context reads at row `first` or after. The rows of the base that the context reads are no
more than it has. -/
theorem held_agree (calls : List Call) :
    (∀ first ranges, (run calls).shuffleHeldBy first ranges (some true) =
      (run calls).shuffleHeldBy first ranges (some false)) ∧
    (∀ first ranges, (run calls).shuffleHeldBy first ranges none =
      (run calls).shuffleHeldBy first ranges (some true)) ∧
    (∀ first ranges lookup, ranges.Pairwise Range.Apart →
      (∀ range ∈ (run calls).shuffleHeldBy first ranges lookup, range.first < range.stop) ∧
      ∀ s, (run calls).shuffle = some s → ∀ item : ItemId,
        (∃ range ∈ (run calls).shuffleHeldBy first ranges lookup, range.Holds item) ↔
          (∃ range ∈ ranges, range.Holds item) ∧
          ∃ base row, s.base.rows[base]? = some (.key item.key, item.pos) ∧ first ≤ row ∧
            (run calls).order.rows[row]? = some (.shuffle, unpermute s.seed s.base.len base)) ∧
    (∀ s, (run calls).shuffle = some s →
      ((run calls).shuffleRows.map (·.len)).sum ≤ s.base.len) := by
  have hplaced := (run_valid calls).placed
  refine ⟨hplaced.shuffleHeldBy_agree, ?_, ?_, ?_⟩
  · intro first ranges
    rw [hplaced.shuffleHeldBy_any, hplaced.shuffleHeldBy_any]
  · intro first ranges lookup hapart
    rw [hplaced.shuffleHeldBy_any]
    obtain ⟨hpos, -, hcovers⟩ := hplaced.shuffleHeld_spec first hapart
    refine ⟨hpos, ?_⟩
    intro s hs item
    rw [hcovers item]
    refine and_congr_right fun _ => ?_
    constructor
    · intro hfrom
      obtain ⟨base, hbase⟩ : ∃ base : Nat, s.base.rows[base]? = some item.row := by
        obtain ⟨row, p, -, -, hp⟩ := hfrom
        simp only [rowItem, hs, Option.bind_some] at hp
        have := (Shuffle.item_eq_some hp).2
        exact List.mem_iff_getElem?.mp (mem_keyItems.1 (List.mem_of_getElem? this))
      obtain ⟨row, hrow, hread⟩ := (hplaced.heldFrom_iff hs hbase).mpr hfrom
      exact ⟨base, row, hbase, hrow, hread⟩
    · rintro ⟨base, row, hbase, hrow, hread⟩
      exact (hplaced.heldFrom_iff hs hbase).mp ⟨row, hrow, hread⟩
  · intro s hs
    have hn := hplaced.order_rows_nodup
    have hsum := sum_lens_le (shuffleRows_ok hn).ascending
      (fun r _ => Nat.zero_le r.start) (hplaced.toReadable.shuffleRow_le hn hs) (Nat.zero_le _)
    rwa [Nat.zero_add] at hsum

end QueueState

end JewelCase.Queue
