import JewelCase.Queue.BaseRows

/-!
# What the shuffle still holds

Rewind asks which of the positions it goes back over the context still has ahead through the
shuffle. The two ways the code answers, looking each position up and subtracting the rows that
are not held, give the same stretches.
-/
namespace JewelCase.Queue

set_option autoImplicit false

open Library
open Library.Lists

/-- One pass over the offsets finds the stretches held. -/
theorem heldOffsets_cover (held : Nat → Bool) (n c k : Nat) (hk : k + c = n) :
    Cover (held · = true) k n (heldOffsets held n (List.range' k (c + 1)) none) ∧
      ∀ f < k, (∀ i, f ≤ i → i < k → held i = true) →
        Cover (held · = true) f n (heldOffsets held n (List.range' k (c + 1)) (some f)) := by
  induction c generalizing k with
  | zero =>
    obtain rfl : k = n := by omega
    have hnil : Cover (held · = true) k k [] := Cover.nil fun i h1 h2 => by omega
    simp only [List.range'_succ, List.range'_zero, heldOffsets, Nat.lt_irrefl, decide_false,
      Bool.false_and]
    exact ⟨hnil, fun f hf hall => hnil.cons hf (Nat.le_refl _) hall⟩
  | succ c ih =>
    obtain ⟨hnone, hsome⟩ := ih (k + 1) (by omega)
    have hlt : decide (k < n) = true := by simp; omega
    rw [List.range'_succ]
    simp only [heldOffsets, hlt, Bool.true_and]
    cases hh : held k with
    | true =>
      have hone : ∀ i, k ≤ i → i < k + 1 → held i = true := by
        intro i h1 h2
        obtain rfl : i = k := by omega
        exact hh
      refine ⟨hsome k (by omega) hone, fun f hf hall => hsome f (by omega) ?_⟩
      intro i h1 h2
      by_cases hi : i < k
      · exact hall i h1 hi
      · exact hone i (by omega) h2
    | false =>
      have hskip : Cover (held · = true) k n
          (heldOffsets held n (List.range' (k + 1) (c + 1)) none) := by
        refine hnone.skip (by omega) ?_
        intro i h1 h2 _
        obtain rfl : i = k := by omega
        simp [hh]
      exact ⟨hskip, fun f hf hall => hskip.cons hf (by omega) hall⟩

/-- What is left where no gap is in the way. -/
theorem betweenGaps_whole {stop row : Nat} {gaps : List Nat} (h : ∀ g ∈ gaps, stop ≤ g) :
    Cover (· ∉ gaps) row stop (if row < stop then [(row, stop)] else []) := by
  split
  · rename_i hlt
    refine (Cover.nil fun i h1 h2 => by omega : Cover _ stop stop []).cons hlt (Nat.le_refl _) ?_
    intro i h1 h2 hi
    have := h i hi
    omega
  · exact Cover.nil fun i h1 h2 => by omega

/-- The stretches between gaps are the rows that are no gap. -/
theorem betweenGaps_cover (stop : Nat) (gaps : List Nat) (row : Nat)
    (hsorted : gaps.Pairwise (· ≤ ·)) (hge : ∀ g ∈ gaps, row ≤ g + 1) :
    Cover (· ∉ gaps) row stop (betweenGaps stop gaps row) := by
  induction gaps generalizing row with
  | nil => exact betweenGaps_whole (by simp)
  | cons gap gaps ih =>
    rw [List.pairwise_cons] at hsorted
    rw [betweenGaps]
    by_cases hstop : gap ≥ stop
    · rw [if_pos hstop]
      refine betweenGaps_whole fun g hg => ?_
      rcases List.mem_cons.mp hg with rfl | hg
      · exact hstop
      · have := hsorted.1 g hg
        omega
    · rw [if_neg hstop]
      have hge' : ∀ g ∈ gaps, gap + 1 ≤ g + 1 := fun g hg => by
        have := hsorted.1 g hg
        omega
      have hrest := ih (gap + 1) hsorted.2 hge'
      have hrest' : Cover (· ∉ gap :: gaps) (gap + 1) stop (betweenGaps stop gaps (gap + 1)) := by
        refine hrest.congr fun i h1 _ => ?_
        simp only [List.mem_cons, not_or]
        constructor
        · exact fun h => ⟨by omega, h⟩
        · exact fun h => h.2
      have hskip : Cover (· ∉ gap :: gaps) gap stop (betweenGaps stop gaps (gap + 1)) := by
        refine hrest'.skip (by omega) ?_
        intro i h1 h2 _ hi
        obtain rfl : i = gap := by omega
        exact hi (by simp)
      have hrow := hge gap (by simp)
      by_cases hgap : gap > row
      · rw [if_pos hgap, List.singleton_append]
        refine hskip.cons hgap (by omega) ?_
        intro i h1 h2 hi
        rcases List.mem_cons.mp hi with rfl | hi
        · omega
        · have := hsorted.1 i hi
          omega
      · rw [if_neg hgap, List.nil_append]
        by_cases heq : gap = row
        · exact heq ▸ hskip
        · obtain rfl : row = gap + 1 := by omega
          exact hrest'

/-- Stretches of base rows as offsets into an overlap. -/
theorem cover_shift {p : Nat → Prop} {b n : Nat} {xs : List (Nat × Nat)}
    (h : Cover p b (b + n) xs) :
    Cover (fun i => p (b + i)) 0 n (xs.map fun x => (x.1 - b, x.2 - b)) := by
  have hint : ∀ (ys : List (Nat × Nat)) (lo : Nat), b ≤ lo → Intervals lo (b + n) ys →
      Intervals (lo - b) n (ys.map fun x => (x.1 - b, x.2 - b)) := by
    intro ys
    induction ys with
    | nil => exact fun _ _ _ => trivial
    | cons y ys ih =>
      intro lo hlo hy
      obtain ⟨h1, h2, h3, h4⟩ := hy
      exact ⟨by simp only; omega, by simp only; omega, by simp only; omega, ih y.2 (by omega) h4⟩
  refine ⟨by simpa using hint xs b (Nat.le_refl _) h.intervals, fun i => ?_⟩
  have hc := h.covers (b + i)
  constructor
  · rintro ⟨x, hx, h1, h2⟩
    obtain ⟨y, hy, rfl⟩ := List.mem_map.mp hx
    have hb := h.intervals.mem hy
    simp only at h1 h2
    have := hc.mp ⟨y, hy, by omega, by omega⟩
    exact ⟨Nat.zero_le _, by omega, this.2.2⟩
  · rintro ⟨-, h2, h3⟩
    obtain ⟨y, hy, h4, h5⟩ := hc.mpr ⟨by omega, by omega, h3⟩
    have hb := h.intervals.mem hy
    exact ⟨_, List.mem_map.mpr ⟨y, hy, rfl⟩, by simp only; omega, by simp only; omega⟩

namespace QueueState

variable {q : QueueState}

/-- Whether the context reads base row `b` at row `first` or after. -/
def HeldFrom (q : QueueState) (s : Shuffle) (first b : Nat) : Prop := ∃ i, first ≤ i ∧ q.ReadsBase s b i

/-- The overlaps of ranges with the base, each with its view. -/
def overlapsOf (base : SpanList) (ranges : List Range) : List (String × Overlap) :=
  ranges.flatMap fun r => (baseOverlaps base r.key r.first r.stop).map (r.key, ·)

/-- The base rows not held: those gone and those read before `first`. -/
def unheld (q : QueueState) (s : Shuffle) (first : Nat) : List Nat :=
  sortRows (goneRows q.shuffleRows s.seed s.base.len ++ q.shuffleRows.flatMap fun r =>
    (List.range' r.start (min (first - r.row) r.len)).map (permute s.seed s.base.len))

theorem Readable.mem_unheld (h : q.Readable) (hn : q.order.rows.Nodup) {s : Shuffle}
    (hs : q.shuffle = some s) {first b : Nat} (hb : b < s.base.len) :
    b ∉ q.unheld s first ↔ q.HeldFrom s first b := by
  have hok := shuffleRows_ok hn
  have hle := h.shuffleRow_le hn hs
  have hpassed : (∃ r ∈ q.shuffleRows, ∃ p ∈ List.range' r.start (min (first - r.row) r.len),
      permute s.seed s.base.len p = b) ↔ ∃ i < first, q.ReadsBase s b i := by
    constructor
    · rintro ⟨r, hr, p, hp, rfl⟩
      rw [List.mem_range'_1] at hp
      have hrm := hle r hr
      refine ⟨r.row + (p - r.start), by omega, ?_⟩
      rw [ReadsBase, unpermute_permute s.seed (by omega)]
      exact (hok.reads _ p).mpr ⟨r, hr, ⟨hp.1, by omega⟩, rfl⟩
    · rintro ⟨i, hi, hread⟩
      obtain ⟨r, hr, hp, rfl⟩ := (hok.reads i _).mp hread
      have h1 := hp.1
      have h2 := hp.2
      refine ⟨r, hr, _, ?_, permute_unpermute s.seed hb⟩
      rw [List.mem_range'_1]
      omega
  rw [unheld, mem_sortRows, List.mem_append, List.mem_flatMap, h.mem_goneRows hn hs]
  simp only [List.mem_map, hpassed, not_or, not_and, not_forall, not_not]
  constructor
  · rintro ⟨h1, h2⟩
    obtain ⟨i, hi⟩ := h1 hb
    refine ⟨i, ?_, hi⟩
    by_contra hlt
    exact h2 ⟨i, by omega, hi⟩
  · rintro ⟨i, hle', hi⟩
    refine ⟨fun _ => ⟨i, hi⟩, ?_⟩
    rintro ⟨j, hj, hread⟩
    have := ReadsBase.unique hn hi hread
    omega

/-- Looking up each offset of an overlap. -/
theorem lookup_cover (hn : q.order.rows.Nodup) (s : Shuffle) (first base count : Nat) :
    Cover (fun i => q.HeldFrom s first (base + i)) 0 count
      (heldOffsets (fun i =>
        match rowOfPosition q.shuffleRows (unpermute s.seed s.base.len (base + i)) with
        | some row => decide (row ≥ first)
        | none => false) count (List.range (count + 1)) none) := by
  rw [List.range_eq_range']
  refine (heldOffsets_cover _ count count 0 (Nat.zero_add _)).1.congr fun i _ hi => ?_
  cases hrow : rowOfPosition q.shuffleRows (unpermute s.seed s.base.len (base + i)) with
  | none =>
    simp only [Bool.false_eq_true, false_iff]
    rintro ⟨j, -, hj⟩
    rw [(rowOfPosition_readsBase hn).mpr hj] at hrow
    cases hrow
  | some row =>
    have hread := (rowOfPosition_readsBase hn).mp hrow
    simp only [decide_eq_true_eq]
    constructor
    · exact fun hge => ⟨row, hge, hread⟩
    · rintro ⟨j, hj, hread'⟩
      rw [ReadsBase.unique hn hread hread']
      exact hj

/-- Subtracting the rows of an overlap that are not held. -/
theorem Readable.gaps_cover (h : q.Readable) (hn : q.order.rows.Nodup) {s : Shuffle}
    (hs : q.shuffle = some s) (first : Nat) {base count : Nat} (hb : base + count ≤ s.base.len) :
    Cover (q.HeldFrom s first) base (base + count)
      (betweenGaps (base + count) ((q.unheld s first).drop
        (partitionPoint (fun u => decide (u < base)) (q.unheld s first))) base) := by
  have hsorted : (q.unheld s first).Pairwise (· ≤ ·) := sortRows_pairwise _
  rw [drop_partitionPoint, dropWhile_lt_eq_filter hsorted]
  refine (betweenGaps_cover _ _ base (hsorted.filter _) ?_).congr ?_
  · intro g hg
    have := (List.mem_filter.mp hg).2
    simp only [decide_eq_true_eq] at this
    omega
  · intro i h1 h2
    rw [List.mem_filter, ← h.mem_unheld hn hs (by omega)]
    simp [h1]

/-- **Both strategies find the same**: in each overlap, the stretches whose base rows the
context reads from `first` on. -/
theorem Placed.shuffleHeldBy_eq (h : q.Placed) {s : Shuffle} (hs : q.shuffle = some s)
    (first : Nat) (ranges : List Range) (lookup : Option Bool) :
    ∃ stretches : String × Overlap → List (Nat × Nat),
      q.shuffleHeldBy first ranges lookup =
        (overlapsOf s.base ranges).flatMap (fun x => (stretches x).map fun y =>
          (⟨x.1, x.2.first + y.1, x.2.first + y.2⟩ : Range)) ∧
      ∀ x ∈ overlapsOf s.base ranges,
        Cover (fun i => q.HeldFrom s first (x.2.base + i)) 0 x.2.count (stretches x) := by
  have hn := h.order_rows_nodup
  have hbound : ∀ x ∈ overlapsOf s.base ranges, x.2.base + x.2.count ≤ s.base.len := by
    intro x hx
    obtain ⟨r, -, hx⟩ := List.mem_flatMap.mp hx
    obtain ⟨o, ho, rfl⟩ := List.mem_map.mp hx
    have hpos := ((overlapsFrom_apart r.key r.first r.stop s.base.spans 0).1 o ho).2
    have := (List.getElem?_eq_some_iff.mp (baseOverlap_get ho (i := o.count - 1) (by omega)).1).1
    rw [SpanList.len_eq]
    simp only
    omega
  unfold shuffleHeldBy
  simp only [hs]
  split
  · exact ⟨fun x => _, rfl, fun x _ => lookup_cover hn s first x.2.base x.2.count⟩
  · refine ⟨fun x => (betweenGaps (x.2.base + x.2.count) ((q.unheld s first).drop
      (partitionPoint (fun u => decide (u < x.2.base)) (q.unheld s first))) x.2.base).map
      fun y => (y.1 - x.2.base, y.2 - x.2.base), ?_, fun x hx => ?_⟩
    · refine List.flatMap_congr fun x hx => ?_
      have hcover := h.toReadable.gaps_cover hn hs first (hbound x hx)
      rw [List.map_map]
      refine List.map_congr_left fun y hy => ?_
      have := hcover.intervals.mem hy
      simp only [Function.comp, Range.mk.injEq, true_and]
      omega
    · exact cover_shift (h.toReadable.gaps_cover hn hs first (hbound x hx))

end QueueState

/-! ### Ranges as sets of items -/

/-- Whether a range holds an item. -/
def Range.Holds (r : Range) (it : ItemId) : Prop :=
  r.key = it.key ∧ r.first ≤ it.pos ∧ it.pos < r.stop

/-- Whether two ranges hold no item in common. -/
def Range.Apart (a b : Range) : Prop := ∀ it, a.Holds it → ¬ b.Holds it

namespace QueueState

variable {q : QueueState}

/-- Whether the context plays `it` through the shuffle at row `first` or after. -/
def ShuffledFrom (q : QueueState) (first : Nat) (it : ItemId) : Prop :=
  ∃ i p, first ≤ i ∧ q.order.rows[i]? = some (.shuffle, p) ∧
    rowItem q.shuffle (.shuffle, p) = some it

theorem Placed.heldFrom_iff (h : q.Placed) {s : Shuffle} (hs : q.shuffle = some s) {first b : Nat}
    {it : ItemId} (hb : s.base.rows[b]? = some it.row) :
    q.HeldFrom s first b ↔ q.ShuffledFrom first it := by
  have hok := h.shuffle_ok s hs
  have hitem : s.baseItems[b]? = some it := by
    rw [Shuffle.baseItems, hok.keys.total.getElem?, hb]
    rfl
  simp only [HeldFrom, ShuffledFrom, ReadsBase, hs, rowItem, Option.bind_some,
    hok.item_eq_some hitem]
  constructor
  · rintro ⟨i, hi, hr⟩
    exact ⟨i, _, hi, hr, rfl⟩
  · rintro ⟨i, p, hi, hr, rfl⟩
    exact ⟨i, hi, hr⟩

/-- **What the shuffle holds of some ranges**, as ranges apart and not empty. -/
theorem Placed.shuffleHeld_spec (h : q.Placed) (first : Nat) {ranges : List Range}
    (hap : ranges.Pairwise Range.Apart) :
    (∀ r ∈ q.shuffleHeld first ranges, r.first < r.stop) ∧
      (q.shuffleHeld first ranges).Pairwise Range.Apart ∧
      ∀ it, (∃ r ∈ q.shuffleHeld first ranges, r.Holds it) ↔
        (∃ r ∈ ranges, r.Holds it) ∧ q.ShuffledFrom first it := by
  unfold shuffleHeld
  cases hs : q.shuffle with
  | none =>
    have hnil : q.shuffleHeldBy first ranges none = [] := by rw [shuffleHeldBy, hs]
    rw [hnil]
    refine ⟨by simp, List.Pairwise.nil, fun it => iff_of_false (by simp) ?_⟩
    rintro ⟨-, i, p, -, -, hp⟩
    simp [rowItem, hs] at hp
  | some s =>
    have hok := h.shuffle_ok s hs
    obtain ⟨stretches, heq, hcover⟩ := h.shuffleHeldBy_eq hs first ranges none
    -- an item of an overlap is the base row it overlaps
    have hrow : ∀ x ∈ overlapsOf s.base ranges, ∀ i < x.2.count,
        s.base.rows[x.2.base + i]? = some (ItemId.row ⟨x.1, x.2.first + i⟩) := by
      intro x hx i hi
      obtain ⟨r, -, hx⟩ := List.mem_flatMap.mp hx
      obtain ⟨o, ho, rfl⟩ := List.mem_map.mp hx
      exact (baseOverlap_get ho hi).1
    have hholds : ∀ {r it}, r ∈ q.shuffleHeldBy first ranges none → r.Holds it →
        ∃ x ∈ overlapsOf s.base ranges, ∃ i < x.2.count, it = ⟨x.1, x.2.first + i⟩ ∧
          ∃ y ∈ stretches x, r = ⟨x.1, x.2.first + y.1, x.2.first + y.2⟩ ∧ y.1 ≤ i ∧ i < y.2 := by
      intro r it hr hit
      rw [heq] at hr
      obtain ⟨x, hx, hr⟩ := List.mem_flatMap.mp hr
      obtain ⟨y, hy, rfl⟩ := List.mem_map.mp hr
      have hb := (hcover x hx).intervals.mem hy
      obtain ⟨key, pos⟩ := it
      obtain ⟨h1, h2, h3⟩ := hit
      simp only at h1 h2 h3
      refine ⟨x, hx, pos - x.2.first, by omega, ?_, y, hy, rfl, by omega, by omega⟩
      rw [← h1]
      congr 1
      omega
    refine ⟨?_, ?_, ?_⟩
    · intro r hr
      rw [heq] at hr
      obtain ⟨x, hx, hr⟩ := List.mem_flatMap.mp hr
      obtain ⟨y, hy, rfl⟩ := List.mem_map.mp hr
      have hb := (hcover x hx).intervals.mem hy
      simp only
      omega
    · -- overlaps of one range read different base rows, and ranges are apart
      have hov : (overlapsOf s.base ranges).Pairwise
          (fun x x' => ∀ i < x.2.count, ∀ i' < x'.2.count,
            (⟨x.1, x.2.first + i⟩ : ItemId) ≠ ⟨x'.1, x'.2.first + i'⟩) := by
        rw [overlapsOf, List.pairwise_flatMap]
        refine ⟨?_, hap.imp_of_mem ?_⟩
        · intro r hr
          rw [List.pairwise_map]
          refine (overlapsFrom_apart r.key r.first r.stop s.base.spans 0).2.imp_of_mem ?_
          intro o o' ho ho' hle i hi i' hi' he
          have h1 := (@baseOverlap_get s.base _ _ _ _ ho _ hi).1
          have h2 := (@baseOverlap_get s.base _ _ _ _ ho' _ hi').1
          simp only [ItemId.mk.injEq, true_and] at he
          rw [he] at h1
          have := index_unique hok.nodup h1 h2
          simp only at hi
          omega
        · intro r r' hr hr' hrr x hx x' hx' i hi i' hi' he
          obtain ⟨o, ho, rfl⟩ := List.mem_map.mp hx
          obtain ⟨o', ho', rfl⟩ := List.mem_map.mp hx'
          have h1 := (baseOverlap_get ho hi).2
          have h2 := (baseOverlap_get ho' hi').2
          simp only at he
          refine hrr ⟨r.key, o.first + i⟩ ⟨rfl, h1.1, h1.2⟩ ?_
          rw [he]
          exact ⟨rfl, h2.1, h2.2⟩
      rw [heq, List.pairwise_flatMap]
      refine ⟨fun x hx => ?_, hov.imp_of_mem ?_⟩
      · rw [List.pairwise_map]
        refine (hcover x hx).intervals.pairwise.imp fun hle it h1 h2 => ?_
        have := h1.2.2
        have := h2.2.1
        simp only at *
        omega
      · intro x x' hx hx' hne r hr r' hr' it h1 h2
        obtain ⟨y, hy, rfl⟩ := List.mem_map.mp hr
        obtain ⟨y', hy', rfl⟩ := List.mem_map.mp hr'
        have hb := (hcover x hx).intervals.mem hy
        have hb' := (hcover x' hx').intervals.mem hy'
        obtain ⟨key, pos⟩ := it
        obtain ⟨h3, h4, h5⟩ := h1
        obtain ⟨h6, h7, h8⟩ := h2
        simp only at h3 h4 h5 h6 h7 h8
        refine hne (pos - x.2.first) (by omega) (pos - x'.2.first) (by omega) ?_
        rw [h3, h6]
        congr 1
        omega
    · intro it
      constructor
      · rintro ⟨r, hr, hit⟩
        obtain ⟨x, hx, i, hi, rfl, y, hy, -, h1, h2⟩ := hholds hr hit
        have hheld := ((hcover x hx).covers i).mp ⟨y, hy, h1, h2⟩
        refine ⟨?_, (h.heldFrom_iff hs (hrow x hx i hi)).mp hheld.2.2⟩
        obtain ⟨R, hR, hx⟩ := List.mem_flatMap.mp hx
        obtain ⟨o, ho, rfl⟩ := List.mem_map.mp hx
        have := (baseOverlap_get ho hi).2
        exact ⟨R, hR, rfl, this.1, this.2⟩
      · rintro ⟨⟨R, hR, hk, hlo, hhi⟩, hfrom⟩
        obtain ⟨b, hb⟩ : ∃ b : Nat, s.base.rows[b]? = some it.row := by
          obtain ⟨j, p, -, -, hp⟩ := hfrom
          simp only [rowItem, hs, Option.bind_some] at hp
          have := (Shuffle.item_eq_some hp).2
          exact List.mem_iff_getElem?.mp (mem_keyItems.1 (List.mem_of_getElem? this))
        obtain ⟨o, ho, i, hi, hob, hof⟩ := mem_baseOverlaps.2
          ⟨(by rw [hk]; exact hb : s.base.rows[b]? = some (.key R.key, it.pos)), hlo, hhi⟩
        have hx : (R.key, o) ∈ overlapsOf s.base ranges :=
          List.mem_flatMap.mpr ⟨R, hR, List.mem_map.mpr ⟨o, ho, rfl⟩⟩
        have hheld := (h.heldFrom_iff hs hb).mpr hfrom
        obtain ⟨y, hy, h1, h2⟩ := ((hcover _ hx).covers i).mpr
          ⟨Nat.zero_le _, hi, by rw [hob]; exact hheld⟩
        refine ⟨⟨R.key, o.first + y.1, o.first + y.2⟩, ?_, hk, by simp only; omega,
          by simp only; omega⟩
        rw [heq]
        exact List.mem_flatMap.mpr ⟨_, hx, List.mem_map.mpr ⟨y, hy, rfl⟩⟩

end QueueState

end JewelCase.Queue
