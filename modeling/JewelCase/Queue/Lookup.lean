import JewelCase.Queue.Items

/-!
# Looking many items up at once

The sweeps of an edit agree with the item-by-item search: `orderRowsOf` with `orderRowOf`, and
`resolve` with the indices of Up Next. The shuffle spans of the context, sorted by shuffle
position, are disjoint, because the context plays no item twice.
-/
namespace JewelCase.Queue

set_option autoImplicit false

open Library (Stretch)
open Library.Lists

/-- Whether a shuffle span reads position `p`. -/
def ShuffleRow.Reads (r : ShuffleRow) (p : Nat) : Prop := r.start ≤ p ∧ p < r.start + r.len

instance (r : ShuffleRow) (p : Nat) : Decidable (r.Reads p) := inferInstanceAs (Decidable (_ ∧ _))

theorem row_le_of_mem_shuffleSpans {spans : List Span} {k : Nat} {r : ShuffleRow}
    (h : r ∈ shuffleSpans spans k) : k ≤ r.row := by
  induction spans generalizing k with
  | nil => simp [shuffleSpans] at h
  | cons span spans ih =>
    rw [shuffleSpans, List.mem_append] at h
    rcases h with h | h
    · split at h
      · rw [List.mem_singleton] at h
        rw [h]
      · simp at h
    · have := ih h
      omega

/-- The shuffle spans say which rows read the shuffle, and where. -/
theorem shuffleSpans_reads (spans : List Span) (k i p : Nat) :
    (rowsOf spans)[i]? = some (.shuffle, p) ↔
      ∃ r ∈ shuffleSpans spans k, r.Reads p ∧ k + i = r.row + (p - r.start) := by
  induction spans generalizing k i with
  | nil => simp [shuffleSpans]
  | cons span spans ih =>
    rw [rowsOf_cons, shuffleSpans]
    by_cases hi : i < span.len
    · rw [List.getElem?_append_left (by simpa using hi), Span.getElem?_rows span hi,
        Option.some.injEq, Prod.mk.injEq]
      constructor
      · rintro ⟨hv, rfl⟩
        refine ⟨⟨span.start, span.len, k⟩, by simp [hv], ⟨?_, ?_⟩, ?_⟩ <;> simp only <;> omega
      · rintro ⟨r, hr, ⟨hlo, hhi⟩, hk⟩
        rcases List.mem_append.mp hr with hr | hr
        · split at hr
          · rename_i hv
            rw [List.mem_singleton] at hr
            subst hr
            simp only at hlo hhi hk
            exact ⟨hv, by omega⟩
          · simp at hr
        · have := row_le_of_mem_shuffleSpans hr
          omega
    · rw [List.getElem?_append_right (by simp; omega), Stretch.length_rows, Span.len_eq,
        ih (k + span.len)]
      constructor
      · rintro ⟨r, hr, hp, hk⟩
        exact ⟨r, List.mem_append_right _ hr, hp, by omega⟩
      · rintro ⟨r, hr, hp, hk⟩
        rcases List.mem_append.mp hr with hr | hr
        · split at hr
          · rw [List.mem_singleton] at hr
            subst hr
            have hhi := hp.2
            simp only at hk hhi
            have := hp.1
            simp only at this
            omega
          · simp at hr
        · exact ⟨r, hr, hp, by omega⟩

theorem len_pos_of_mem_shuffleSpans {spans : List Span} (hp : ∀ s ∈ spans, 0 < s.len) {k : Nat}
    {r : ShuffleRow} (h : r ∈ shuffleSpans spans k) : 0 < r.len := by
  induction spans generalizing k with
  | nil => simp [shuffleSpans] at h
  | cons span spans ih =>
    rw [shuffleSpans, List.mem_append] at h
    rcases h with h | h
    · split at h
      · rw [List.mem_singleton] at h
        rw [h]
        exact hp span (by simp)
      · simp at h
    · exact ih (fun s hs => hp s (List.mem_cons_of_mem _ hs)) h

/-- Two shuffle spans of one list lie on different rows. -/
def ShuffleRow.Apart (a b : ShuffleRow) : Prop := a.row + a.len ≤ b.row ∨ b.row + b.len ≤ a.row

theorem shuffleSpans_apart (spans : List Span) (k : Nat) :
    (shuffleSpans spans k).Pairwise ShuffleRow.Apart := by
  induction spans generalizing k with
  | nil => exact List.Pairwise.nil
  | cons span spans ih =>
    rw [shuffleSpans]
    split
    · rw [List.singleton_append, List.pairwise_cons]
      refine ⟨fun r hr => Or.inl ?_, ih _⟩
      exact row_le_of_mem_shuffleSpans hr
    · exact ih _

/-- Shuffle spans, sorted and disjoint, that say which of `rows` read the shuffle. -/
structure ShuffleRowsOk (shuffled : List ShuffleRow) (rows : List Row) : Prop where
  reads : ∀ i p, rows[i]? = some (.shuffle, p) ↔
    ∃ r ∈ shuffled, r.Reads p ∧ i = r.row + (p - r.start)
  ascending : shuffled.Pairwise (fun a b => a.start + a.len ≤ b.start)
  pos : ∀ r ∈ shuffled, 0 < r.len

/-- Every position of a shuffle span is read at its row. -/
theorem ShuffleRowsOk.row {shuffled : List ShuffleRow} {rows : List Row}
    (h : ShuffleRowsOk shuffled rows) {r : ShuffleRow} (hr : r ∈ shuffled) {j : Nat}
    (hj : j < r.len) : rows[r.row + j]? = some (.shuffle, r.start + j) :=
  (h.reads _ _).mpr ⟨r, hr, ⟨by omega, by omega⟩, by omega⟩

theorem shuffleRows_ok {q : QueueState} (hn : q.order.rows.Nodup) :
    ShuffleRowsOk q.shuffleRows q.order.rows := by
  have hperm := List.perm_insertionSort ShuffleRow.le (shuffleSpans q.order.spans 0)
  have hreads : ∀ i p, q.order.rows[i]? = some (.shuffle, p) ↔
      ∃ r ∈ q.shuffleRows, r.Reads p ∧ i = r.row + (p - r.start) := by
    intro i p
    have := shuffleSpans_reads q.order.spans 0 i p
    rw [Nat.zero_add] at this
    simp only [QueueState.shuffleRows, hperm.mem_iff]
    exact this
  have hpos : ∀ r ∈ q.shuffleRows, 0 < r.len := fun r hr =>
    len_pos_of_mem_shuffleSpans q.order.canonical.1 (hperm.mem_iff.mp hr)
  refine ⟨hreads, ?_, hpos⟩
  have : Std.Total ShuffleRow.le := ⟨by
    intro a b
    unfold ShuffleRow.le
    omega⟩
  have : IsTrans ShuffleRow ShuffleRow.le := ⟨by
    intro a b c
    unfold ShuffleRow.le
    omega⟩
  have hsorted : q.shuffleRows.Pairwise ShuffleRow.le := List.pairwise_insertionSort _ _
  have hapart : q.shuffleRows.Pairwise ShuffleRow.Apart :=
    hperm.symm.pairwise (shuffleSpans_apart _ _) (fun h => h.symm)
  refine (hsorted.and hapart).imp_of_mem ?_
  rintro a b ha hb ⟨hle, hab⟩
  have hstart : a.start ≤ b.start := by
    unfold ShuffleRow.le at hle
    omega
  by_contra hlt
  -- the first position of `b` would be read at two rows
  have hla := hpos a ha
  have hlb := hpos b hb
  have h1 := (hreads (a.row + (b.start - a.start)) b.start).mpr
    ⟨a, ha, ⟨hstart, by omega⟩, rfl⟩
  have h2 := (hreads b.row b.start).mpr ⟨b, hb, ⟨Nat.le_refl _, by omega⟩, by omega⟩
  have := index_unique hn h1 h2
  unfold ShuffleRow.Apart at hab
  omega

theorem rowOfPosition_cons (r : ShuffleRow) (rs : List ShuffleRow) (p : Nat) :
    rowOfPosition (r :: rs) p =
      if r.start ≤ p then
        if partitionPoint (fun r : ShuffleRow => decide (r.start ≤ p)) rs = 0 then
          if p < r.start + r.len then some (r.row + (p - r.start)) else none
        else rowOfPosition rs p
      else none := by
  by_cases h : r.start ≤ p
  · rw [if_pos h, rowOfPosition, partitionPoint, List.takeWhile_cons_of_pos (by simpa using h)]
    simp only [List.length_cons, Nat.add_one_ne_zero, if_false, Nat.add_sub_cancel]
    unfold rowOfPosition partitionPoint
    by_cases h0 : (rs.takeWhile (fun r : ShuffleRow => decide (r.start ≤ p))).length = 0
    · simp [h0]
    · obtain ⟨n, hn⟩ := Nat.exists_eq_succ_of_ne_zero h0
      simp [hn]
  · rw [if_neg h, rowOfPosition, partitionPoint, List.takeWhile_cons_of_neg (by simpa using h)]
    rfl

/-- A binary search among disjoint ascending spans finds the one that reads a position. -/
theorem rowOfPosition_iff {rs : List ShuffleRow}
    (ha : rs.Pairwise (fun a b => a.start + a.len ≤ b.start)) {p i : Nat} :
    rowOfPosition rs p = some i ↔ ∃ r ∈ rs, r.Reads p ∧ i = r.row + (p - r.start) := by
  induction rs with
  | nil => simp [rowOfPosition, partitionPoint]
  | cons r rs ih =>
    rw [List.pairwise_cons] at ha
    rw [rowOfPosition_cons]
    by_cases hr : r.start ≤ p
    · rw [if_pos hr]
      by_cases h0 : partitionPoint (fun r : ShuffleRow => decide (r.start ≤ p)) rs = 0
      · -- no later span starts at `p` or before
        have hlater : ∀ s ∈ rs, p < s.start := by
          cases rs with
          | nil => simp
          | cons s rs =>
            have hs : p < s.start := by
              by_contra hle
              have : s.start ≤ p := by omega
              simp [partitionPoint, this] at h0
            intro t ht
            rcases List.mem_cons.mp ht with rfl | ht
            · exact hs
            · have := (List.pairwise_cons.mp ha.2).1 t ht
              omega
        rw [if_pos h0]
        constructor
        · intro h
          split at h
          · exact ⟨r, by simp, ⟨hr, by assumption⟩, (Option.some.inj h).symm⟩
          · cases h
        · rintro ⟨s, hs, hp, rfl⟩
          rcases List.mem_cons.mp hs with rfl | hs
          · rw [if_pos hp.2]
          · have := hlater s hs
            have := hp.1
            omega
      · rw [if_neg h0, ih ha.2]
        constructor
        · rintro ⟨s, hs, hp⟩
          exact ⟨s, List.mem_cons_of_mem _ hs, hp⟩
        · rintro ⟨s, hs, hp, hi⟩
          rcases List.mem_cons.mp hs with rfl | hs
          · -- a later span starts at `p` or before, so this one ended
            cases rs with
            | nil => simp [partitionPoint] at h0
            | cons t rs =>
              have ht : t.start ≤ p := by
                by_contra hlt
                simp [partitionPoint, hlt] at h0
              have := ha.1 t (by simp)
              have := hp.2
              omega
          · exact ⟨s, hs, hp, hi⟩
    · rw [if_neg hr]
      simp only [reduceCtorEq, false_iff, not_exists, not_and]
      intro s hs hp
      rcases List.mem_cons.mp hs with rfl | hs
      · exact absurd hp.1 hr
      · have := ha.1 s hs
        have := hp.1
        omega

theorem ShuffleRowsOk.rowOfPosition {shuffled : List ShuffleRow} {rows : List Row}
    (h : ShuffleRowsOk shuffled rows) {p i : Nat} :
    rowOfPosition shuffled p = some i ↔ rows[i]? = some (.shuffle, p) := by
  rw [rowOfPosition_iff h.ascending, h.reads]

namespace QueueState

variable {q : QueueState}

/-- **The sweep over the context finds what the search finds, item by item.** -/
theorem orderRowsOf_eq (hn : q.order.rows.Nodup) {items : List KeyPos} (hs : Ascending items) :
    q.orderRowsOf items = items.map (fun kp => q.orderRowOf ⟨kp.1, kp.2⟩) := by
  have hok := shuffleRows_ok hn
  unfold orderRowsOf
  cases hsh : q.shuffle with
  | none =>
    simp only [SpanList.findSorted_eq _ _ hs]
    apply List.map_congr_left
    intro kp _
    simp only [orderRowOf, hsh, ItemId.view]
    cases q.order.find (.key kp.1) kp.2 <;> rfl
  | some s =>
    simp only [SpanList.findSorted_eq _ _ hs, List.zip_map', List.map_map]
    apply List.map_congr_left
    intro kp _
    simp only [orderRowOf, hsh, ItemId.view, Function.comp_apply]
    cases q.order.find (.key kp.1) kp.2 with
    | some row => rfl
    | none =>
      cases hb : s.base.find (.key kp.1) kp.2 with
      | none => rfl
      | some b =>
        simp only [Option.bind_some]
        apply Option.ext
        intro i
        rw [hok.rowOfPosition, find_row_iff hn]

theorem mem_sorted_items {items : List ItemId} {kp : KeyPos} :
    kp ∈ dedup (sortItems (items.map ItemId.keyPos)) ↔ (⟨kp.1, kp.2⟩ : ItemId) ∈ items := by
  rw [mem_dedup, mem_sortItems, List.mem_map]
  constructor
  · rintro ⟨item, hi, rfl⟩
    exact hi
  · intro hi
    exact ⟨_, hi, rfl⟩

theorem ascending_dedup {items : List KeyPos} (h : Ascending items) : Ascending (dedup items) :=
  h.sublist (dedup_sublist items)

/-- **The indices an edit resolves are those of the named items in Up Next.** -/
theorem Placed.mem_resolve (h : q.Placed) {items : List ItemId} {i : Nat} :
    i ∈ q.resolve items ↔ ∃ item ∈ items, q.lists.upNext[i]? = some item := by
  have hasc := ascending_dedup (ascending_sortItems (items.map ItemId.keyPos))
  unfold resolve
  rw [mem_dedup, mem_sortRows, SpanList.findSorted_eq _ _ hasc,
    orderRowsOf_eq h.order_rows_nodup hasc, List.zip_map', List.filterMap_map, List.mem_filterMap]
  have hfind : ∀ kp : KeyPos,
      (match q.manual.find (.key kp.1) kp.2, q.orderRowOf ⟨kp.1, kp.2⟩ with
        | some i, _ => some i
        | none, order => (order.bind (checkedSub · q.cursor)).map (q.manual.len + ·)) =
        q.findItem ⟨kp.1, kp.2⟩ := by
    intro kp
    simp only [findItem, ItemId.view]
    cases q.manual.find (.key kp.1) kp.2 with
    | some j => rfl
    | none => cases q.orderRowOf ⟨kp.1, kp.2⟩ <;> rfl
  constructor
  · rintro ⟨kp, hkp, hi⟩
    refine ⟨_, mem_sorted_items.1 hkp, h.findItem_iff.mp ?_⟩
    rw [← hfind kp, ← hi]
    simp only [Function.comp_apply]
    cases q.manual.find (.key kp.1) kp.2 <;> rfl
  · rintro ⟨item, hi, hup⟩
    refine ⟨item.keyPos, mem_sorted_items.2 hi, ?_⟩
    rw [← h.findItem_iff.mpr hup]
    refine Eq.trans ?_ (hfind item.keyPos)
    simp only [Function.comp_apply]
    cases q.manual.find (.key item.keyPos.1) item.keyPos.2 <;> rfl

theorem resolve_pairwise (q : QueueState) (items : List ItemId) :
    (q.resolve items).Pairwise (· < ·) := dedup_pairwise_lt (sortRows_pairwise _)

theorem resolve_sorted (q : QueueState) (items : List ItemId) :
    (q.resolve items).Pairwise (· ≤ ·) := (q.resolve_pairwise items).imp Nat.le_of_lt

/-- Nothing is resolved when no named item is in Up Next. -/
theorem Placed.resolve_isEmpty (h : q.Placed) {items : List ItemId} :
    (q.resolve items).isEmpty = true ↔ ∀ item ∈ items, item ∉ q.lists.upNext := by
  rw [List.isEmpty_iff, List.eq_nil_iff_forall_not_mem]
  constructor
  · intro hno item hi hup
    obtain ⟨i, hget⟩ := List.mem_iff_getElem?.mp hup
    exact hno i (h.mem_resolve.mpr ⟨item, hi, hget⟩)
  · intro hno i hi
    obtain ⟨item, hitem, hget⟩ := h.mem_resolve.mp hi
    exact hno item hitem (List.mem_of_getElem? hget)

end QueueState

end JewelCase.Queue
