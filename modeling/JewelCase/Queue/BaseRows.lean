import JewelCase.Library.Intervals
import JewelCase.Queue.Lookup

/-!
# Rows of the base

While shuffled, which positions of a view the base holds, which base rows are gone from the
context, and which of them the context reads from a row on.
-/
namespace JewelCase.Queue

set_option autoImplicit false

open Library
open Library.Lists

/-! ### Overlaps -/

/-- The overlaps among spans are the rows that read the positions asked for. -/
theorem mem_overlapsFrom {key : String} {start stop : Nat} (spans : List Span) (row b p : Nat) :
    (∃ o ∈ overlapsFrom key start stop spans row, ∃ i < o.count, o.base + i = b ∧ o.first + i = p) ↔
      row ≤ b ∧ (rowsOf spans)[b - row]? = some (.key key, p) ∧ start ≤ p ∧ p < stop := by
  induction spans generalizing row with
  | nil => simp [overlapsFrom]
  | cons span spans ih =>
    have hone : (∃ o ∈ (if span.view = .key key ∧
          max span.start start < min (span.start + span.len) stop then
            [(⟨max span.start start,
              min (span.start + span.len) stop - max span.start start,
              row + max span.start start - span.start⟩ : Overlap)] else []),
          ∃ i < o.count, o.base + i = b ∧ o.first + i = p) ↔
        row ≤ b ∧ b < row + span.len ∧ span.view = .key key ∧ span.start + (b - row) = p ∧
          start ≤ p ∧ p < stop := by
      split
      · rename_i hov
        simp only [List.mem_singleton, exists_eq_left]
        constructor
        · rintro ⟨i, hi, rfl, rfl⟩
          refine ⟨by omega, by omega, hov.1, by omega, by omega, by omega⟩
        · rintro ⟨h1, h2, -, rfl, h4, h5⟩
          exact ⟨span.start + (b - row) - max span.start start, by omega, by omega, by omega⟩
      · rename_i hov
        simp only [List.not_mem_nil, false_and, exists_false, false_iff]
        rintro ⟨h1, h2, h3, rfl, h4, h5⟩
        exact hov ⟨h3, by omega⟩
    rw [overlapsFrom]
    simp only [List.mem_append, or_and_right, exists_or, hone, ih]
    by_cases hb : b < row + span.len
    · have hget : ∀ h : row ≤ b, (rowsOf (span :: spans))[b - row]? =
          some (span.view, span.start + (b - row)) := by
        intro h
        rw [rowsOf_cons, List.getElem?_append_left (by simp; omega),
          Span.getElem?_rows _ (by omega)]
      constructor
      · rintro (⟨h1, h2, h3, rfl, h5⟩ | ⟨h1, -⟩)
        · refine ⟨h1, ?_, h5⟩
          rw [hget h1, h3]
        · omega
      · rintro ⟨h1, h2, h3⟩
        rw [hget h1, Option.some.injEq, Prod.mk.injEq] at h2
        exact Or.inl ⟨h1, hb, h2.1, h2.2, h3⟩
    · constructor
      · rintro (⟨h1, h2, -⟩ | ⟨h1, h2, h3⟩)
        · omega
        · refine ⟨by omega, ?_, h3⟩
          rw [rowsOf_cons, List.getElem?_append_right (by simp; omega), Stretch.length_rows,
            Span.len_eq, show b - row - span.len = b - (row + span.len) by omega]
          exact h2
      · rintro ⟨h1, h2, h3⟩
        refine Or.inr ⟨by omega, ?_, h3⟩
        rw [rowsOf_cons, List.getElem?_append_right (by simp; omega), Stretch.length_rows,
          Span.len_eq] at h2
        rwa [show b - (row + span.len) = b - row - span.len by omega]

theorem overlapsFrom_apart (key : String) (start stop : Nat) (spans : List Span) (row : Nat) :
    (∀ o ∈ overlapsFrom key start stop spans row, row ≤ o.base ∧ 0 < o.count) ∧
      (overlapsFrom key start stop spans row).Pairwise (fun a b => a.base + a.count ≤ b.base) := by
  induction spans generalizing row with
  | nil => simp [overlapsFrom]
  | cons span spans ih =>
    obtain ⟨hlow, hap⟩ := ih (row + span.len)
    rw [overlapsFrom]
    split
    · rename_i hov
      rw [List.singleton_append]
      refine ⟨?_, List.pairwise_cons.mpr ⟨?_, hap⟩⟩
      · intro o ho
        rcases List.mem_cons.mp ho with rfl | ho
        · exact ⟨by simp only; omega, by simp only; omega⟩
        · have := hlow o ho
          exact ⟨by omega, this.2⟩
      · intro o ho
        have := (hlow o ho).1
        simp only
        omega
    · rw [List.nil_append]
      refine ⟨fun o ho => ?_, hap⟩
      have := hlow o ho
      exact ⟨by omega, this.2⟩

/-- **The positions of a view that the base holds**, with their base rows. -/
theorem mem_baseOverlaps {base : SpanList} {key : String} {start stop b p : Nat} :
    (∃ o ∈ baseOverlaps base key start stop, ∃ i < o.count, o.base + i = b ∧ o.first + i = p) ↔
      base.rows[b]? = some (.key key, p) ∧ start ≤ p ∧ p < stop := by
  rw [baseOverlaps, mem_overlapsFrom]
  simp [SpanList.rows]

theorem baseOverlap_get {base : SpanList} {key : String} {start stop : Nat} {o : Overlap}
    (ho : o ∈ baseOverlaps base key start stop) {i : Nat} (hi : i < o.count) :
    base.rows[o.base + i]? = some (.key key, o.first + i) ∧ start ≤ o.first + i ∧
      o.first + i < stop :=
  mem_baseOverlaps.1 ⟨o, ho, i, hi, rfl, rfl⟩

/-! ### Rows that are gone -/

/-- Shuffle rows inside a shuffle of `m` positions. -/
theorem mem_gonePositions {m : Nat} {rows : List ShuffleRow} {first : Nat}
    (ha : rows.Pairwise (fun a b => a.start + a.len ≤ b.start))
    (hlow : ∀ r ∈ rows, first ≤ r.start) (hm : ∀ r ∈ rows, r.start + r.len ≤ m) {p : Nat} :
    p ∈ gonePositions m rows first ↔ first ≤ p ∧ p < m ∧ ∀ r ∈ rows, ¬ r.Reads p := by
  induction rows generalizing first with
  | nil =>
    rw [gonePositions, List.mem_range'_1]
    simp only [List.not_mem_nil, false_implies, implies_true, and_true]
    omega
  | cons r rows ih =>
    rw [List.pairwise_cons] at ha
    have hr := hlow r (by simp)
    have hrm := hm r (by simp)
    rw [gonePositions, List.mem_append, List.mem_range'_1,
      ih ha.2 ha.1 (fun s hs => hm s (List.mem_cons_of_mem _ hs))]
    simp only [List.forall_mem_cons, ShuffleRow.Reads]
    constructor
    · rintro (h | ⟨h1, h2, h3⟩)
      · refine ⟨by omega, by omega, by omega, ?_⟩
        intro s hs
        have := ha.1 s hs
        omega
      · exact ⟨by omega, h2, by omega, h3⟩
    · rintro ⟨h1, h2, h3, h4⟩
      by_cases hp : p < r.start
      · exact Or.inl (by omega)
      · exact Or.inr ⟨by omega, h2, h4⟩

variable {q : QueueState}

namespace QueueState

/-- The context reads shuffle positions of the base only. -/
theorem Readable.shuffleRow_le (h : q.Readable) (hn : q.order.rows.Nodup) {s : Shuffle}
    (hs : q.shuffle = some s) : ∀ r ∈ q.shuffleRows, r.start + r.len ≤ s.base.len := by
  intro r hr
  have hok := shuffleRows_ok hn
  have hpos := hok.pos r hr
  have hlast := hok.row hr (j := r.len - 1) (by omega)
  have hread := h.order_reads _ (List.mem_of_getElem? hlast)
  obtain ⟨it, hit⟩ := Option.isSome_iff_exists.mp hread
  simp only [rowItem, hs, Option.bind_some] at hit
  have := (Shuffle.item_eq_some hit).1
  omega

/-- Whether the context reads base row `b` at row `i`. -/
def ReadsBase (q : QueueState) (s : Shuffle) (b i : Nat) : Prop :=
  q.order.rows[i]? = some (.shuffle, unpermute s.seed s.base.len b)

theorem ReadsBase.unique (hn : q.order.rows.Nodup) {s : Shuffle} {b i j : Nat}
    (hi : q.ReadsBase s b i) (hj : q.ReadsBase s b j) : i = j := index_unique hn hi hj

theorem rowOfPosition_readsBase (hn : q.order.rows.Nodup) {s : Shuffle} {b i : Nat} :
    rowOfPosition q.shuffleRows (unpermute s.seed s.base.len b) = some i ↔ q.ReadsBase s b i :=
  (shuffleRows_ok hn).rowOfPosition

/-- **The base rows gone** are those no row of the context reads. -/
theorem Readable.mem_goneRows (h : q.Readable) (hn : q.order.rows.Nodup) {s : Shuffle}
    (hs : q.shuffle = some s) {b : Nat} :
    b ∈ goneRows q.shuffleRows s.seed s.base.len ↔
      b < s.base.len ∧ ∀ i, ¬ q.ReadsBase s b i := by
  have hok := shuffleRows_ok hn
  have hle := h.shuffleRow_le hn hs
  rw [goneRows, mem_sortRows, List.mem_map]
  simp only [mem_gonePositions hok.ascending (fun r _ => Nat.zero_le r.start) hle]
  have hno : ∀ {p : Nat}, (∀ r ∈ q.shuffleRows, ¬ r.Reads p) ↔
      ∀ i : Nat, q.order.rows[i]? ≠ some (View.shuffle, p) := by
    intro p
    constructor
    · intro hr i hi
      obtain ⟨r, hm, hp, -⟩ := (hok.reads i p).mp hi
      exact hr r hm hp
    · intro hi r hr hp
      exact hi _ ((hok.reads _ p).mpr ⟨r, hr, hp, rfl⟩)
  constructor
  · rintro ⟨p, ⟨-, hp, hr⟩, rfl⟩
    refine ⟨permute_lt s.seed hp, fun i hi => ?_⟩
    rw [ReadsBase, unpermute_permute s.seed hp] at hi
    exact hno.mp hr i hi
  · rintro ⟨hb, hr⟩
    exact ⟨_, ⟨Nat.zero_le _, unpermute_lt s.seed hb, hno.mpr hr⟩, permute_unpermute s.seed hb⟩

end QueueState

end JewelCase.Queue
