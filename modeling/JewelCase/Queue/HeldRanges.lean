import JewelCase.Queue.ShuffleHeld
import JewelCase.Queue.StepsBack

/-!
# The ranges a rewind holds

The interval map that rewind keeps of the positions Up Next holds, the pieces it cuts plays
into against it, and what those cuts mark: a play is a copy exactly when Up Next, or a play heard
after it, already has its item.
-/
namespace JewelCase.Queue

set_option autoImplicit false

open Library
open Library.Lists

/-! ### Merged ranges -/

/-- A range does not start before another. -/
def Range.From (a b : Range) : Prop := a.key < b.key ∨ (a.key = b.key ∧ a.first ≤ b.first)

theorem Range.From.trans {a b c : Range} (h : a.From b) (h' : b.From c) : a.From c := by
  unfold Range.From at *
  rcases h with h | ⟨h, h1⟩
  · rcases h' with h' | ⟨h', -⟩
    · exact Or.inl (String.lt_trans h h')
    · exact Or.inl (h' ▸ h)
  · rcases h' with h' | ⟨h', h2⟩
    · exact Or.inl (h ▸ h')
    · exact Or.inr ⟨h.trans h', h1.trans h2⟩

theorem mergeRanges_spec (ranges : List Range) (last : Range)
    (hsorted : (last :: ranges).Pairwise Range.From) :
    (∀ r ∈ mergeRanges ranges last, last.From r) ∧
      (mergeRanges ranges last).Pairwise Range.Apart ∧
      ∀ it, (∃ r ∈ mergeRanges ranges last, r.Holds it) ↔ ∃ r ∈ last :: ranges, r.Holds it := by
  induction ranges generalizing last with
  | nil =>
    rw [mergeRanges]
    refine ⟨fun r hr => ?_, by simp, fun it => Iff.rfl⟩
    rw [List.mem_singleton] at hr
    exact hr ▸ Or.inr ⟨rfl, Nat.le_refl _⟩
  | cons range ranges ih =>
    have hsorted' := hsorted
    rw [List.pairwise_cons] at hsorted
    have hnext := hsorted.1 range (by simp)
    rw [mergeRanges]
    by_cases ht : last.key = range.key ∧ range.first ≤ last.stop
    · rw [if_pos ht]
      have hfirst : last.first ≤ range.first := by
        rcases hnext with hlt | hle
        · exact absurd ht.1 (String.ne_of_lt hlt)
        · exact hle.2
      obtain ⟨h1, h2, h3⟩ := ih { last with stop := max last.stop range.stop } (by
        rw [List.pairwise_cons]
        refine ⟨fun r hr => hsorted.1 r (List.mem_cons_of_mem _ hr), ?_⟩
        exact (List.pairwise_cons.mp hsorted.2).2)
      refine ⟨h1, h2, fun it => (h3 it).trans ?_⟩
      simp only [List.mem_cons, exists_eq_or_imp, Range.Holds]
      have : (last.key = it.key ∧ last.first ≤ it.pos ∧ it.pos < max last.stop range.stop) ↔
          (last.key = it.key ∧ last.first ≤ it.pos ∧ it.pos < last.stop) ∨
            (range.key = it.key ∧ range.first ≤ it.pos ∧ it.pos < range.stop) := by
        rw [← ht.1]
        by_cases hk : last.key = it.key
        · simp only [hk, true_and]
          omega
        · simp only [hk, false_and, or_self]
      rw [this, or_assoc]
    · rw [if_neg ht]
      obtain ⟨h1, h2, h3⟩ := ih range hsorted.2
      refine ⟨?_, List.pairwise_cons.mpr ⟨?_, h2⟩, fun it => ?_⟩
      · intro r hr
        rcases List.mem_cons.mp hr with rfl | hr
        · exact Or.inr ⟨rfl, Nat.le_refl _⟩
        · exact hnext.trans (h1 r hr)
      · rintro r hr it ⟨hk, hlo, hhi⟩ ⟨hk', hlo', hhi'⟩
        have hkey : last.key = r.key := hk.trans hk'.symm
        rcases hnext with hlt | ⟨heq, hle⟩
        · rcases h1 r hr with hlt' | ⟨heq', -⟩
          · exact String.ne_of_lt (String.lt_trans hlt hlt') hkey
          · exact String.ne_of_lt hlt (hkey.trans heq'.symm)
        · rcases h1 r hr with hlt' | ⟨-, hle'⟩
          · exact String.ne_of_lt hlt' (heq.symm.trans hkey)
          · exact ht ⟨heq, by omega⟩
      · have := h3 it
        simp only [List.mem_cons, exists_eq_or_imp] at this ⊢
        rw [this]

/-- The positions of a piece, as a range. -/
def Piece.range (p : Piece) : Range := ⟨p.key, p.start, p.start + p.len⟩

/-- **The ranges of some pieces** are apart and hold what the pieces do. -/
theorem positionsOf_spec (target : Piece) (heard : List Piece) :
    (positionsOf target heard).Pairwise Range.Apart ∧
      ∀ it, (∃ r ∈ positionsOf target heard, r.Holds it) ↔
        ∃ p ∈ target :: heard, p.range.Holds it := by
  have hperm := List.perm_insertionSort Range.le
    ((target :: heard).map fun p => (⟨p.key, p.start, p.start + p.len⟩ : Range))
  have : Std.Total Range.le := ⟨by
    intro a b
    unfold Range.le
    rcases lt_trichotomy a.key b.key with h | h | h
    · exact Or.inl (Or.inl h)
    · simp only [h, true_and, lt_irrefl, false_or]
      omega
    · exact Or.inr (Or.inl h)⟩
  have : IsTrans Range Range.le := ⟨by
    intro a b c
    unfold Range.le
    rintro (h | ⟨h, h1⟩) (h' | ⟨h', h2⟩)
    · exact Or.inl (String.lt_trans h h')
    · exact Or.inl (h' ▸ h)
    · exact Or.inl (h ▸ h')
    · exact Or.inr ⟨h.trans h', by omega⟩⟩
  have hsorted := List.pairwise_insertionSort Range.le
    ((target :: heard).map fun p => (⟨p.key, p.start, p.start + p.len⟩ : Range))
  have hmem : ∀ it, (∃ r ∈ List.insertionSort Range.le
      ((target :: heard).map fun p => (⟨p.key, p.start, p.start + p.len⟩ : Range)), r.Holds it) ↔
      ∃ p ∈ target :: heard, p.range.Holds it := by
    intro it
    simp only [hperm.mem_iff, List.mem_map, exists_exists_and_eq_and]
    rfl
  unfold positionsOf
  generalize List.insertionSort Range.le
    ((target :: heard).map fun p => (⟨p.key, p.start, p.start + p.len⟩ : Range)) = sorted
    at hsorted hmem
  cases sorted with
  | nil => exact ⟨List.Pairwise.nil, hmem⟩
  | cons range ranges =>
    obtain ⟨-, h2, h3⟩ := mergeRanges_spec ranges range (hsorted.imp fun h => by
      rcases h with h | ⟨h, h'⟩
      · exact Or.inl h
      · exact Or.inr ⟨h, by omega⟩)
    exact ⟨h2, fun it => (h3 it).trans (hmem it)⟩

/-! ### The interval map -/

namespace Held

/-- Whether a held range holds an item. -/
def Holds (held : Held) (it : ItemId) : Prop :=
  ∃ e ∈ held, e.1.1 = it.key ∧ e.1.2 ≤ it.pos ∧ it.pos < e.2

instance (held : Held) (it : ItemId) : Decidable (held.Holds it) :=
  inferInstanceAs (Decidable (∃ e ∈ held, _))

/-- One range lies before another. -/
def Before (a b : KeyPos × Nat) : Prop := a.1.lt b.1 ∧ (a.1.1 = b.1.1 → a.2 ≤ b.1.2)

/-- Ranges in ascending order, apart and none of them empty. -/
structure Ok (held : Held) : Prop where
  before : held.Pairwise Before
  pos : ∀ e ∈ held, e.1.2 < e.2

theorem Ok.before_or {held : Held} (h : held.Ok) {a b : KeyPos × Nat} (ha : a ∈ held)
    (hb : b ∈ held) (hne : a ≠ b) : Before a b ∨ Before b a := by
  have : Std.Symm (fun a b => Before a b ∨ Before b a) := ⟨fun _ _ h => h.symm⟩
  have hor : held.Pairwise (fun a b => Before a b ∨ Before b a) := h.before.imp Or.inl
  exact hor.forall ha hb hne

theorem ok_nil : Ok [] := ⟨List.Pairwise.nil, by simp⟩

theorem mem_insert {start : KeyPos} {stop : Nat} {held : Held} (hne : ∀ e ∈ held, e.1 ≠ start)
    {e : KeyPos × Nat} : e ∈ Held.insert start stop held ↔ e = (start, stop) ∨ e ∈ held := by
  induction held with
  | nil => simp [Held.insert]
  | cons x held ih =>
    obtain ⟨k, f⟩ := x
    rw [Held.insert]
    split
    · simp
    · rename_i h1
      split
      · rw [List.mem_cons, ih fun e he => hne e (List.mem_cons_of_mem _ he), List.mem_cons]
        exact or_left_comm
      · rename_i h2
        have hk : k ≠ start := hne (k, f) (by simp)
        rcases KeyPos.lt_or_eq_or_gt start k with h | h | h
        · exact absurd h h1
        · exact absurd h.symm hk
        · exact absurd h h2

theorem pairwise_insert {start : KeyPos} {stop : Nat} {held : Held}
    (hb : held.Pairwise Before) (hne : ∀ e ∈ held, e.1 ≠ start)
    (hlt : ∀ e ∈ held, start.lt e.1 → Before (start, stop) e)
    (hgt : ∀ e ∈ held, e.1.lt start → Before e (start, stop)) :
    (Held.insert start stop held).Pairwise Before := by
  induction held with
  | nil => simp [Held.insert]
  | cons x held ih =>
    obtain ⟨k, f⟩ := x
    have hrest := fun e he => hne e (List.mem_cons_of_mem (k, f) he)
    rw [Held.insert]
    split
    · rename_i h1
      refine List.pairwise_cons.mpr ⟨fun e he => ?_, hb⟩
      refine hlt e he ?_
      rcases List.mem_cons.mp he with rfl | he
      · exact h1
      · exact KeyPos.lt_trans h1 ((List.pairwise_cons.mp hb).1 e he).1
    · rename_i h1
      split
      · rename_i h2
        refine List.pairwise_cons.mpr ⟨fun e he => ?_, ih (List.pairwise_cons.mp hb).2 hrest
          (fun e he => hlt e (List.mem_cons_of_mem _ he))
          (fun e he => hgt e (List.mem_cons_of_mem _ he))⟩
        rcases (mem_insert hrest).mp he with rfl | he
        · exact hgt _ (by simp) h2
        · exact (List.pairwise_cons.mp hb).1 e he
      · rename_i h2
        have hk : k ≠ start := hne (k, f) (by simp)
        rcases KeyPos.lt_or_eq_or_gt start k with h | h | h
        · exact absurd h h1
        · exact absurd h.symm hk
        · exact absurd h h2

/-- **Holding one more range** that nothing held meets. -/
theorem Ok.insert {held : Held} (h : held.Ok) {r : Range} (hpos : r.first < r.stop)
    (hap : ∀ it, r.Holds it → ¬ held.Holds it) :
    (Held.insert (r.key, r.first) r.stop held).Ok ∧
      ∀ it, (Held.insert (r.key, r.first) r.stop held).Holds it ↔ held.Holds it ∨ r.Holds it := by
  have hne : ∀ e ∈ held, e.1 ≠ (r.key, r.first) := by
    rintro ⟨⟨k, p⟩, f⟩ he heq
    obtain ⟨rfl, rfl⟩ := Prod.mk.inj heq
    refine hap ⟨r.key, r.first⟩ ⟨rfl, Nat.le_refl _, hpos⟩ ⟨_, he, rfl, Nat.le_refl _, ?_⟩
    exact h.pos _ he
  have hmem := fun e => @mem_insert (r.key, r.first) r.stop held hne e
  refine ⟨⟨pairwise_insert h.before hne ?_ ?_, ?_⟩, fun it => ?_⟩
  · rintro ⟨⟨k, p⟩, f⟩ he hlt
    refine ⟨hlt, ?_⟩
    rintro rfl
    simp only [KeyPos.lt, lt_irrefl, true_and, false_or] at hlt ⊢
    by_contra hgt
    exact hap ⟨r.key, p⟩ ⟨rfl, by simp only; omega, by simp only; omega⟩
      ⟨_, he, rfl, Nat.le_refl _, h.pos _ he⟩
  · rintro ⟨⟨k, p⟩, f⟩ he hlt
    refine ⟨hlt, ?_⟩
    rintro rfl
    simp only [KeyPos.lt, lt_irrefl, true_and, false_or] at hlt ⊢
    by_contra hgt
    exact hap ⟨r.key, r.first⟩ ⟨rfl, Nat.le_refl _, hpos⟩
      ⟨_, he, rfl, by simp only; omega, by simp only; omega⟩
  · intro e he
    rcases (hmem e).mp he with rfl | he
    · exact hpos
    · exact h.pos e he
  · simp only [Holds, hmem, or_and_right, exists_or, exists_eq_left]
    exact or_comm

/-- Holding several ranges, apart and met by nothing held. -/
theorem Ok.foldl_insert {held : Held} (h : held.Ok) {ranges : List Range}
    (hpos : ∀ r ∈ ranges, r.first < r.stop) (hap : ranges.Pairwise Range.Apart)
    (hno : ∀ r ∈ ranges, ∀ it, r.Holds it → ¬ held.Holds it) :
    let held' := ranges.foldl (fun held r => Held.insert (r.key, r.first) r.stop held) held
    held'.Ok ∧ ∀ it, held'.Holds it ↔ held.Holds it ∨ ∃ r ∈ ranges, r.Holds it := by
  induction ranges generalizing held with
  | nil => exact ⟨h, fun it => by simp⟩
  | cons r ranges ih =>
    rw [List.pairwise_cons] at hap
    obtain ⟨hok, hholds⟩ := h.insert (hpos r (by simp)) (hno r (by simp))
    obtain ⟨hok', hholds'⟩ := ih hok (fun s hs => hpos s (List.mem_cons_of_mem _ hs)) hap.2 (by
      intro s hs it hit hheld
      rcases (hholds it).mp hheld with hheld | hr
      · exact hno s (List.mem_cons_of_mem _ hs) it hit hheld
      · exact hap.1 s hs it hr hit)
    refine ⟨hok', fun it => ?_⟩
    rw [List.foldl_cons, hholds', hholds]
    simp only [List.mem_cons, exists_eq_or_imp, or_assoc]

end Held

/-! ### Cutting a piece -/

namespace Piece

/-- The items of a piece, in position order. -/
def items (p : Piece) : List ItemId := (List.range' p.start p.len).map fun pos => ⟨p.key, pos⟩

/-- The items of a piece, each with whether it is a copy. -/
def marks (p : Piece) : List (ItemId × Bool) := p.items.map (·, p.copy)

theorem mem_items {p : Piece} {it : ItemId} : it ∈ p.items ↔ p.range.Holds it := by
  obtain ⟨key, pos⟩ := it
  simp only [items, List.mem_map, List.mem_range'_1, ItemId.mk.injEq, Range.Holds, range]
  constructor
  · rintro ⟨a, h, rfl, rfl⟩
    exact ⟨rfl, h.1, h.2⟩
  · rintro ⟨rfl, h1, h2⟩
    exact ⟨pos, ⟨h1, h2⟩, rfl, rfl⟩

theorem items_nodup (p : Piece) : p.items.Nodup :=
  List.Nodup.map (fun a b h => by simpa using h) (List.nodup_range' ..)

end Piece

/-- Positions from `a` to `c`, split at `b`. -/
theorem range'_split {α : Type} {a b c : Nat} (hab : a ≤ b) (hbc : b ≤ c) (f : Nat → α) :
    (List.range' a (c - a)).map f =
      (List.range' a (b - a)).map f ++ (List.range' b (c - b)).map f := by
  have := List.range'_append_1 (s := a) (m := b - a) (n := c - b)
  rw [show a + (b - a) = b by omega, show b - a + (c - b) = c - a by omega] at this
  rw [← List.map_append, this]

theorem marks_eq {key : String} {a b : Nat} (copy : Bool) {f : Nat → Bool}
    (hf : ∀ p, a ≤ p → p < b → f p = copy) :
    Piece.marks ⟨key, a, b - a, copy⟩ =
      (List.range' a (b - a)).map fun p => ((⟨key, p⟩ : ItemId), f p) := by
  rw [Piece.marks, Piece.items, List.map_map]
  refine List.map_congr_left fun p hp => ?_
  simp only [List.mem_range'_1] at hp
  simp only [Function.comp]
  rw [hf p hp.1 (by omega)]

/-- The parts of a piece mark each of its positions by whether an overlap covers it. -/
theorem cutHeld_spec (key : String) (stop : Nat) (overlaps : List (Nat × Nat)) (first : Nat)
    (hle : first ≤ stop) (hlt : overlaps ≠ [] → first < stop)
    (hap : overlaps.Pairwise (fun a b => a.2 ≤ b.1))
    (hin : ∀ x ∈ overlaps, x.1 < x.2 ∧ x.1 < stop ∧ first < x.2) :
    (cutHeld key stop overlaps first).flatMap Piece.marks =
        (List.range' first (stop - first)).map
          (fun p => (⟨key, p⟩, decide (Covers overlaps p))) ∧
      ∀ part ∈ cutHeld key stop overlaps first, part.key = key ∧ 0 < part.len := by
  induction overlaps generalizing first with
  | nil =>
    rw [cutHeld]
    by_cases hf : first < stop
    · rw [if_pos hf, List.flatMap_cons, List.flatMap_nil, List.append_nil]
      refine ⟨marks_eq false fun p _ _ => by simp, fun part hpart => ?_⟩
      obtain rfl := List.mem_singleton.mp hpart
      exact ⟨rfl, by simp only; omega⟩
    · rw [if_neg hf, show stop - first = 0 by omega]
      exact ⟨rfl, by simp⟩
  | cons x overlaps ih =>
    obtain ⟨s, e⟩ := x
    rw [List.pairwise_cons] at hap
    have hx := hin (s, e) (by simp)
    have hfs := hlt (by simp)
    simp only at hx
    have hlater : ∀ y ∈ overlaps, e ≤ y.1 ∧ y.1 < y.2 ∧ y.1 < stop := fun y hy =>
      ⟨hap.1 y hy, (hin y (List.mem_cons_of_mem _ hy)).1, (hin y (List.mem_cons_of_mem _ hy)).2.1⟩
    obtain ⟨hmarks, hparts⟩ := ih (min e stop) (Nat.min_le_right _ _)
      (by
        intro hne
        obtain ⟨y, hy⟩ := List.exists_mem_of_ne_nil _ hne
        have := hlater y hy
        omega) hap.2
      (by
        intro y hy
        have := hlater y hy
        omega)
    rw [cutHeld]
    refine ⟨?_, ?_⟩
    · rw [List.flatMap_append, List.flatMap_cons, hmarks]
      rw [range'_split (show first ≤ max s first by omega) (show max s first ≤ stop by omega),
        range'_split (a := max s first) (show max s first ≤ min e stop by omega)
          (show min e stop ≤ stop by omega)]
      congr 1
      · have hno : ∀ p, first ≤ p → p < max s first →
            decide (Covers ((s, e) :: overlaps) p) = false := by
          intro p h1 h2
          rw [decide_eq_false_iff_not, covers_cons, not_or]
          refine ⟨by simp only; omega, ?_⟩
          rintro ⟨y, hy, h3, -⟩
          have := hlater y hy
          omega
        by_cases hm : max s first > first
        · rw [if_pos hm, List.flatMap_cons, List.flatMap_nil, List.append_nil]
          exact marks_eq false hno
        · rw [if_neg hm, show max s first - first = 0 by omega]
          rfl
      · congr 1
        · refine marks_eq true fun p h1 h2 => ?_
          rw [decide_eq_true_eq, covers_cons]
          exact Or.inl (by simp only; omega)
        · refine List.map_congr_left fun p hp => ?_
          rw [List.mem_range'_1] at hp
          congr 1
          rw [decide_eq_decide, covers_cons]
          constructor
          · exact Or.inr
          · rintro (h | h)
            · simp only at h
              omega
            · exact h
    · intro part hpart
      rw [List.mem_append, List.mem_cons] at hpart
      rcases hpart with hpart | rfl | hpart
      · split at hpart
        · obtain rfl := List.mem_singleton.mp hpart
          exact ⟨rfl, by simp only; omega⟩
        · cases hpart
      · exact ⟨rfl, by simp only; omega⟩
      · exact hparts part hpart

/-! ### Splitting pieces -/

/-- The held ranges that meet positions `start..stop` of `key`, as `splitHeld` finds them. -/
def Held.overlaps (held : Held) (key : String) (start stop : Nat) : List (Nat × Nat) :=
  ((((held.range (key, 0) (key, start)).getLast?).toList.filter fun (_, e) => decide (e > start)) ++
    held.range (key, start) (key, stop)).map fun (k, e) => (k.2, e)

theorem Held.mem_range {held : Held} {key : String} {low high : Nat} {e : KeyPos × Nat} :
    e ∈ held.range (key, low) (key, high) ↔
      e ∈ held ∧ e.1.1 = key ∧ low ≤ e.1.2 ∧ e.1.2 < high := by
  obtain ⟨⟨k, p⟩, f⟩ := e
  simp only [Held.range, List.mem_filter, Bool.and_eq_true, decide_eq_true_eq]
  simp only [KeyPos.lt]
  constructor
  · rintro ⟨hm, hlow, hhigh⟩
    rcases hhigh with hlt | ⟨rfl, hp⟩
    · exact absurd (Or.inl hlt) hlow
    · refine ⟨hm, rfl, ?_, hp⟩
      by_contra hlt
      exact hlow (Or.inr ⟨rfl, by omega⟩)
  · rintro ⟨hm, rfl, hlow, hhigh⟩
    refine ⟨hm, ?_, Or.inr ⟨rfl, hhigh⟩⟩
    rintro (hlt | ⟨-, hlt⟩)
    · exact lt_irrefl _ hlt
    · omega

/-- **The overlaps found** are ascending, meet the positions, and cover what is held of them. -/
theorem Held.Ok.overlaps {held : Held} (h : held.Ok) (key : String) {start stop : Nat}
    (hlt : start < stop) :
    (held.overlaps key start stop).Pairwise (fun a b => a.2 ≤ b.1) ∧
      (∀ x ∈ held.overlaps key start stop, x.1 < x.2 ∧ x.1 < stop ∧ start < x.2) ∧
      ∀ p, start ≤ p → p < stop →
        (Covers (held.overlaps key start stop) p ↔ held.Holds ⟨key, p⟩) := by
  have hlast : ∀ e, (held.range (key, 0) (key, start)).getLast? = some e →
      (e ∈ held ∧ e.1.1 = key ∧ e.1.2 < start) ∧
        ∀ e' ∈ held.range (key, 0) (key, start), e' ≠ e → e'.2 ≤ e.1.2 := by
    intro e he
    have hm := Held.mem_range.1 (List.mem_of_getLast? he)
    refine ⟨⟨hm.1, hm.2.1, hm.2.2.2⟩, fun e' he' hne => ?_⟩
    have hsub : (held.range (key, 0) (key, start)).Pairwise Held.Before := h.before.filter _
    obtain ⟨pre, hpre⟩ := List.getLast?_eq_some_iff.mp he
    rw [hpre, List.pairwise_append] at hsub
    rw [hpre, List.mem_append, List.mem_singleton] at he'
    rcases he' with he' | rfl
    · have hb := hsub.2.2 e' he' e (by simp)
      have hk := (Held.mem_range.1 (hpre ▸ List.mem_append_left _ he' :
        e' ∈ held.range (key, 0) (key, start))).2.1
      exact hb.2 (hk.trans hm.2.1.symm)
    · exact absurd rfl hne
  have hmem : ∀ x, x ∈ held.overlaps key start stop ↔
      ∃ e ∈ held, e.1.1 = key ∧ x = (e.1.2, e.2) ∧ e.1.2 < stop ∧ start < e.2 := by
    intro x
    simp only [Held.overlaps, List.mem_map, List.mem_append, List.mem_filter, Option.mem_toList,
      decide_eq_true_eq, Held.mem_range]
    constructor
    · rintro ⟨e, ⟨he, hgt⟩ | ⟨he, hk, hlo, hhi⟩, rfl⟩
      · obtain ⟨⟨hm, hk, hs⟩, -⟩ := hlast e he
        exact ⟨e, hm, hk, rfl, by omega, hgt⟩
      · have := h.pos e he
        exact ⟨e, he, hk, rfl, hhi, by omega⟩
    · rintro ⟨e, he, hk, rfl, hhi, hgt⟩
      by_cases hs : start ≤ e.1.2
      · exact ⟨e, Or.inr ⟨he, hk, hs, hhi⟩, rfl⟩
      · refine ⟨e, Or.inl ⟨?_, hgt⟩, rfl⟩
        have hr : e ∈ held.range (key, 0) (key, start) :=
          Held.mem_range.2 ⟨he, hk, Nat.zero_le _, by omega⟩
        cases hl : (held.range (key, 0) (key, start)).getLast? with
        | none =>
          rw [List.getLast?_eq_none_iff] at hl
          rw [hl] at hr
          cases hr
        | some last =>
          by_cases heq : e = last
          · rw [heq]
          · obtain ⟨⟨-, -, hls⟩, hall⟩ := hlast last hl
            have := hall e hr heq
            omega
  refine ⟨?_, ?_, ?_⟩
  · have hback : (held.range (key, start) (key, stop)).Pairwise Held.Before := h.before.filter _
    rw [Held.overlaps, List.pairwise_map, List.pairwise_append]
    refine ⟨?_, ?_, ?_⟩
    · refine List.Pairwise.filter _ ?_
      cases (held.range (key, 0) (key, start)).getLast? <;> simp
    · refine hback.imp_of_mem fun ha hb hab => ?_
      exact hab.2 ((Held.mem_range.1 ha).2.1.trans (Held.mem_range.1 hb).2.1.symm)
    · intro a ha b hb
      rw [List.mem_filter, Option.mem_toList] at ha
      obtain ⟨⟨hma, hka, hsa⟩, -⟩ := hlast a ha.1
      obtain ⟨hmb, hkb, hsb, -⟩ := Held.mem_range.1 hb
      rcases h.before_or hma hmb (by rintro rfl; omega) with hab | hba
      · exact hab.2 (hka.trans hkb.symm)
      · rcases hba.1 with hk | ⟨-, hp⟩
        · exact absurd (hkb.trans hka.symm) (String.ne_of_lt hk)
        · omega
  · intro x hx
    obtain ⟨e, he, -, rfl, h1, h2⟩ := (hmem x).mp hx
    exact ⟨h.pos e he, h1, h2⟩
  · intro p hlo hhi
    constructor
    · rintro ⟨x, hx, h1, h2⟩
      obtain ⟨e, he, hk, rfl, -, -⟩ := (hmem x).mp hx
      exact ⟨e, he, hk, h1, h2⟩
    · rintro ⟨e, he, hk, h1, h2⟩
      simp only at h1 h2
      exact ⟨_, (hmem _).mpr ⟨e, he, hk, rfl, by omega, by omega⟩, h1, h2⟩

theorem items_of_marks (parts : List Piece) :
    (parts.flatMap Piece.marks).map Prod.fst = parts.flatMap Piece.items := by
  rw [List.map_flatMap]
  refine List.flatMap_congr fun part _ => ?_
  rw [Piece.marks, List.map_map]
  exact List.map_id _

/-- **Splitting a piece** marks each of its items by whether it is held, and then holds them
all. -/
theorem Held.Ok.split {held : Held} (h : held.Ok) {piece : Piece} (hpos : 0 < piece.len) :
    (splitHeld held piece).1.flatMap Piece.marks =
        piece.items.map (fun it => (it, decide (held.Holds it))) ∧
      (∀ part ∈ (splitHeld held piece).1, 0 < part.len) ∧ (splitHeld held piece).2.Ok ∧
      ∀ it, (splitHeld held piece).2.Holds it ↔ held.Holds it ∨ it ∈ piece.items := by
  obtain ⟨hap, hin, hcov⟩ := h.overlaps piece.key
    (show piece.start < piece.start + piece.len by omega)
  obtain ⟨hmarks, hparts⟩ := cutHeld_spec piece.key (piece.start + piece.len)
    (held.overlaps piece.key piece.start (piece.start + piece.len)) piece.start (by omega)
    (fun _ => by omega) hap hin
  have hcut : (splitHeld held piece).1 = cutHeld piece.key (piece.start + piece.len)
      (held.overlaps piece.key piece.start (piece.start + piece.len)) piece.start := rfl
  have hmarks' : (splitHeld held piece).1.flatMap Piece.marks =
      piece.items.map (fun it => (it, decide (held.Holds it))) := by
    rw [hcut, hmarks, Piece.items, List.map_map, Nat.add_sub_cancel_left]
    refine List.map_congr_left fun p hp => ?_
    rw [List.mem_range'_1] at hp
    simp only [Function.comp, Prod.mk.injEq, true_and, decide_eq_decide]
    exact hcov p hp.1 hp.2
  have hitems : (splitHeld held piece).1.flatMap Piece.items = piece.items := by
    rw [← items_of_marks, hmarks', List.map_map]
    exact List.map_id _
  -- a part is marked by whether its items are held
  have hpart : ∀ part ∈ (splitHeld held piece).1, ∀ it ∈ part.items,
      (part.copy = true ↔ held.Holds it) := by
    intro part hpart it hit
    have hm : (it, part.copy) ∈ (splitHeld held piece).1.flatMap Piece.marks :=
      List.mem_flatMap.mpr ⟨part, hpart, List.mem_map.mpr ⟨it, hit, rfl⟩⟩
    rw [hmarks'] at hm
    obtain ⟨it', -, he⟩ := List.mem_map.mp hm
    obtain ⟨rfl, hcopy⟩ := Prod.mk.inj he
    rw [← hcopy, decide_eq_true_eq]
  have hnodup : ((splitHeld held piece).1.flatMap Piece.items).Nodup := by
    rw [hitems]
    exact piece.items_nodup
  have hfold : (splitHeld held piece).2 =
      ((((splitHeld held piece).1.filter (!·.copy)).map Piece.range).foldl
        (fun held r => Held.insert (r.key, r.first) r.stop held) held) := by
    rw [List.foldl_map]
    rfl
  obtain ⟨hok, hholds⟩ := @Held.Ok.foldl_insert held h
    (((splitHeld held piece).1.filter (!·.copy)).map Piece.range)
    (by
      intro r hr
      obtain ⟨part, hm, rfl⟩ := List.mem_map.mp hr
      have := (hparts part (List.mem_of_mem_filter hm)).2
      simp only [Piece.range]
      omega)
    (by
      rw [List.pairwise_map]
      refine ((List.nodup_flatMap.mp hnodup).2.filter _).imp ?_
      intro a b hd it ha hb
      exact hd (Piece.mem_items.mpr ha) (Piece.mem_items.mpr hb))
    (by
      intro r hr it hit hheld
      obtain ⟨part, hm, rfl⟩ := List.mem_map.mp hr
      rw [List.mem_filter] at hm
      have := (hpart part hm.1 it (Piece.mem_items.mpr hit)).mpr hheld
      simp [this] at hm)
  refine ⟨hmarks', fun part hp => (hparts part hp).2, hfold ▸ hok, fun it => ?_⟩
  rw [hfold, hholds]
  constructor
  · rintro (hh | ⟨r, hr, hit⟩)
    · exact Or.inl hh
    · obtain ⟨part, hm, rfl⟩ := List.mem_map.mp hr
      refine Or.inr ?_
      rw [← hitems]
      exact List.mem_flatMap.mpr ⟨part, List.mem_of_mem_filter hm, Piece.mem_items.mpr hit⟩
  · rintro (hh | hit)
    · exact Or.inl hh
    · rw [← hitems] at hit
      obtain ⟨part, hm, hit⟩ := List.mem_flatMap.mp hit
      have hiff := hpart part hm it hit
      cases hc : part.copy with
      | true => exact Or.inl (hiff.mp hc)
      | false =>
        refine Or.inr ⟨_, List.mem_map.mpr ⟨part, List.mem_filter.mpr ⟨hm, ?_⟩, rfl⟩,
          Piece.mem_items.mp hit⟩
        simp [hc]

/-- The items of pieces, newest first. -/
def newestFirst (pieces : List Piece) : List ItemId := pieces.flatMap fun p => p.items.reverse

/-- **Splitting pieces**, newest first, marks each play as a step back would. -/
theorem splitPieces_spec (pieces : List Piece) {held : Held} (h : held.Ok)
    (hpos : ∀ p ∈ pieces, 0 < p.len) :
    ((splitPieces held pieces).reverse.flatten.flatMap Piece.marks).reverse =
        markBack (fun it => decide (held.Holds it)) (newestFirst pieces) ∧
      ∀ part ∈ (splitPieces held pieces).reverse.flatten, 0 < part.len := by
  induction pieces generalizing held with
  | nil => exact ⟨rfl, by simp [splitPieces]⟩
  | cons piece pieces ih =>
    obtain ⟨hmarks, hparts, hok, hholds⟩ := h.split (hpos piece (by simp))
    obtain ⟨ih1, ih2⟩ := ih hok fun p hp => hpos p (List.mem_cons_of_mem _ hp)
    have hsplit : splitPieces held (piece :: pieces) =
        (splitHeld held piece).1 :: splitPieces (splitHeld held piece).2 pieces := rfl
    have hnewest : newestFirst (piece :: pieces) = piece.items.reverse ++ newestFirst pieces := rfl
    rw [hsplit, List.reverse_cons, List.flatten_append, List.flatten_singleton]
    refine ⟨?_, fun part hp => ?_⟩
    · rw [List.flatMap_append, List.reverse_append, ih1, hmarks, hnewest, markBack_append,
        markBack_nodup _ (List.nodup_reverse.mpr piece.items_nodup),
        ← List.map_reverse]
      congr 1
      refine markBack_congr fun it _ => ?_
      simp [hholds]
    · rcases List.mem_append.mp hp with hp | hp
      · exact ih2 part hp
      · exact hparts part hp

end JewelCase.Queue
