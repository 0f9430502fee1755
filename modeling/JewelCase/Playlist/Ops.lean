import Mathlib.Data.List.Sort
import JewelCase.Library.Picks

/-!
# Playlist edits on the server

`crates/core/src/playlist.rs`. An op names positions of the playlist as the ops before it left it.
A remove or a move sorts its positions and refuses the first that is out of range or given twice,
an add or a move refuses a place past the end, and the first refused op fails the whole edit.
-/
namespace JewelCase.Playlist

set_option autoImplicit false

variable {α β : Type}

/-- One playlist edit. -/
inductive Op (α : Type) where
  /-- Insert `items`, already expanded; `none` appends. -/
  | add (place : Option Nat) (items : List α)
  | remove (positions : List Nat)
  /-- Move the items together, so the first takes `place` once the move is done. -/
  | move (positions : List Nat) (place : Nat)
deriving DecidableEq, Repr

/-- Why an edit was refused. -/
inductive OpError where
  | empty
  | outOfRange (position : Nat)
  | duplicate (position : Nat)
deriving DecidableEq, Repr

def OpError.message : OpError → String
  | .empty => "op has no positions"
  | .outOfRange p => "position " ++ toString p ++ " is out of range"
  | .duplicate p => "position " ++ toString p ++ " is given twice"

/-- Errors unless `p` is a position from 0 to `max`. -/
def check (p max : Nat) : Except OpError Unit :=
  if p > max then .error (.outOfRange p) else .ok ()

/-- The loop over sorted positions, `previous` the one before. -/
def checkEach (length : Nat) : Option Nat → List Nat → Except OpError Unit
  | _, [] => .ok ()
  | previous, p :: ps =>
    if p ≥ length then .error (.outOfRange p)
    else if previous = some p then .error (.duplicate p)
    else checkEach length (some p) ps

def sorted (positions : List Nat) : List Nat := positions.insertionSort (· ≤ ·)

/-- A remove's or move's positions in playlist order. -/
def selection (positions : List Nat) (length : Nat) : Except OpError (List Nat) :=
  if positions.isEmpty then .error .empty
  else
    match checkEach length none (sorted positions) with
    | .error e => .error e
    | .ok () => .ok (sorted positions)

/-- `list`, whose first item is at `i`, without the items at the ascending `drop` positions, and
those items. -/
def withoutFrom (i : Nat) : List α → List Nat → List α × List α
  | [], _ => ([], [])
  | item :: list, drop =>
    if drop.head? = some i then
      let (rest, taken) := withoutFrom (i + 1) list drop.tail
      (rest, item :: taken)
    else
      let (rest, taken) := withoutFrom (i + 1) list drop
      (item :: rest, taken)

def without (list : List α) (drop : List Nat) : List α × List α := withoutFrom 0 list drop

/-- `list` with `items` spliced in at `place`. -/
def splice (list : List α) (place : Nat) (items : List α) : List α :=
  list.take place ++ items ++ list.drop place

/-- One op applied to `list`. -/
def applyOp (list : List α) : Op α → Except OpError (List α)
  | .add place items =>
    let place := place.getD list.length
    match check place list.length with
    | .error e => .error e
    | .ok () => .ok (splice list place items)
  | .remove positions =>
    match selection positions list.length with
    | .error e => .error e
    | .ok drop => .ok (without list drop).1
  | .move positions place =>
    match selection positions list.length with
    | .error e => .error e
    | .ok moving =>
      let (rest, taken) := without list moving
      match check place rest.length with
      | .error e => .error e
      | .ok () => .ok (splice rest place taken)

/-- `items` after `ops`, each applied to the playlist as the ones before it left it. -/
def applyOps : List α → List (Op α) → Except OpError (List α)
  | items, [] => .ok items
  | items, op :: ops =>
    match applyOp items op with
    | .error e => .error e
    | .ok items => applyOps items ops

end JewelCase.Playlist

/-!
## What an op does to a playlist

An op is refused exactly when its positions are empty, repeated or out of range, and otherwise
leaves `Op.result`: the plain edit of the list, told by positions alone.
-/
namespace JewelCase.Playlist

set_option autoImplicit false

open Library.Picks

variable {α β : Type}

/-! ### Positions -/

/-- Positions an op may name in a playlist of `length` items. -/
structure Selects (positions : List Nat) (length : Nat) : Prop where
  nonempty : positions ≠ []
  nodup : positions.Nodup
  in_range : ∀ p ∈ positions, p < length

instance (positions : List Nat) (length : Nat) : Decidable (Selects positions length) :=
  decidable_of_iff (positions ≠ [] ∧ positions.Nodup ∧ ∀ p ∈ positions, p < length)
    ⟨fun h => ⟨h.1, h.2.1, h.2.2⟩, fun h => ⟨h.1, h.2, h.3⟩⟩

theorem sorted_perm (positions : List Nat) : (sorted positions).Perm positions :=
  List.perm_insertionSort _ _

theorem mem_sorted {positions : List Nat} {p : Nat} : p ∈ sorted positions ↔ p ∈ positions :=
  (sorted_perm positions).mem_iff

theorem sorted_pairwise (positions : List Nat) : (sorted positions).Pairwise (· ≤ ·) :=
  List.pairwise_insertionSort (· ≤ ·) positions

theorem Selects.sorted_lt {positions : List Nat} {length : Nat} (h : Selects positions length) :
    (sorted positions).Pairwise (· < ·) := by
  have hn : (sorted positions).Nodup := (sorted_perm positions).nodup_iff.mpr h.nodup
  exact ((sorted_pairwise positions).and hn).imp fun h => lt_of_le_of_ne h.1 h.2

theorem Selects.sorted_in_range {positions : List Nat} {length : Nat}
    (h : Selects positions length) : ∀ p ∈ sorted positions, p < length :=
  fun p hp => h.in_range p (mem_sorted.1 hp)

/-- The loop passes positions in range, each after the one before. -/
theorem checkEach_ok {length : Nat} {previous : Option Nat} {ps : List Nat}
    (hs : ps.Pairwise (· ≤ ·)) (hp : ∀ a ∈ previous, ∀ p ∈ ps, a ≤ p) :
    checkEach length previous ps = .ok () ↔
      (∀ p ∈ ps, p < length) ∧ (∀ a ∈ previous, ∀ p ∈ ps, a < p) ∧ ps.Pairwise (· < ·) := by
  induction ps generalizing previous with
  | nil => simp [checkEach]
  | cons p ps ih =>
    obtain ⟨hle, hs⟩ := List.pairwise_cons.mp hs
    have hnext : ∀ a ∈ some p, ∀ q ∈ ps, a ≤ q := by
      intro a ha q hq
      obtain rfl : p = a := by simpa using ha
      exact hle q hq
    rw [checkEach]
    by_cases hlen : p ≥ length
    · rw [if_pos hlen]
      constructor
      · intro he
        cases he
      · rintro ⟨hin, _⟩
        have := hin p (by simp)
        omega
    · rw [if_neg hlen]
      by_cases hprev : previous = some p
      · rw [if_pos hprev]
        constructor
        · intro he
          cases he
        · rintro ⟨_, hlt, _⟩
          have := hlt p (by simp [hprev]) p (by simp)
          omega
      · rw [if_neg hprev, ih hs hnext, List.pairwise_cons]
        constructor
        · rintro ⟨hin, hlt, hpw⟩
          have hp' : ∀ q ∈ ps, p < q := hlt p (by simp)
          refine ⟨?_, ?_, hp', hpw⟩
          · intro q hq
            rcases List.mem_cons.mp hq with rfl | hq
            · omega
            · exact hin q hq
          · intro a ha q hq
            have hap : a ≤ p := hp a ha p (by simp)
            have hne : a ≠ p := by
              intro hap'
              exact hprev (hap' ▸ ha)
            rcases List.mem_cons.mp hq with rfl | hq
            · omega
            · have := hp' q hq
              omega
        · rintro ⟨hin, _, hlt, hpw⟩
          refine ⟨fun q hq => hin q (List.mem_cons_of_mem _ hq), ?_, hpw⟩
          intro a ha q hq
          obtain rfl : p = a := by simpa using ha
          exact hlt q hq

theorem selection_eq_ok {positions sel : List Nat} {length : Nat} :
    selection positions length = .ok sel ↔ Selects positions length ∧ sel = sorted positions := by
  have hcheck := @checkEach_ok length none _ (sorted_pairwise positions) (by simp)
  unfold selection
  by_cases hnil : positions = []
  · subst hnil
    constructor
    · intro he
      cases he
    · rintro ⟨h, _⟩
      exact (h.nonempty rfl).elim
  · rw [if_neg (by simpa using hnil)]
    cases hc : checkEach length none (sorted positions) with
    | error e =>
      constructor
      · intro he
        cases he
      · rintro ⟨h, _⟩
        have := hcheck.mpr ⟨h.sorted_in_range, by simp, h.sorted_lt⟩
        rw [hc] at this
        cases this
    | ok u =>
      obtain ⟨hin, -, hlt⟩ := hcheck.mp hc
      have hsel : Selects positions length :=
        ⟨hnil, (sorted_perm positions).nodup_iff.mp (hlt.imp Nat.ne_of_lt),
          fun p hp => hin p (mem_sorted.2 hp)⟩
      simp only [Except.ok.injEq]
      exact ⟨fun he => ⟨hsel, he.symm⟩, fun he => he.2.symm⟩

theorem selection_of_selects {positions : List Nat} {length : Nat} (h : Selects positions length) :
    selection positions length = .ok (sorted positions) := selection_eq_ok.2 ⟨h, rfl⟩

theorem selection_of_not {positions : List Nat} {length : Nat} (h : ¬ Selects positions length) :
    ∃ e, selection positions length = .error e := by
  cases hs : selection positions length with
  | error e => exact ⟨e, rfl⟩
  | ok sel => exact (h (selection_eq_ok.1 hs).1).elim

theorem check_eq_ok {p max : Nat} : check p max = .ok () ↔ p ≤ max := by
  unfold check
  by_cases h : p > max
  · rw [if_pos h]
    constructor
    · intro he
      cases he
    · omega
  · rw [if_neg h]
    simpa using h

/-! ### The items named and the others -/

/-- The items at the positions, in playlist order. -/
def picked (positions : List Nat) (items : List α) : List α :=
  filterIdx (fun i => decide (i ∈ positions)) items

/-- The items at the other positions, in playlist order. -/
def kept (positions : List Nat) (items : List α) : List α :=
  filterIdx (fun i => !decide (i ∈ positions)) items

theorem picked_sorted (positions : List Nat) (items : List α) :
    picked (sorted positions) items = picked positions items := by
  unfold picked
  simp only [mem_sorted]

theorem picked_perm_kept (positions : List Nat) (items : List α) :
    (picked positions items ++ kept positions items).Perm items := filterIdx_perm _ _

theorem Selects.length_picked {positions : List Nat} {items : List α}
    (h : Selects positions items.length) : (picked positions items).length = positions.length := by
  rw [← picked_sorted, picked, length_filterIdx_mem h.sorted_lt h.sorted_in_range,
    (sorted_perm positions).length_eq]

theorem Selects.length_kept {positions : List Nat} {items : List α}
    (h : Selects positions items.length) :
    (kept positions items).length + positions.length = items.length := by
  have hlen := (picked_perm_kept positions items).length_eq
  rw [List.length_append, h.length_picked] at hlen
  omega

/-- Items and the ascending positions among them, walked together. -/
theorem withoutFrom_eq {i : Nat} {list : List α} {drop : List Nat} (hs : drop.Pairwise (· < ·))
    (hi : ∀ p ∈ drop, i ≤ p) :
    withoutFrom i list drop =
      (filterIdx (fun j => !decide (i + j ∈ drop)) list,
        filterIdx (fun j => decide (i + j ∈ drop)) list) := by
  induction list generalizing i drop with
  | nil => rfl
  | cons item list ih =>
    rw [withoutFrom, filterIdx_cons, filterIdx_cons]
    by_cases hhead : drop.head? = some i
    · obtain ⟨drop, rfl⟩ : ∃ rest, drop = i :: rest := by
        cases drop with
        | nil => cases hhead
        | cons p rest => exact ⟨rest, by rw [Option.some.inj hhead]⟩
      obtain ⟨hlt, hs⟩ := List.pairwise_cons.mp hs
      have hmem : ∀ j, (i + (1 + j) ∈ i :: drop) ↔ i + 1 + j ∈ drop := by
        intro j
        rw [List.mem_cons, ← Nat.add_assoc]
        exact or_iff_right (by omega)
      rw [if_pos hhead, List.tail_cons, ih hs fun p hp => hlt p hp]
      simp only [hmem, Nat.add_zero, List.mem_cons, true_or, decide_true, Bool.not_true, if_true,
        Bool.false_eq_true, if_false]
    · have hno : i ∉ drop := by
        intro hin
        cases drop with
        | nil => cases hin
        | cons p rest =>
          rcases List.mem_cons.mp hin with rfl | hin
          · exact hhead rfl
          · have h1 := (List.pairwise_cons.mp hs).1 i hin
            have h2 := hi p (by simp)
            omega
      have hnext : ∀ p ∈ drop, i + 1 ≤ p := by
        intro p hp
        have h1 := hi p hp
        have h2 : i ≠ p := fun he => hno (he ▸ hp)
        omega
      rw [if_neg hhead, ih hs hnext]
      simp only [Nat.add_zero, hno, decide_false, Bool.not_false, if_true, Bool.false_eq_true,
        if_false, Nat.add_assoc]

theorem Selects.without_eq {positions : List Nat} {items : List α}
    (h : Selects positions items.length) :
    without items (sorted positions) = (kept positions items, picked positions items) := by
  rw [without, withoutFrom_eq h.sorted_lt fun p _ => Nat.zero_le p]
  simp only [Nat.zero_add, kept, picked, mem_sorted]

/-! ### Ops -/

/-- An op a playlist of `length` items refuses: its positions are empty, repeated or out of
range. -/
def Op.Refused (length : Nat) : Op α → Prop
  | .add place _ => length < place.getD length
  | .remove positions => ¬ Selects positions length
  | .move positions place => ¬ Selects positions length ∨ length < positions.length + place

instance (length : Nat) (op : Op α) : Decidable (op.Refused length) := by
  cases op <;> unfold Op.Refused <;> infer_instance

/-- What the op leaves of the items. -/
def Op.result (items : List α) : Op α → List α
  | .add place new => splice items (place.getD items.length) new
  | .remove positions => kept positions items
  | .move positions place => splice (kept positions items) place (picked positions items)

/-- **An op does its edit, or is refused.** -/
theorem applyOp_eq_ok {items after : List α} {op : Op α} :
    applyOp items op = .ok after ↔ ¬ op.Refused items.length ∧ after = op.result items := by
  cases op with
  | add place new =>
    rw [applyOp, Op.Refused, Op.result, Nat.not_lt]
    cases hc : check (place.getD items.length) items.length with
    | error e =>
      constructor
      · intro he
        cases he
      · rintro ⟨h, _⟩
        rw [check_eq_ok.2 h] at hc
        cases hc
    | ok u =>
      rw [and_iff_right (check_eq_ok.1 hc)]
      simp only [Except.ok.injEq]
      exact eq_comm
  | remove positions =>
    rw [applyOp, Op.Refused, Op.result, not_not]
    by_cases h : Selects positions items.length
    · rw [selection_of_selects h, and_iff_right h]
      simp only [h.without_eq, Except.ok.injEq]
      exact eq_comm
    · obtain ⟨e, he⟩ := selection_of_not h
      rw [he]
      constructor
      · intro he
        cases he
      · rintro ⟨h', _⟩
        exact (h h').elim
  | move positions place =>
    rw [applyOp, Op.Refused, Op.result, not_or, not_not, Nat.not_lt]
    by_cases h : Selects positions items.length
    · have hlen := h.length_kept
      rw [selection_of_selects h, and_iff_right h]
      simp only [h.without_eq]
      cases hc : check place (kept positions items).length with
      | error e =>
        constructor
        · intro he
          cases he
        · rintro ⟨hp, _⟩
          rw [check_eq_ok.2 (by omega)] at hc
          cases hc
      | ok u =>
        have hp := check_eq_ok.1 hc
        rw [and_iff_right (by omega)]
        simp only [Except.ok.injEq]
        exact eq_comm
    · obtain ⟨e, he⟩ := selection_of_not h
      rw [he]
      constructor
      · intro he
        cases he
      · rintro ⟨⟨h', _⟩, _⟩
        exact (h h').elim

theorem applyOp_of_refused {items : List α} {op : Op α} (h : op.Refused items.length) :
    ∃ e, applyOp items op = .error e := by
  cases ha : applyOp items op with
  | error e => exact ⟨e, rfl⟩
  | ok after => exact ((applyOp_eq_ok.1 ha).1 h).elim

theorem applyOp_of_ok {items : List α} {op : Op α} (h : ¬ op.Refused items.length) :
    applyOp items op = .ok (op.result items) := applyOp_eq_ok.2 ⟨h, rfl⟩

/-! ### Sequences of ops -/

/-- The ops one after another, each on the list the ones before it left. -/
inductive Replayed : List α → List (Op α) → List α → Prop where
  | nil (items : List α) : Replayed items [] items
  | cons {items after : List α} {op : Op α} {ops : List (Op α)} (ok : ¬ op.Refused items.length)
    (rest : Replayed (op.result items) ops after) : Replayed items (op :: ops) after

theorem Replayed.snoc {items before : List α} {ops : List (Op α)} {op : Op α}
    (h : Replayed items ops before) (hok : ¬ op.Refused before.length) :
    Replayed items (ops ++ [op]) (op.result before) := by
  induction h with
  | nil items => exact .cons hok (.nil _)
  | cons ok _ ih => exact .cons ok (ih hok)

/-- A replay up to an op, and on from it. -/
theorem Replayed.split {items after : List α} {done rest : List (Op α)} {op : Op α}
    (h : Replayed items (done ++ op :: rest) after) :
    ∃ before, Replayed items done before ∧ ¬ op.Refused before.length ∧
      Replayed (op.result before) rest after := by
  induction done generalizing items with
  | nil =>
    cases h with
    | cons ok hrest => exact ⟨items, .nil _, ok, hrest⟩
  | cons first done ih =>
    cases h with
    | cons ok hrest =>
      obtain ⟨before, hb, hok, hr⟩ := ih hrest
      exact ⟨before, .cons ok hb, hok, hr⟩

theorem applyOps_eq_ok {items after : List α} {ops : List (Op α)} :
    applyOps items ops = .ok after ↔ Replayed items ops after := by
  induction ops generalizing items with
  | nil =>
    rw [applyOps, Except.ok.injEq]
    constructor
    · intro he
      subst he
      exact .nil _
    · intro h
      cases h
      rfl
  | cons op ops ih =>
    rw [applyOps]
    by_cases h : op.Refused items.length
    · obtain ⟨e, he⟩ := applyOp_of_refused h
      rw [he]
      constructor
      · intro he
        cases he
      · intro hr
        cases hr with
        | cons ok _ => exact (ok h).elim
    · rw [applyOp_of_ok h]
      constructor
      · intro ha
        exact .cons h (ih.mp ha)
      · intro hr
        cases hr with
        | cons _ rest => exact ih.mpr rest

/-- A sequence that is refused is refused at an op, on the list the ones before it left. -/
theorem applyOps_error {items : List α} {ops : List (Op α)} :
    (∃ e, applyOps items ops = .error e) ↔
      ∃ done op rest before, ops = done ++ op :: rest ∧ Replayed items done before ∧
        op.Refused before.length := by
  induction ops generalizing items with
  | nil =>
    constructor
    · rintro ⟨e, he⟩
      cases he
    · rintro ⟨done, op, rest, _, he, _⟩
      simp at he
  | cons op ops ih =>
    rw [applyOps]
    by_cases h : op.Refused items.length
    · obtain ⟨e, he⟩ := applyOp_of_refused h
      rw [he]
      exact iff_of_true ⟨e, rfl⟩ ⟨[], op, ops, items, rfl, .nil _, h⟩
    · rw [applyOp_of_ok h]
      simp only
      rw [ih]
      constructor
      · rintro ⟨done, bad, rest, before, he, hr, hb⟩
        exact ⟨op :: done, bad, rest, before, by rw [he]; rfl, .cons h hr, hb⟩
      · rintro ⟨done, bad, rest, before, he, hr, hb⟩
        cases hr with
        | nil =>
          obtain ⟨rfl, -⟩ := List.cons.inj he
          exact (h hb).elim
        | cons ok hr =>
          obtain ⟨hop, hops⟩ := List.cons.inj he
          subst hop
          exact ⟨_, bad, rest, before, hops, hr, hb⟩

end JewelCase.Playlist
