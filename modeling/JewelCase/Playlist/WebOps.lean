import JewelCase.Playlist.Ops

/-!
# Playlist edits on the device

`web/src/lib/playlist-ops.ts`. The device applies an op at once and keeps the ops that undo it. A
number is a whole number here, below zero included, and an array of playables is known by its
identity: the undo finds what an add brings back by the very array the add names it with.
-/
namespace JewelCase.Playlist.Web

set_option autoImplicit false

open Library.Picks

variable {α ρ : Type}

/-- An array by identity: one an edit came with, or the `n`-th an undo made. -/
inductive Ref where
  | given (n : Nat)
  | restored (n : Nat)
deriving DecidableEq, Repr

/-- An array of playables. -/
structure Named (ρ : Type) where
  ref : Ref
  playables : List ρ
deriving DecidableEq, Repr

inductive PlaylistOp (ρ : Type) where
  | add (items : Named ρ) (place : Option Int)
  | remove (positions : List Int)
  | move (positions : List Int) (place : Int)
deriving DecidableEq, Repr

/-- What is thrown: a `RangeError`, the undo's own error, or that of an add whose track's summary
was not given. -/
inductive Thrown where
  | noItems
  | noPositions
  | outOfRange (p : Int)
  | givenTwice (p : Int)
  | notRemoved
  | noSummary
deriving DecidableEq, Repr

def Thrown.message : Thrown → String
  | .noItems => "add has no items"
  | .noPositions => "no positions"
  | .outOfRange p => "position " ++ toString p ++ " is out of range"
  | .givenTwice p => "position " ++ toString p ++ " is given twice"
  | .notRemoved => "Undo brings back only what was removed."
  | .noSummary => "Adding a track needs its summary."

/-- An add's items as playlist items. -/
abbrev Resolve (ρ α : Type) := Named ρ → Except Thrown (List α)

/-- Throws unless `p` is a position from 0 to `max`. -/
def check (p max : Int) : Except Thrown Unit :=
  if p < 0 ∨ p > max then .error (.outOfRange p) else .ok ()

/-- The loop over sorted positions, `previous` the one before. -/
def checkEach (length : Nat) : Option Int → List Int → Except Thrown Unit
  | _, [] => .ok ()
  | previous, p :: ps =>
    match check p (length - 1) with
    | .error e => .error e
    | .ok () =>
      if previous = some p then .error (.givenTwice p) else checkEach length (some p) ps

def toSorted (positions : List Int) : List Int := positions.insertionSort (· ≤ ·)

/-- A remove's or move's positions in playlist order. -/
def selection (positions : List Int) (length : Nat) : Except Thrown (List Int) :=
  if positions.isEmpty then .error .noPositions
  else
    match checkEach length none (toSorted positions) with
    | .error e => .error e
    | .ok () => .ok (toSorted positions)

def toSpliced (list : List α) (place : Int) (items : List α) : List α :=
  splice list place.toNat items

def applyOp (list : List α) (resolve : Resolve ρ α) : PlaylistOp ρ → Except Thrown (List α)
  | .add items place =>
    if items.playables.isEmpty then .error .noItems
    else
      let place := place.getD list.length
      match check place list.length with
      | .error e => .error e
      | .ok () =>
        match resolve items with
        | .error e => .error e
        | .ok added => .ok (toSpliced list place added)
  | .remove positions =>
    match selection positions list.length with
    | .error e => .error e
    | .ok drop => .ok (filterIdx (fun i => !decide ((i : Int) ∈ drop)) list)
  | .move positions place =>
    match selection positions list.length with
    | .error e => .error e
    | .ok moving =>
      let rest := filterIdx (fun i => !decide ((i : Int) ∈ moving)) list
      match check place rest.length with
      | .error e => .error e
      | .ok () => .ok (toSpliced rest place (moving.filterMap fun i => list[i.toNat]?))

/-- `items` after `ops`, each applied to the playlist as the ones before it left it. -/
def applyOps (resolve : Resolve ρ α) : List α → List (PlaylistOp ρ) → Except Thrown (List α)
  | items, [] => .ok items
  | items, op :: ops =>
    match applyOp items resolve op with
    | .error e => .error e
    | .ok items => applyOps resolve items ops

/-! ### Undo -/

def range (start stop : Int) : List Int :=
  (List.range (stop - start).toNat).map fun (i : Nat) => start + i

/-- One more position, in the last run if it comes right after it. -/
def pushRun (out : List (List Int)) (p : Int) : List (List Int) :=
  match out.getLast? with
  | some last =>
    if last.getLast? = some (p - 1) then out.dropLast ++ [last ++ [p]] else out ++ [[p]]
  | none => out ++ [[p]]

/-- Ascending positions split into runs of consecutive ones. -/
def runs (sorted : List Int) : List (List Int) := sorted.foldl pushRun []

/-- The items removed so far, by the number of the array that names them. -/
abbrev Removed (α : Type) := List (List α)

/-- A fresh array that names `back`. -/
def restore (toPlayable : α → ρ) (removed : Removed α) (back : List α) : Named ρ × Removed α :=
  (⟨.restored removed.length, back.map toPlayable⟩, removed ++ [back])

/-- The adds that bring back the removed runs, one a run. -/
def addBack (toPlayable : α → ρ) (before : List α) (s : List (PlaylistOp ρ) × Removed α)
    (run : List Int) : List (PlaylistOp ρ) × Removed α :=
  let (named, removed) :=
    restore toPlayable s.2 (run.filterMap fun i => before[i.toNat]?)
  (s.1 ++ [.add named (some (run.headD 0))], removed)

/-- The runs going left and those going right, and how many items are ahead of the next run. -/
structure MovesBack (ρ : Type) where
  left : List (PlaylistOp ρ) := []
  right : List (PlaylistOp ρ) := []
  ahead : Nat := 0

/-- The move that takes a run of the moved items back. -/
def moveBack (place : Int) (s : MovesBack ρ) (run : List Int) : MovesBack ρ :=
  let start := place + s.ahead
  let home := run.headD 0
  let back := PlaylistOp.move (range start (start + run.length)) home
  { left := if home < start then s.left ++ [back] else s.left
    right := if home < start then s.right else if home > start then s.right ++ [back] else s.right
    ahead := s.ahead + run.length }

/-- The ops that turn `after` back into `before`, where `op` made one from the other. -/
def invertOp (toPlayable : α → ρ) (before after : List α) (removed : Removed α) :
    PlaylistOp ρ → Except Thrown (List (PlaylistOp ρ) × Removed α)
  | .add _ place =>
    let place := place.getD before.length
    let count := after.length - before.length
    .ok (if count ≠ 0 then [.remove (range place (place + count))] else [], removed)
  | .remove positions =>
    match selection positions before.length with
    | .error e => .error e
    | .ok sorted => .ok ((runs sorted).foldl (addBack toPlayable before) ([], removed))
  | .move positions place =>
    match selection positions before.length with
    | .error e => .error e
    | .ok sorted =>
      let moves := (runs sorted).foldl (moveBack place) {}
      .ok (moves.left ++ moves.right.reverse, removed)

/-- The loop of `invertOps`: the ops that undo each op so far, and the items removed. -/
def invertEach (resolve : Resolve ρ α) (toPlayable : α → ρ) :
    List α → List (PlaylistOp ρ) → Removed α → List (List (PlaylistOp ρ)) →
      Except Thrown (List (List (PlaylistOp ρ)) × Removed α)
  | _, [], removed, undo => .ok (undo, removed)
  | list, op :: ops, removed, undo =>
    match applyOp list resolve op with
    | .error e => .error e
    | .ok next =>
      match invertOp toPlayable list next removed op with
      | .error e => .error e
      | .ok (back, removed) => invertEach resolve toPlayable next ops removed (undo ++ [back])

/-- The items an array of the undo brings back. -/
def resolveRemoved (removed : Removed α) : Resolve ρ α := fun added =>
  match added.ref with
  | .given _ => .error .notRemoved
  | .restored n =>
    match removed[n]? with
    | none => .error .notRemoved
    | some back => .ok back

/-- An edit's undo. -/
structure Inverse (ρ α : Type) where
  ops : List (PlaylistOp ρ)
  resolve : Resolve ρ α

/-- The ops that turn the playlist `ops` make from `items` back into `items`. -/
def invertOps (items : List α) (ops : List (PlaylistOp ρ)) (resolve : Resolve ρ α)
    (toPlayable : α → ρ) : Except Thrown (Inverse ρ α) :=
  match invertEach resolve toPlayable items ops [] [] with
  | .error e => .error e
  | .ok (undo, removed) => .ok ⟨undo.reverse.flatten, resolveRemoved removed⟩

end JewelCase.Playlist.Web

/-!
## The device and the server make the same edits

An op of the device means one of the server's: the positions are the same, and an add is of the
items its playables expand to. Both refuse it or both leave the same list.
-/
namespace JewelCase.Playlist.Web

set_option autoImplicit false

open Library.Picks

variable {α ρ : Type} {resolve : Resolve ρ α}

def whole (ps : List Nat) : List Int := ps.map Nat.cast

theorem mem_whole {ps : List Nat} {p : Nat} : (p : Int) ∈ whole ps ↔ p ∈ ps := by
  rw [whole, List.mem_map]
  constructor
  · rintro ⟨q, hq, he⟩
    rwa [← Int.ofNat_inj.mp he]
  · intro hp
    exact ⟨p, hp, rfl⟩

theorem whole_of_nonneg {ps : List Int} (h : ∀ p ∈ ps, 0 ≤ p) : ps = whole (ps.map Int.toNat) := by
  rw [whole, List.map_map]
  conv_lhs => rw [← List.map_id ps]
  apply List.map_congr_left
  intro p hp
  exact (Int.toNat_of_nonneg (h p hp)).symm

theorem toSorted_whole (ps : List Nat) : toSorted (whole ps) = whole (sorted ps) := by
  rw [toSorted, whole, whole, sorted, List.map_insertionSort (· ≤ ·) (· ≤ ·)]
  intro a _ b _
  exact Int.ofNat_le.symm

/-! ### Positions -/

theorem check_eq_ok {p max : Int} : check p max = .ok () ↔ 0 ≤ p ∧ p ≤ max := by
  unfold check
  by_cases h : p < 0 ∨ p > max
  · rw [if_pos h]
    constructor
    · intro he
      cases he
    · omega
  · rw [if_neg h]
    simp only [true_iff]
    omega

theorem checkEach_nonneg {length : Nat} {previous : Option Int} {ps : List Int}
    (h : checkEach length previous ps = .ok ()) : ∀ p ∈ ps, 0 ≤ p := by
  induction ps generalizing previous with
  | nil => simp
  | cons p ps ih =>
    rw [checkEach] at h
    cases hc : check p (length - 1) with
    | error e =>
      rw [hc] at h
      cases h
    | ok u =>
      rw [hc] at h
      simp only at h
      by_cases hp : previous = some p
      · rw [if_pos hp] at h
        cases h
      · rw [if_neg hp] at h
        intro q hq
        rcases List.mem_cons.mp hq with rfl | hq
        · exact (check_eq_ok.1 hc).1
        · exact ih h q hq

/-- The device's loop passes the positions that the server's passes. -/
theorem checkEach_whole {length : Nat} {previous : Option Nat} {ps : List Nat} :
    checkEach length (previous.map Nat.cast) (whole ps) = .ok () ↔
      Playlist.checkEach length previous ps = .ok () := by
  induction ps generalizing previous with
  | nil => exact iff_of_true rfl rfl
  | cons p ps ih =>
    have hwhole : whole (p :: ps) = (p : Int) :: whole ps := rfl
    rw [hwhole, checkEach, Playlist.checkEach]
    by_cases hlen : p ≥ length
    · rw [if_pos hlen]
      cases hc : check (p : Int) (length - 1) with
      | error e => exact iff_of_false (by intro he; cases he) (by intro he; cases he)
      | ok u =>
        have := (check_eq_ok.1 hc).2
        omega
    · rw [if_neg hlen, check_eq_ok.2 ⟨by omega, by omega⟩]
      have hprev : previous.map Nat.cast = some (p : Int) ↔ previous = some p := by
        cases previous with
        | none => simp
        | some q => simp only [Option.map_some, Option.some.injEq, Int.ofNat_inj]
      by_cases hp : previous = some p
      · rw [if_pos hp]
        simp only [if_pos (hprev.mpr hp)]
        exact iff_of_false (by intro he; cases he) (by intro he; cases he)
      · rw [if_neg hp]
        simp only [if_neg fun he => hp (hprev.mp he)]
        exact @ih (some p)

theorem selection_whole {ps : List Nat} {length : Nat} {sel : List Int} :
    selection (whole ps) length = .ok sel ↔ Selects ps length ∧ sel = whole (sorted ps) := by
  unfold selection
  rw [toSorted_whole]
  by_cases hnil : ps = []
  · subst hnil
    refine iff_of_false (by intro he; cases he) ?_
    rintro ⟨h, -⟩
    exact h.nonempty rfl
  · have hne : (whole ps).isEmpty = false := by simpa [whole] using hnil
    have hcheck : checkEach length none (whole (sorted ps)) = .ok () ↔
        Playlist.checkEach length none (sorted ps) = .ok () :=
      @checkEach_whole length none (sorted ps)
    rw [hne]
    simp only [Bool.false_eq_true, if_false]
    cases hc : checkEach length none (whole (sorted ps)) with
    | error e =>
      refine iff_of_false (by intro he; cases he) ?_
      rintro ⟨h, -⟩
      have hok := (@checkEach_ok length none _ (sorted_pairwise ps) (by simp)).mpr
        ⟨h.sorted_in_range, by simp, h.sorted_lt⟩
      rw [hcheck.mpr hok] at hc
      cases hc
    | ok u =>
      obtain ⟨hin, -, hlt⟩ := (checkEach_ok (sorted_pairwise ps) (by simp)).mp (hcheck.mp hc)
      have hsel : Selects ps length :=
        ⟨hnil, (sorted_perm ps).nodup_iff.mp (hlt.imp Nat.ne_of_lt),
          fun p hp => hin p (mem_sorted.2 hp)⟩
      simp only [Except.ok.injEq]
      exact ⟨fun he => ⟨hsel, he.symm⟩, fun he => he.2.symm⟩

/-- Accepted positions are whole numbers from zero. -/
theorem selection_eq_ok {ps sel : List Int} {length : Nat} :
    selection ps length = .ok sel ↔
      ∃ qs, ps = whole qs ∧ Selects qs length ∧ sel = whole (sorted qs) := by
  constructor
  · intro h
    have hnn : ∀ p ∈ ps, 0 ≤ p := by
      unfold selection at h
      by_cases hnil : ps.isEmpty
      · rw [if_pos hnil] at h
        cases h
      · rw [if_neg hnil] at h
        cases hc : checkEach length none (toSorted ps) with
        | error e =>
          rw [hc] at h
          cases h
        | ok u =>
          intro p hp
          exact checkEach_nonneg hc p ((List.perm_insertionSort _ ps).mem_iff.mpr hp)
    have hw := whole_of_nonneg hnn
    rw [hw] at h
    exact ⟨_, hw, selection_whole.1 h⟩
  · rintro ⟨qs, rfl, h⟩
    exact selection_whole.2 h

/-! ### Ops -/

/-- What an op of the device means to the server, its adds expanded by `resolve`. -/
inductive Means (resolve : Resolve ρ α) : PlaylistOp ρ → Op α → Prop where
  | add {items : Named ρ} {added : List α} (place : Option Nat) (named : items.playables ≠ [])
    (resolved : resolve items = .ok added) :
    Means resolve (.add items (place.map Nat.cast)) (.add place added)
  | remove (ps : List Nat) : Means resolve (.remove (whole ps)) (.remove ps)
  | move (ps : List Nat) (place : Nat) : Means resolve (.move (whole ps) place) (.move ps place)

theorem filterIdx_whole (ps : List Nat) (list : List α) :
    filterIdx (fun i => !decide ((i : Int) ∈ whole (sorted ps))) list = kept ps list := by
  simp only [mem_whole, mem_sorted, kept]

theorem filterMap_whole {ps : List Nat} {list : List α} (h : Selects ps list.length) :
    (whole (sorted ps)).filterMap (fun i => list[i.toNat]?) = picked ps list := by
  rw [whole, List.filterMap_map, ← picked_sorted, picked,
    ← filterMap_getElem? h.sorted_lt h.sorted_in_range]
  rfl

theorem getD_cast (place : Option Nat) (length : Nat) :
    (place.map Nat.cast).getD (length : Int) = (place.getD length : Nat) := by
  cases place <;> rfl

/-- **The device does an op as the server does what it means.** -/
theorem applyOp_means {list after : List α} {op : PlaylistOp ρ} {op' : Op α}
    (h : Means resolve op op') :
    applyOp list resolve op = .ok after ↔
      ¬ op'.Refused list.length ∧ after = op'.result list := by
  cases h with
  | @add items added place named resolved =>
    rw [applyOp, if_neg (by simpa using named), Op.Refused, Op.result, Nat.not_lt]
    simp only [getD_cast, resolved, toSpliced, Int.toNat_natCast]
    cases hc : check (place.getD list.length : Nat) list.length with
    | error e =>
      refine iff_of_false (by intro he; cases he) ?_
      rintro ⟨hle, -⟩
      rw [check_eq_ok.2 ⟨by omega, by omega⟩] at hc
      cases hc
    | ok u =>
      have hle := (check_eq_ok.1 hc).2
      rw [and_iff_right (by omega)]
      simp only [Except.ok.injEq]
      exact eq_comm
  | remove ps =>
    rw [applyOp, Op.Refused, Op.result, not_not]
    by_cases hsel : Selects ps list.length
    · rw [selection_whole.2 ⟨hsel, rfl⟩, and_iff_right hsel]
      simp only [filterIdx_whole, Except.ok.injEq]
      exact eq_comm
    · cases hs : selection (whole ps) list.length with
      | error e => exact iff_of_false (by intro he; cases he) fun he => hsel he.1
      | ok sel => exact (hsel (selection_whole.1 hs).1).elim
  | move ps place =>
    rw [applyOp, Op.Refused, Op.result, not_or, not_not, Nat.not_lt]
    by_cases hsel : Selects ps list.length
    · have hlen := hsel.length_kept
      rw [selection_whole.2 ⟨hsel, rfl⟩, and_iff_right hsel]
      simp only [filterIdx_whole, filterMap_whole hsel, toSpliced, Int.toNat_natCast]
      cases hc : check place (kept ps list).length with
      | error e =>
        refine iff_of_false (by intro he; cases he) ?_
        rintro ⟨hle, -⟩
        rw [check_eq_ok.2 ⟨by omega, by omega⟩] at hc
        cases hc
      | ok u =>
        have hle := (check_eq_ok.1 hc).2
        rw [and_iff_right (by omega)]
        simp only [Except.ok.injEq]
        exact eq_comm
    · cases hs : selection (whole ps) list.length with
      | error e => exact iff_of_false (by intro he; cases he) fun he => hsel he.1.1
      | ok sel => exact (hsel (selection_whole.1 hs).1).elim

/-- Every op the device accepts means one. -/
theorem applyOp_eq_ok {list after : List α} {op : PlaylistOp ρ} :
    applyOp list resolve op = .ok after ↔
      ∃ op', Means resolve op op' ∧ ¬ op'.Refused list.length ∧ after = op'.result list := by
  constructor
  · intro h
    suffices hm : ∃ op', Means resolve op op' by
      obtain ⟨op', hm⟩ := hm
      exact ⟨op', hm, (applyOp_means hm).mp h⟩
    cases op with
    | add items place =>
      rw [applyOp] at h
      by_cases hnil : items.playables.isEmpty
      · rw [if_pos hnil] at h
        cases h
      · rw [if_neg hnil] at h
        cases hc : check (place.getD list.length) list.length with
        | error e =>
          simp only [hc] at h
          cases h
        | ok u =>
          cases hr : resolve items with
          | error e =>
            simp only [hc, hr] at h
            cases h
          | ok added =>
            have hp : place = (place.map Int.toNat).map Nat.cast := by
              cases place with
              | none => rfl
              | some p =>
                have h0 := (check_eq_ok.1 hc).1
                simp only [Option.getD_some] at h0
                simp [Int.toNat_of_nonneg h0]
            rw [hp]
            exact ⟨_, .add _ (by simpa using hnil) hr⟩
    | remove ps =>
      rw [applyOp] at h
      cases hs : selection ps list.length with
      | error e =>
        rw [hs] at h
        cases h
      | ok sel =>
        obtain ⟨qs, rfl, -⟩ := selection_eq_ok.1 hs
        exact ⟨_, .remove qs⟩
    | move ps place =>
      rw [applyOp] at h
      cases hs : selection ps list.length with
      | error e =>
        rw [hs] at h
        cases h
      | ok sel =>
        obtain ⟨qs, rfl, -⟩ := selection_eq_ok.1 hs
        rw [hs] at h
        simp only at h
        cases hc : check place
          (filterIdx (fun i => !decide ((i : Int) ∈ sel)) list).length with
        | error e =>
          rw [hc] at h
          cases h
        | ok u =>
          rw [← Int.toNat_of_nonneg (check_eq_ok.1 hc).1]
          exact ⟨_, .move qs place.toNat⟩
  · rintro ⟨op', hm, h⟩
    exact (applyOp_means hm).mpr h

/-- **Both sides leave the same list, or neither leaves one.** -/
theorem applyOps_means {items after : List α} {ops : List (PlaylistOp ρ)} {ops' : List (Op α)}
    (h : List.Forall₂ (Means resolve) ops ops') :
    applyOps resolve items ops = .ok after ↔ Playlist.applyOps items ops' = .ok after := by
  induction h generalizing items with
  | nil => simp [applyOps, Playlist.applyOps]
  | @cons op op' ops ops' hm _ ih =>
    rw [applyOps, Playlist.applyOps]
    by_cases hr : op'.Refused items.length
    · obtain ⟨e, he⟩ := applyOp_of_refused hr
      rw [he]
      cases ha : applyOp items resolve op with
      | error e => exact iff_of_false (by intro he; cases he) (by intro he; cases he)
      | ok next => exact (((applyOp_means hm).mp ha).1 hr).elim
    · rw [applyOp_of_ok hr, (applyOp_means hm).mpr ⟨hr, rfl⟩]
      exact ih

end JewelCase.Playlist.Web
