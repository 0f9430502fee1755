import JewelCase.Queues.Edits
import JewelCase.Queues.Store

/-!
# Starting, restoring and deleting queues

`crates/server/src/queue/keep.rs`, for one account. Each runs as one job on the database's writer; a
function here is what one does between taking the lock and letting go of it, or the statements it
runs.
-/
namespace JewelCase.Queues

open JewelCase.Library (OrderedMap)
open JewelCase.Queue (QueueState Source QueueError)

set_option autoImplicit false

/-- Why a start, restore or delete did nothing. -/
inductive KeepError where
  /-- Start: a queue of the account already has this ID. -/
  | alreadyExists
  | notInList (error : QueueError)
  /-- Restore or delete: there is no such kept queue. -/
  | notFound
  /-- Restore or delete: the queue is the active one. -/
  | active
  | db
deriving DecidableEq, Repr

/-- A queue to start: one list, whose hash is given, to play from position `start`. -/
structure NewQueue where
  queueId : Uuid
  context : String
  key : String
  libraryId : Int
  tracks : List Nat
  hash : String
  start : Nat

/-- What a restore took out of memory, to put back if it fails: the queue it removed from the parked
ones, and the active queue it replaced. -/
structure Undo where
  target : Option Queue
  active : Option Queue
deriving DecidableEq

/-- What a restore has taken: its undo, where playback was left, and what it saves. -/
structure Restored where
  undo : Undo
  position : Option Position
  pending : Pending

/-- The account `new` starts, with its list held. -/
def fresh (new : NewQueue) : Except KeepError Account :=
  let source : Source := ⟨new.key, toString new.libraryId, some new.hash, new.tracks.length, none⟩
  match QueueState.default.start source new.start with
  | (.error error, _) => .error (.notInList error)
  | (.ok (), state) =>
    .ok { Account.new new.queueId new.context state with
      lists := OrderedMap.empty.insert new.hash ⟨new.libraryId, new.tracks⟩ }

/-- Makes `fresh`'s queue active, with the active queue's repeat mode. -/
def startIn (disk : Disk) (account : Option Account) (fresh : Account) (place : Option Position) :
    Except KeepError Account :=
  let stored := (disk.find fresh.queueId).isSome
  match account with
  | none => if stored then .error .alreadyExists else .ok fresh
  | some account =>
    if stored || account.names fresh.queueId then .error .alreadyExists
    else
      let state := { fresh.state with repeatMode := account.state.repeatMode }
      .ok ({ account with lists := account.lists.extend fresh.lists.entries }.parkFor
        ⟨fresh.queueId, 0, fresh.context, state, none⟩ place)

/-- A restore's first look, under the lock and then at the database: the kept queue it read, or none
if the queue is parked in memory. A database that cannot be read ends the restore there, with
nothing changed, and is left out. -/
def look (disk : Disk) (account : Option Account) (queueId : Uuid) :
    Except KeepError (Option Queue) :=
  if account.any (·.queueId = queueId) then .error .active
  else
    match account.bind fun account => account.parked.find? (·.queueId = queueId) with
    | some queue => if queue.state.adjusted then .ok none else .error .notFound
    | none =>
      match disk.readKept queueId with
      | some queue => .ok (some queue)
      | none => .error .notFound

/-- Takes the parked queue `queueId` out of memory. -/
def Account.unpark (account : Account) (queueId : Uuid) : Option (Queue × Account) :=
  (account.parked.find? (·.queueId = queueId)).map fun queue =>
    (queue, { account with parked := account.parked.eraseP (·.queueId = queueId) })

/-- Makes `target` active: the queue it replaces, and the account. -/
def makeActive (account : Option Account) (target : Queue) (place : Option Position) :
    Option Queue × Account :=
  match account with
  | some account => (some account.active, account.parkFor target place)
  | none => (none, .fromQueue target)

/-- A restore's change of memory, from the queue it read, or from the parked ones. -/
def restoreTake (account : Option Account) (queueId : Uuid) (stored : Option Queue)
    (place : Option Position) : Except KeepError (Restored × Account) :=
  let found := match stored with
    | some target => some (target, account)
    | none => (account.bind (·.unpark queueId)).map fun found => (found.1, some found.2)
  match found with
  | none => .error .notFound
  | some (target, account) =>
    let (active, account) := makeActive account target place
    let (pending, account) := account.take
    .ok (⟨⟨if stored.isNone then some target else none, active⟩, target.position, pending⟩, account)

/-- Puts memory back as it was before a restore. -/
def putBack (account : Option Account) (undo : Undo) : Option Account :=
  match undo.active with
  | some active =>
    account.map fun account =>
      let parked := account.parked.filter (·.queueId ≠ active.queueId)
      let (_, account) := { account with parked }.swap active
      { account with parked := account.parked ++ undo.target.toList, changed := true }
  | none => none

/-- A delete's change of memory: the account, and the parked queue it took. -/
def deleteTake (account : Option Account) (queueId : Uuid) :
    Except KeepError (Option Account × Option Queue) :=
  match account with
  | none => .ok (none, none)
  | some account =>
    if account.queueId = queueId then .error .active
    else
      match account.unpark queueId with
      | none => .ok (some account, none)
      | some (queue, rest) =>
        if queue.state.adjusted then .ok (some { rest with changed := true }, some queue)
        else .error .notFound

/-- The statements of a delete. -/
def deleteStatements (disk : Disk) (queueId : Uuid) (wasParked : Bool) : Except KeepError Disk :=
  if (disk.find queueId).isNone ∧ ¬wasParked then .error .notFound
  else .ok (disk.delete queueId).deleteUnusedLists

/-- Puts back the queue a delete took. -/
def pushBack (account : Option Account) (queue : Queue) : Option Account :=
  account.map fun account => { account with parked := account.parked ++ [queue] }

/-! ### What each does -/

namespace Account

/-- A queue unparked is one of the parked ones, and the rest stay. -/
theorem unpark_some {account rest : Account} {queueId : Uuid} {queue : Queue}
    (h : account.unpark queueId = some (queue, rest)) :
    queue.queueId = queueId ∧ account.parked.Perm (queue :: rest.parked) ∧
      rest.active = account.active := by
  rw [unpark, Option.map_eq_some_iff] at h
  obtain ⟨found, hfound, he⟩ := h
  rw [Prod.mk.injEq] at he
  obtain ⟨rfl, rfl⟩ := he
  refine ⟨by simpa using List.find?_some hfound, ?_, rfl⟩
  simp only
  generalize account.parked = parked at hfound
  induction parked with
  | nil => cases hfound
  | cons head tail ih =>
    by_cases hhead : head.queueId = queueId
    · rw [List.find?_cons_of_pos (by simpa using hhead), Option.some.injEq] at hfound
      rw [List.eraseP_cons_of_pos (by simpa using hhead), hfound]
    · rw [List.find?_cons_of_neg (by simpa using hhead)] at hfound
      rw [List.eraseP_cons_of_neg (by simpa using hhead)]
      exact ((ih hfound).cons head).trans (.swap found head _)

theorem unpark_none {account : Account} {queueId : Uuid} (h : account.unpark queueId = none) :
    ∀ queue ∈ account.parked, queue.queueId ≠ queueId := by
  rw [unpark, Option.map_eq_none_iff, List.find?_eq_none] at h
  intro queue hq
  simpa using h queue hq

theorem names_false {account : Account} {queueId : Uuid} (h : account.names queueId = false) :
    account.queueId ≠ queueId ∧ ∀ queue ∈ account.parked, queue.queueId ≠ queueId := by
  rw [names, Bool.or_eq_false_iff] at h
  refine ⟨by simpa using h.1, fun queue hq => ?_⟩
  simpa using List.any_eq_false.mp h.2 queue hq

end Account

theorem fresh_ok {new : NewQueue} {account : Account} (h : fresh new = .ok account) :
    account.queueId = new.queueId ∧ account.parked = [] ∧ account.state.Valid := by
  rw [fresh] at h
  simp only at h
  generalize hsource : Source.mk new.key (toString new.libraryId) (some new.hash) new.tracks.length
    none = source at h
  have hvalid := (QueueState.default_valid.start source new.start)
  cases hstart : QueueState.default.start source new.start with
  | mk answer state =>
    rw [hstart] at h hvalid
    cases answer with
    | error error => cases h
    | ok answer =>
      cases h
      exact ⟨rfl, rfl, hvalid⟩

/-- A start that succeeds names no queue of the account. Its queue is active, and the one it
replaced is parked. -/
theorem startIn_ok {disk : Disk} {account : Option Account} {fresh after : Account}
    {place : Option Position} (h : startIn disk account fresh place = .ok after) :
    (account = none ∧ after = fresh) ∨
    ∃ a, account = some a ∧ a.names fresh.queueId = false ∧ after.queueId = fresh.queueId ∧
      after.state = { fresh.state with repeatMode := a.state.repeatMode } ∧
      after.parked = a.parked ++ [Account.placed a.active place] := by
  unfold startIn at h
  cases account with
  | none =>
    simp only at h
    split at h
    · cases h
    · cases h
      exact Or.inl ⟨rfl, rfl⟩
  | some a =>
    simp only at h
    split at h
    · cases h
    · rename_i hnew
      cases h
      rw [Bool.not_eq_true, Bool.or_eq_false_iff] at hnew
      exact Or.inr ⟨a, rfl, hnew.2, rfl, rfl, rfl⟩

/-- A queue that a look finds is not active. One it reads is in memory under no ID. -/
theorem look_ok {disk : Disk} {account : Option Account} {queueId : Uuid} {stored : Option Queue}
    (h : look disk account queueId = .ok stored) :
    (∀ a ∈ account, a.queueId ≠ queueId) ∧
    ∀ queue ∈ stored, disk.readKept queueId = some queue ∧
      ∀ a ∈ account, ∀ parked ∈ a.parked, parked.queueId ≠ queueId := by
  rw [look] at h
  split_ifs at h with hactive
  have hother : ∀ a ∈ account, a.queueId ≠ queueId := by
    intro a ha heq
    rw [Option.mem_def] at ha
    simp [ha, heq] at hactive
  refine ⟨hother, ?_⟩
  cases hfind : account.bind fun account => account.parked.find? (·.queueId = queueId) with
  | some queue =>
    simp only [hfind] at h
    split_ifs at h
    cases h
    intro queue hq
    cases hq
  | none =>
    simp only [hfind] at h
    cases hkept : disk.readKept queueId with
    | none =>
      rw [hkept] at h
      cases h
    | some queue =>
      rw [hkept] at h
      cases h
      intro queue' hq
      cases hq
      refine ⟨rfl, fun a ha parked hp => ?_⟩
      rw [Option.mem_def] at ha
      rw [ha, Option.bind_some, List.find?_eq_none] at hfind
      simpa using hfind parked hp

/-- What a restore takes: its target, from the database or from the parked queues, is active, the
queue it replaced is parked, and both are to be saved. -/
theorem restoreTake_ok {account : Option Account} {queueId : Uuid} {stored : Option Queue}
    {place : Option Position} {restored : Restored} {after : Account}
    (h : restoreTake account queueId stored place = .ok (restored, after)) :
    ∃ target, ∃ before : Option Account,
      ((stored = some target ∧ before = account ∧ restored.undo.target = none) ∨
        ∃ a rest, stored = none ∧ account = some a ∧ a.unpark queueId = some (target, rest) ∧
          before = some rest ∧ restored.undo.target = some target) ∧
      after.active = target ∧ restored.undo.active = before.map Account.active ∧
      after.parked = before.elim [] (fun a => a.parked ++ [Account.placed a.active place]) ∧
      restored.pending.active = target ∧ restored.pending.parked = after.parked := by
  have hend : ∀ (target : Queue) (before : Option Account),
      ((makeActive before target place).2.take.2.active = target ∧
        (makeActive before target place).1 = before.map Account.active ∧
        (makeActive before target place).2.take.2.parked =
          before.elim [] (fun a => a.parked ++ [Account.placed a.active place]) ∧
        (makeActive before target place).2.take.1.active = target ∧
        (makeActive before target place).2.take.1.parked =
          (makeActive before target place).2.take.2.parked) := by
    intro target before
    cases before with
    | none => exact ⟨rfl, rfl, rfl, rfl, rfl⟩
    | some before => exact ⟨rfl, rfl, rfl, rfl, rfl⟩
  unfold restoreTake at h
  cases stored with
  | some target =>
    cases h
    exact ⟨target, account, Or.inl ⟨rfl, rfl, rfl⟩, hend target account⟩
  | none =>
    cases account with
    | none => cases h
    | some a =>
      cases hunpark : a.unpark queueId with
      | none =>
        simp only [Option.bind_some, hunpark, Option.map_none] at h
        cases h
      | some found =>
        obtain ⟨target, rest⟩ := found
        simp only [Option.bind_some, hunpark, Option.map_some] at h
        cases h
        exact ⟨target, some rest, Or.inr ⟨a, rest, rfl, rfl, hunpark, rfl, rfl⟩,
          hend target (some rest)⟩

/-- What a delete takes: nothing of a queue that is not in memory, else an adjusted parked queue. -/
theorem deleteTake_ok {account after : Option Account} {queueId : Uuid} {removed : Option Queue}
    (h : deleteTake account queueId = .ok (after, removed)) :
    (removed = none ∧ after = account ∧
      ∀ a ∈ account, a.queueId ≠ queueId ∧ ∀ queue ∈ a.parked, queue.queueId ≠ queueId) ∨
    ∃ a rest queue, account = some a ∧ a.queueId ≠ queueId ∧
      a.unpark queueId = some (queue, rest) ∧ after = some { rest with changed := true } ∧
      removed = some queue := by
  unfold deleteTake at h
  cases account with
  | none =>
    cases h
    exact Or.inl ⟨rfl, rfl, fun _ ha => by cases ha⟩
  | some a =>
    simp only at h
    split_ifs at h with hactive
    cases hunpark : a.unpark queueId with
    | none =>
      simp only [hunpark] at h
      cases h
      refine Or.inl ⟨rfl, rfl, fun b hb => ?_⟩
      cases hb
      exact ⟨hactive, Account.unpark_none hunpark⟩
    | some found =>
      obtain ⟨queue, rest⟩ := found
      simp only [hunpark] at h
      split_ifs at h
      cases h
      exact Or.inr ⟨a, rest, queue, rfl, hactive, hunpark, rfl, rfl⟩

/-- Memory put back: the active queue is the one replaced, which is no longer parked, and the
queue the restore took is. -/
theorem putBack_some (account : Account) {undo : Undo} {active : Queue}
    (h : undo.active = some active) :
    ∃ after, putBack (some account) undo = some after ∧ after.active = active ∧
      after.parked = account.parked.filter (·.queueId ≠ active.queueId) ++ undo.target.toList := by
  rw [putBack, h]
  exact ⟨_, rfl, rfl, rfl⟩

theorem putBack_none (account : Option Account) {undo : Undo} (h : undo.active = none) :
    putBack account undo = none := by
  rw [putBack, h]

end JewelCase.Queues
