import Mathlib.Data.List.Induction
import JewelCase.Library.OrderedMap
import JewelCase.Queue.Edit

/-!
# The queues a server holds

`crates/server/src/queue/store.rs`, for one account: its active queue, the queues parked and the
lists not yet saved, and the latest edits. A context is the JSON the device sent, as text. The item
of a position is the one its text names, if it names one.
-/
namespace JewelCase.Queues

open JewelCase.Library (OrderedMap)
open JewelCase.Queue (QueueState Source ItemId)

set_option autoImplicit false

abbrev Uuid := String

/-- A list waiting to be saved. -/
structure Held where
  libraryId : Int
  tracks : List Nat
deriving DecidableEq, Repr

/-- The lists an account holds, by hash. -/
abbrev HeldLists := OrderedMap String Held

/-- Where playback was when a queue was parked. -/
structure Position where
  item : Option ItemId
  positionMs : Nat
deriving DecidableEq, Repr

/-- An edit already applied, which its device may send again: the queue's version once it was, and
for an add the source. -/
structure Done where
  editId : Uuid
  version : UInt32
  source : Option Source
deriving DecidableEq, Repr

/-- A queue as memory holds it. -/
structure Queue where
  queueId : Uuid
  version : UInt32
  context : String
  state : QueueState
  position : Option Position
deriving DecidableEq

/-- One account's active queue and what the server needs to know about it. -/
structure Account where
  queueId : Uuid
  version : UInt32
  context : String
  state : QueueState
  /-- Lists the database may not hold yet. -/
  lists : HeldLists
  position : Option Position
  /-- Queues replaced by a start or restore and not yet saved. -/
  parked : List Queue
  /-- The latest edits applied, oldest first. -/
  done : List Done
  /-- Whether anything changed since the state was last taken to be saved. -/
  changed : Bool

/-- Whether an item is one of the queue's: playing, in the Manual Queue, or in the context, passed
rows included. -/
def holdsItem (q : QueueState) (item : ItemId) : Bool :=
  q.current = some item || (q.manual.find item.view item.pos).isSome || (q.orderRowOf item).isSome

namespace Account

/-- An account whose active queue is `state`, changed. -/
def new (queueId : Uuid) (context : String) (state : QueueState) : Account :=
  { queueId, version := 0, context, state, lists := .empty, position := none, parked := [],
    done := [], changed := true }

/-- An account whose active queue is `queue`, changed. -/
def fromQueue (queue : Queue) : Account :=
  { new queue.queueId queue.context queue.state with
    version := queue.version, position := queue.position }

/-- A copy of the active queue. -/
def active (account : Account) : Queue :=
  ⟨account.queueId, account.version, account.context, account.state, account.position⟩

/-- Puts `queue` in place of the active queue, and answers the one replaced too. -/
def swap (account : Account) (queue : Queue) : Queue × Account :=
  (account.active, { account with
    queueId := queue.queueId
    version := queue.version
    context := queue.context
    state := queue.state
    position := queue.position })

/-- The queue as it is parked with playback at `place`, which it keeps if that names one of its
items. -/
def placed (queue : Queue) (place : Option Position) : Queue :=
  match place.filter fun position => position.item.any (holdsItem queue.state) with
  | some position => { queue with position := some position }
  | none => queue

/-- Makes `next` the active queue and parks the one it replaces. -/
def parkFor (account : Account) (next : Queue) (place : Option Position) : Account :=
  let (old, account) := account.swap next
  { account with parked := account.parked ++ [placed old place], changed := true }

/-- Whether `id` names the active queue or one parked and not yet saved. -/
def names (account : Account) (id : Uuid) : Bool :=
  account.queueId = id || account.parked.any (·.queueId = id)

/-- A queue is placed without a change of anything but its position. -/
theorem placed_same (queue : Queue) (place : Option Position) :
    (placed queue place).queueId = queue.queueId ∧ (placed queue place).version = queue.version ∧
      (placed queue place).context = queue.context ∧ (placed queue place).state = queue.state := by
  unfold placed
  split <;> exact ⟨rfl, rfl, rfl, rfl⟩

end Account

end JewelCase.Queues

/-!
## Saving the queues of an account

`crates/server/src/queue/save.rs`, for one account. A row's context and state are read from their
JSON, if they can be; serializing a state never fails. A row also has the lists it uses, which the
database holds in a table of their own.
-/
namespace JewelCase.Queues

open JewelCase.Library (OrderedMap)
open JewelCase.Queue (QueueState)

set_option autoImplicit false

/-- `QueueState::list_hashes`: the hashes of the lists the sources reference, each once. -/
def listHashes (q : QueueState) : List String := (q.sources.filterMap (·.hash)).eraseDups

/-- A row of `queues`. -/
structure Stored where
  queueId : Uuid
  version : UInt32
  /-- The context and the state, if they can be read. -/
  content : Option (String × QueueState)
  active : Bool
  lastActive : Option Int
  position : Option Position
  uses : List String
deriving DecidableEq

/-- An account's rows, one a queue, and its stored lists. -/
structure Disk where
  rows : List Stored
  lists : HeldLists

/-- What one account's save took from memory. -/
structure Pending where
  active : Queue
  /-- The queues parked since the last save, oldest first: kept if adjusted, else deleted. -/
  parked : List Queue
  lists : List (String × Held)

/-- What a write saved: the held lists it stored and the parked queues it wrote. -/
structure Saved where
  stored : List String
  parked : List Uuid
deriving DecidableEq, Repr

/-- Copies what a save needs, and counts the account as taken. -/
def Account.take (account : Account) : Pending × Account :=
  let states := (account.parked.filter (·.state.adjusted)).map (·.state) ++ [account.state]
  let lists := (states.flatMap listHashes).eraseDups.filterMap fun hash =>
    (account.lists.get hash).map (hash, ·)
  (⟨account.active, account.parked, lists⟩, { account with changed := false })

/-- Settles memory after a commit that wrote `saved`. -/
def Account.committed (account : Account) (saved : Saved) : Account :=
  let parked := account.parked.filter fun queue => queue.queueId ∉ saved.parked
  let referenced := ((parked.map (·.state)) ++ [account.state]).flatMap listHashes
  let lists := account.lists.filter fun hash _ =>
    account.changed && hash ∈ referenced && hash ∉ saved.stored
  { account with parked, lists }

def Pending.saved (pending : Pending) : Saved :=
  ⟨pending.lists.map Prod.fst, pending.parked.map (·.queueId)⟩

/-- The queue of a row, if it can be read. -/
def Stored.queue (row : Stored) : Option Queue :=
  row.content.map fun content => ⟨row.queueId, row.version, content.1, content.2, row.position⟩

namespace Disk

def empty : Disk := ⟨[], .empty⟩

/-- The row of a queue. -/
def find (disk : Disk) (id : Uuid) : Option Stored := disk.rows.find? fun row => row.queueId = id

/-- The kept queue `id`, if it is stored as one and can be read. -/
def readKept (disk : Disk) (id : Uuid) : Option Queue :=
  ((disk.find id).filter fun row => ¬row.active).bind Stored.queue

/-- Writes a row in place of the one its queue has, if it has one. -/
def put (disk : Disk) (row : Stored) : Disk :=
  { disk with rows := disk.rows.filter (·.queueId ≠ row.queueId) ++ [row] }

def delete (disk : Disk) (id : Uuid) : Disk :=
  { disk with rows := disk.rows.filter (·.queueId ≠ id) }

/-- Deletes the lists that no queue uses. -/
def deleteUnusedLists (disk : Disk) : Disk :=
  { disk with lists := disk.lists.filter fun hash _ => disk.rows.any (hash ∈ ·.uses) }

/-- Writes `queue` as a kept queue, parked now with its position. -/
def writeParked (disk : Disk) (now : Int) (queue : Queue) : Disk :=
  disk.put ⟨queue.queueId, queue.version, some (queue.context, queue.state), false, some now,
    queue.position, listHashes queue.state⟩

/-- Writes `queue` as the account's active queue and parks any other. Its row keeps the position it
has. -/
def writeQueue (disk : Disk) (now : Int) (queue : Queue) : Disk :=
  let rows := disk.rows.map fun row =>
    if row.active ∧ row.queueId ≠ queue.queueId then
      { row with active := false, lastActive := some now }
    else row
  { disk with rows }.put ⟨queue.queueId, queue.version, some (queue.context, queue.state), true,
    none, (disk.find queue.queueId).bind (·.position), listHashes queue.state⟩

/-- Keeps a parked queue, or deletes it if it was not adjusted. -/
def park (disk : Disk) (now : Int) (queue : Queue) : Disk :=
  if queue.state.adjusted then disk.writeParked now queue else disk.delete queue.queueId

/-- Stores a list the database may hold already. -/
def insertList (disk : Disk) (list : String × Held) : Disk :=
  if (disk.lists.get list.1).isSome then disk
  else { disk with lists := disk.lists.insert list.1 list.2 }

/-- The statements of one account's save. -/
def writeStatements (disk : Disk) (pending : Pending) (now : Int) : Disk :=
  let disk := pending.parked.foldl (fun disk queue => disk.park now queue) disk
  let disk := pending.lists.foldl insertList disk
  (disk.writeQueue now pending.active).deleteUnusedLists

/-! ### What a write leaves of each row -/

@[simp] theorem find_put (disk : Disk) (row : Stored) (id : Uuid) :
    (disk.put row).find id = if row.queueId = id then some row else disk.find id := by
  rw [find, put, List.find?_append]
  by_cases h : row.queueId = id
  · subst h
    have hnone : (disk.rows.filter (·.queueId ≠ row.queueId)).find? (·.queueId = row.queueId) = none := by
      rw [List.find?_eq_none]
      intro other ho
      simpa using (List.mem_filter.mp ho).2
    rw [hnone]
    simp
  · have hsame : (disk.rows.filter (·.queueId ≠ row.queueId)).find? (·.queueId = id) = disk.find id := by
      rw [List.find?_filter, find]
      congr 1
      funext other
      by_cases ho : other.queueId = id
      · simp [ho, Ne.symm h]
      · simp [ho]
    rw [hsame]
    simp [h]

@[simp] theorem find_delete (disk : Disk) (id other : Uuid) :
    (disk.delete id).find other = if id = other then none else disk.find other := by
  rw [find, delete, List.find?_filter]
  by_cases h : id = other
  · subst h
    simp
  · rw [if_neg h, find]
    congr 1
    funext row
    by_cases ho : row.queueId = other
    · simp [ho, Ne.symm h]
    · simp [ho]

@[simp] theorem readKept_deleteUnusedLists (disk : Disk) (id : Uuid) :
    disk.deleteUnusedLists.readKept id = disk.readKept id := rfl

theorem readKept_of_find {disk disk' : Disk} {id : Uuid} (h : disk'.find id = disk.find id) :
    disk'.readKept id = disk.readKept id := by
  rw [readKept, h, readKept]

/-- A queue read as kept has the ID asked for. -/
theorem readKept_id {disk : Disk} {id : Uuid} {queue : Queue} (h : disk.readKept id = some queue) :
    queue.queueId = id := by
  rw [readKept, Option.bind_eq_some_iff] at h
  obtain ⟨row, hrow, hqueue⟩ := h
  have hid : row.queueId = id := by
    simpa using List.find?_some (Option.filter_eq_some_iff.mp hrow).1
  rw [Stored.queue, Option.map_eq_some_iff] at hqueue
  obtain ⟨content, -, rfl⟩ := hqueue
  exact hid

/-- A queue written as kept is read back as it is. -/
theorem readKept_writeParked (disk : Disk) (now : Int) (queue : Queue) :
    (disk.writeParked now queue).readKept queue.queueId = some queue := by
  rw [readKept, writeParked, find_put, if_pos rfl]
  rfl

/-- Parking one queue leaves every other row. -/
theorem find_park {disk : Disk} {now : Int} {queue : Queue} {id : Uuid} (h : queue.queueId ≠ id) :
    (disk.park now queue).find id = disk.find id := by
  unfold park
  split
  · rw [writeParked, find_put, if_neg h]
  · rw [find_delete, if_neg h]

/-- The rows of queues a save does not park stay. -/
theorem find_parked {disk : Disk} {now : Int} {parked : List Queue} {id : Uuid}
    (h : ∀ queue ∈ parked, queue.queueId ≠ id) :
    (parked.foldl (fun disk queue => disk.park now queue) disk).find id = disk.find id := by
  induction parked generalizing disk with
  | nil => rfl
  | cons queue parked ih =>
    rw [List.foldl_cons, ih fun other ho => h other (List.mem_cons_of_mem _ ho),
      find_park (h queue List.mem_cons_self)]

/-- A save keeps an adjusted queue it parks as it is. -/
theorem readKept_parked {disk : Disk} {now : Int} {parked : List Queue} {queue : Queue}
    (hmem : queue ∈ parked) (hone : ∀ other ∈ parked, other.queueId = queue.queueId → other = queue)
    (hadjusted : queue.state.adjusted) :
    (parked.foldl (fun disk queue => disk.park now queue) disk).readKept queue.queueId =
      some queue := by
  induction parked using List.reverseRecOn generalizing disk with
  | nil => cases hmem
  | append_singleton parked last ih =>
    rw [List.foldl_append, List.foldl_cons, List.foldl_nil]
    by_cases hlast : last.queueId = queue.queueId
    · obtain rfl := hone last (by simp) hlast
      rw [park, if_pos hadjusted, readKept_writeParked]
    · rw [readKept_of_find (find_park hlast)]
      refine ih ?_ fun other ho => hone other (List.mem_append_left _ ho)
      obtain hmem | hmem := List.mem_append.mp hmem
      · exact hmem
      · rw [List.mem_singleton] at hmem
        exact absurd (congrArg Queue.queueId hmem).symm hlast

theorem find_insertLists (disk : Disk) (lists : List (String × Held)) (id : Uuid) :
    (lists.foldl insertList disk).find id = disk.find id := by
  induction lists generalizing disk with
  | nil => rfl
  | cons list lists ih =>
    rw [List.foldl_cons, ih]
    unfold insertList
    split <;> rfl

/-- Writing the active queue leaves every other queue the database holds as kept. -/
theorem readKept_writeQueue {disk : Disk} {now : Int} {active queue : Queue} {id : Uuid}
    (hid : active.queueId ≠ id) (h : disk.readKept id = some queue) :
    (disk.writeQueue now active).readKept id = some queue := by
  have hfind : (disk.writeQueue now active).find id =
      (disk.find id).map fun row => if row.active ∧ row.queueId ≠ active.queueId then
        { row with active := false, lastActive := some now } else row := by
    rw [writeQueue, find_put, if_neg hid, find, List.find?_map, find]
    congr 1
    congr 1
    funext row
    simp only [Function.comp_apply]
    split <;> rfl
  rw [readKept] at h ⊢
  rw [hfind]
  cases hrow : disk.find id with
  | none => simp [hrow] at h
  | some row =>
    rw [hrow] at h
    cases hactive : row.active with
    | true => simp [Option.filter_some, hactive] at h
    | false => simpa [Option.filter_some, hactive] using h

/-- **What a save leaves of a kept queue.** One it parks is kept as it is, and any other that is not
made active stays. -/
theorem readKept_writeStatements {disk : Disk} {pending : Pending} {now : Int} {queue : Queue}
    (hactive : pending.active.queueId ≠ queue.queueId)
    (hone : ∀ other ∈ pending.parked, other.queueId = queue.queueId → other = queue)
    (hadjusted : queue.state.adjusted)
    (h : queue ∈ pending.parked ∨ disk.readKept queue.queueId = some queue) :
    (disk.writeStatements pending now).readKept queue.queueId = some queue := by
  rw [writeStatements, readKept_deleteUnusedLists]
  refine readKept_writeQueue hactive ?_
  rw [readKept_of_find (find_insertLists _ _ _)]
  by_cases hmem : queue ∈ pending.parked
  · exact readKept_parked hmem hone hadjusted
  · have hother : ∀ other ∈ pending.parked, other.queueId ≠ queue.queueId :=
      fun other ho heq => hmem (hone other ho heq ▸ ho)
    rw [readKept_of_find (find_parked hother)]
    exact h.resolve_left hmem

end Disk

end JewelCase.Queues
