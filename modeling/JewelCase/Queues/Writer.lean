import JewelCase.Queues.Keep

/-!
# One account's queues, its writer and what runs beside it

The database runs one job at a time on its writer: a start, restore, delete or save. A job's changes
of memory, its statements and its commit are steps of their own, since edits and what earlier jobs
left to do run between them. What a request does once its job has ended is left to do until it is
settled, in any order. A start changes memory in one step and writes nothing.
-/
namespace JewelCase.Queues

open JewelCase.Queue (Edit)
open JewelCase.Queue.QueueState (edited)

set_option autoImplicit false

/-! ### What requests have made of an account -/

/-- The queues of an account as its requests left them: the active one and the others. -/
structure Ledger where
  active : Option Queue
  rest : List Queue
deriving DecidableEq

/-- What happens to an account's queues. -/
inductive Change where
  | edited (queueId : Uuid) (version : UInt32) (edit : Edit)
  /-- A start or restore made `queue` active, with playback at `place`. -/
  | begun (queue : Queue) (place : Option Position)
  | deleted (queueId : Uuid)
  /-- A save that wrote the parked queue has let go of it. -/
  | saved (queueId : Uuid)
deriving DecidableEq

/-- The queue a change is an edit of. -/
def Change.edits : Change → Option Uuid
  | .edited queueId _ _ => some queueId
  | _ => none

namespace Ledger

def step (ledger : Ledger) : Change → Ledger
  | .edited queueId version edit =>
    { ledger with active := ledger.active.map fun queue =>
        if queue.queueId = queueId then { queue with version, state := edited queue.state edit }
        else queue }
  | .begun queue place =>
    ⟨some queue, ledger.rest.filter (·.queueId ≠ queue.queueId) ++
      (ledger.active.map (Account.placed · place)).toList⟩
  | .deleted queueId => { ledger with rest := ledger.rest.filter (·.queueId ≠ queueId) }
  | .saved _ => ledger

def ids (ledger : Ledger) : List Uuid := (ledger.active.toList ++ ledger.rest).map (·.queueId)

end Ledger

/-! ### The system -/

/-- A restore or delete, and what it found as its job began. -/
structure Request where
  queueId : Uuid
  before : Ledger
  /-- What the database held as the kept queue of this ID. -/
  kept : Option Queue
  /-- How many changes came before. -/
  since : Nat

/-- A job that has taken what it needs from memory. -/
inductive Task where
  | restore (request : Request) (restored : Restored) (place : Option Position)
  | delete (request : Request) (removed : Option Queue)
  | save (pending : Pending)

inductive Job where
  /-- A restore that has looked for its queue. -/
  | looked (request : Request) (stored : Option Queue)
  | taken (task : Task)
  /-- Its statements have run, and this is to be committed. -/
  | written (task : Task) (disk : Disk)

/-- What is left to do once a job has ended. -/
inductive Follow where
  | committed (saved : Saved)
  | putBack (request : Request) (undo : Undo)
  | pushBack (request : Request) (queue : Queue)
  /-- A failed save marks the account changed. -/
  | markChanged

/-- A restore or delete that has answered an error: what had happened since its job began, and what
is there now, with what other requests under way have taken out. -/
structure Failure where
  request : Request
  error : KeepError
  changes : List Change
  account : Option Account
  disk : Disk
  restoring : List Undo
  deleting : List Queue

structure Sys where
  account : Option Account
  disk : Disk
  job : Option Job
  follow : List Follow
  changes : List Change
  failures : List Failure

inductive Sys.Event where
  | edit (queueId editId : Uuid) (edit : Edit) (added : Option Added)
  | start (new : NewQueue) (place : Option Position)
  | look (queueId : Uuid)
  | take (place : Option Position)
  | delete (queueId : Uuid)
  | save
  | write (ok : Bool) (now : Int)
  | commit (ok : Bool)
  | settle (i : Nat)
  /-- The server starts again. -/
  | restart

def Task.undo : Task → Option Undo
  | .restore _ restored _ => some restored.undo
  | _ => none

def Task.removed : Task → Option Queue
  | .delete _ removed => removed
  | _ => none

def Task.pending : Task → Option Pending
  | .restore _ restored _ => some restored.pending
  | .save pending => some pending
  | .delete _ _ => none

def Task.request : Task → Option Request
  | .restore request _ _ => some request
  | .delete request _ => some request
  | .save _ => none

/-- The statements of a job. -/
def Task.write (task : Task) (disk : Disk) (now : Int) : Except KeepError Disk :=
  match task with
  | .restore _ restored _ => .ok (disk.writeStatements restored.pending now)
  | .delete request removed => deleteStatements disk request.queueId removed.isSome
  | .save pending => .ok (disk.writeStatements pending now)

def Job.task : Job → Option Task
  | .looked _ _ => none
  | .taken task => some task
  | .written task _ => some task

def Job.request : Job → Option Request
  | .looked request _ => some request
  | .taken task => task.request
  | .written task _ => task.request

/-- The restore whose statements are to run. -/
def Job.restore : Job → Option Request
  | .taken (.restore request _ _) => some request
  | _ => none

def Follow.undo : Follow → Option Undo
  | .putBack _ undo => some undo
  | _ => none

def Follow.removed : Follow → Option Queue
  | .pushBack _ queue => some queue
  | _ => none

def Follow.request : Follow → Option Request
  | .putBack request _ => some request
  | .pushBack request _ => some request
  | _ => none

namespace Sys

def task (s : Sys) : Option Task := s.job.bind Job.task

def parked (s : Sys) : List Queue := s.account.elim [] (·.parked)

/-- Restores whose change of memory is neither saved nor put back. -/
def restoring (s : Sys) : List Undo :=
  (s.task.bind Task.undo).toList ++ s.follow.filterMap Follow.undo

/-- Parked queues taken by deletes that have not ended. -/
def deleting (s : Sys) : List Queue :=
  (s.task.bind Task.removed).toList ++ s.follow.filterMap Follow.removed

/-- The restores and deletes under way. -/
def requests (s : Sys) : List Request :=
  (s.job.bind Job.request).toList ++ s.follow.filterMap Follow.request

/-- What a restore or delete finds as its job begins. -/
def request (s : Sys) (queueId : Uuid) : Request :=
  ⟨queueId, ⟨s.account.map Account.active, s.parked ++ s.deleting⟩, s.disk.readKept queueId,
    s.changes.length⟩

def failure (s : Sys) (request : Request) (error : KeepError) : Failure :=
  ⟨request, error, s.changes.drop request.since, s.account, s.disk, s.restoring, s.deleting⟩

/-- No edit was made to the request's queue since its job began. -/
def Unedited (s : Sys) (request : Request) : Prop :=
  ∀ change ∈ s.changes.drop request.since, change.edits ≠ some request.queueId

/-- Answers an error. -/
def fail (s : Sys) (request : Request) (error : KeepError) : Sys :=
  { s with failures := s.failures ++ [s.failure request error] }

def marked (account : Option Account) : Option Account :=
  account.map fun account => { account with changed := true }

/-- Ends a job whose statements failed, on the writer. -/
def abandon (s : Sys) (task : Task) (error : KeepError) : Sys :=
  match task with
  | .restore request restored _ =>
    { s with job := none, account := putBack s.account restored.undo }.fail request error
  | .delete request (some queue) =>
    { s with job := none, account := marked (pushBack s.account queue) }.fail request error
  | .delete request none => { s with job := none }.fail request error
  | .save _ => { s with job := none, account := marked s.account }

/-- Ends a job whose commit failed. -/
def rollBack (s : Sys) (task : Task) : Sys :=
  match task with
  | .restore request restored _ =>
    { s with job := none, follow := s.follow ++ [.putBack request restored.undo] }
  | .delete request (some queue) =>
    { s with job := none, follow := s.follow ++ [.pushBack request queue] }
  | .delete request none => { s with job := none }.fail request .db
  | .save _ => { s with job := none, follow := s.follow ++ [.markChanged] }

/-- Ends a job that committed. -/
def finish (s : Sys) (task : Task) (disk : Disk) : Sys :=
  match task with
  | .restore _ restored place =>
    { s with
      disk
      job := none
      follow := s.follow ++ [.committed restored.pending.saved]
      changes := s.changes ++ (s.account.map fun account => .begun account.active place).toList }
  | .delete request _ =>
    { s with disk, job := none, changes := s.changes ++ [.deleted request.queueId] }
  | .save pending =>
    { s with disk, job := none, follow := s.follow ++ [.committed pending.saved] }

/-- Does what a job left to do. -/
def settle (s : Sys) : Follow → Sys
  | .committed saved =>
    { s with
      account := s.account.map (·.committed saved)
      changes := s.changes ++
        ((s.parked.filter (·.queueId ∈ saved.parked)).map fun queue => .saved queue.queueId) }
  | .putBack request undo => { s with account := putBack s.account undo }.fail request .db
  | .pushBack request queue => { s with account := pushBack s.account queue }.fail request .db
  | .markChanged => { s with account := marked s.account }

/-- The account as the server starts. -/
def load (disk : Disk) : Option Account :=
  ((disk.rows.find? (·.active)).bind Stored.queue).map fun queue =>
    { Account.fromQueue queue with changed := false }

def step (s : Sys) : Event → Sys
  | .edit queueId editId edit added =>
    let (_, account, announced) := apply s.account queueId editId edit added
    { s with
      account
      changes := s.changes ++ announced.map fun (version, edit) => .edited queueId version edit }
  | .start new place =>
    match s.job, (fresh new).bind fun fresh => startIn s.disk s.account fresh place with
    | none, .ok account =>
      { s with account := some account, changes := s.changes ++ [.begun account.active place] }
    | _, _ => s
  | .look queueId =>
    match s.job, Queues.look s.disk s.account queueId with
    | none, .ok stored => { s with job := some (.looked (s.request queueId) stored) }
    | none, .error error => s.fail (s.request queueId) error
    | some _, _ => s
  | .take place =>
    match s.job with
    | some (.looked request stored) =>
      match restoreTake s.account request.queueId stored place with
      | .ok (restored, account) =>
        { s with account := some account, job := some (.taken (.restore request restored place)) }
      | .error error => { s with job := none }.fail request error
    | _ => s
  | .delete queueId =>
    match s.job, deleteTake s.account queueId with
    | none, .ok (account, removed) =>
      { s with account, job := some (.taken (.delete (s.request queueId) removed)) }
    | none, .error error => s.fail (s.request queueId) error
    | some _, _ => s
  | .save =>
    match s.job, s.account.filter (·.changed) with
    | none, some account =>
      { s with account := some account.take.2, job := some (.taken (.save account.take.1)) }
    | _, _ => s
  | .write ok now =>
    match s.job with
    | some (.taken task) =>
      if ok then
        match task.write s.disk now with
        | .ok disk => { s with job := some (.written task disk) }
        | .error error => s.abandon task error
      else s.abandon task .db
    | _ => s
  | .commit ok =>
    match s.job with
    | some (.written task disk) => if ok then s.finish task disk else s.rollBack task
    | _ => s
  | .settle i =>
    match s.follow[i]? with
    | some follow => { s with follow := s.follow.eraseIdx i }.settle follow
    | none => s
  | .restart => { s with account := load s.disk, job := none, follow := [] }

/-- An account that has had no queue. -/
def new : Sys := ⟨none, .empty, none, [], [], []⟩

def run (events : List Event) : Sys := events.foldl step new

end Sys

end JewelCase.Queues
