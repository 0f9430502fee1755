import Mathlib.Order.Lattice
import Mathlib.Data.List.Dedup

/-!
# The pool of background threads

`crates/scanner/src/pool.rs`: the pool's threads take the jobs that are due in turn. A pass is a
thread's from when it took the job until it is over, which may be never.
-/
namespace JewelCase.Scanner.Decode

set_option autoImplicit false

abbrev Instant := Nat

/-- One library's background job. -/
structure Job where
  library : Int
  /-- How long it waits after a pass that backed off or did nothing, or panicked. -/
  idle : Nat
deriving DecidableEq, Repr

structure RunReport where
  done : Nat
  failed : Nat
  skipped : Nat
  backedOff : Bool
deriving DecidableEq, Repr

/-- Whether the job should wait before its next pass. -/
def RunReport.idle (report : RunReport) : Bool := report.backedOff || report.done + report.failed = 0

/-- The jobs, the most passes of one library that run at once, and how many threads run them. -/
structure Schedule where
  jobs : List Job
  perLibrary : Nat
  threads : Nat
deriving DecidableEq, Repr

/-- Jobs of more than one library get a thread beyond `size`. -/
def Schedule.new (jobs : List Job) (size : Nat) : Schedule :=
  let libraries := (jobs.map Job.library).dedup.length
  ⟨jobs, size, if 1 < libraries then size + 1 else size⟩

/-- When each job, by its place, is next due, the place to look from for the next one, and how many
passes of each library's jobs are running. -/
structure Due where
  dueAt : Nat → Instant
  next : Nat
  running : Int → Nat

/-- What a thread that looks for a job finds. -/
inductive Found where
  | job (job : Nat)
  /-- None is due before some time has passed. -/
  | wait (time : Nat)
  | nothing
deriving DecidableEq, Repr

namespace Schedule

variable (schedule : Schedule)

def count : Nat := schedule.jobs.length

/-- The library of the job at a place. -/
def library (job : Nat) : Int := (schedule.jobs.getD job ⟨0, 0⟩).library

/-- Whether a job's library is running fewer than its share of passes. -/
def isOpen (due : Due) (job : Nat) : Bool :=
  decide (due.running (schedule.library job) < schedule.perLibrary)

/-- Whether a job is due and its library is open. -/
def ready (due : Due) (now : Instant) (job : Nat) : Bool :=
  decide (due.dueAt job ≤ now) && schedule.isOpen due job

/-- The places of the jobs, from the one after the job last taken. -/
def order (due : Due) : List Nat :=
  (List.range schedule.count).map fun i => (due.next + i) % schedule.count

/-- What `run_next` finds before it runs a pass. -/
def find (due : Due) (now : Instant) : Found :=
  match (schedule.order due).find? (schedule.ready due now) with
  | some job => .job job
  | none =>
    match (((List.range schedule.count).filter (schedule.isOpen due)).map due.dueAt).min? with
    | some soonest => .wait (soonest - now)
    | none => .nothing

/-- A job is taken. -/
def take (due : Due) (job : Nat) : Due :=
  { due with
    next := (job + 1) % schedule.count
    running := Function.update due.running (schedule.library job)
      (due.running (schedule.library job) + 1) }

/-- A pass is over, with `none` if it panicked. -/
def ended (due : Due) (job : Nat) (report : Option RunReport) (now : Instant) : Due :=
  let idlePass := match report with
    | some report => report.idle
    | none => true
  { due with
    running := Function.update due.running (schedule.library job)
      (due.running (schedule.library job) - 1)
    dueAt := if idlePass then
        Function.update due.dueAt job (now + (schedule.jobs.getD job ⟨0, 0⟩).idle)
      else due.dueAt }

end Schedule

/-- The pool: its schedule's times and counts, and the job that each thread runs a pass of. -/
structure Pool where
  due : Due
  pass : Nat → Option Nat

/-- All jobs due, and no thread running any. -/
def Pool.start (now : Instant) : Pool := ⟨⟨fun _ => now, 0, fun _ => 0⟩, fun _ => none⟩

inductive Event where
  /-- A thread calls `run_next`. -/
  | call (thread : Nat) (now : Instant)
  /-- The pass that a thread runs is over. -/
  | ended (thread : Nat) (report : Option RunReport) (now : Instant)
deriving DecidableEq, Repr

/-- Whether a thread is one of the pool's and runs no pass. -/
def Pool.free (pool : Pool) (schedule : Schedule) (thread : Nat) : Bool :=
  decide (thread < schedule.threads) && (pool.pass thread).isNone

/-- The job that an event has a thread take. -/
def Pool.takes (pool : Pool) (schedule : Schedule) : Event → Option Nat
  | .call thread now =>
    if pool.free schedule thread then
      match schedule.find pool.due now with
      | .job job => some job
      | .wait _ | .nothing => none
    else none
  | .ended .. => none

def Pool.step (pool : Pool) (schedule : Schedule) (event : Event) : Pool :=
  match event with
  | .call thread _ =>
    match pool.takes schedule event with
    | some job => ⟨schedule.take pool.due job, Function.update pool.pass thread (some job)⟩
    | none => pool
  | .ended thread report now =>
    match pool.pass thread with
    | some job => ⟨schedule.ended pool.due job report now, Function.update pool.pass thread none⟩
    | none => pool

def Pool.run (pool : Pool) (schedule : Schedule) (events : List Event) : Pool :=
  events.foldl (fun pool event => pool.step schedule event) pool

/-- The jobs taken over a run. -/
def Pool.taken (pool : Pool) (schedule : Schedule) : List Event → List Nat
  | [] => []
  | event :: rest => (pool.takes schedule event).toList ++ (pool.step schedule event).taken schedule rest

end JewelCase.Scanner.Decode
