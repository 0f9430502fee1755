import Mathlib.Algebra.GroupWithZero.Nat
import Mathlib.Data.List.Basic

/-!
# How often a host is asked

`crates/plugins/src/network/limits.rs`. Requests to a host wait in queues, each kept for one scope
of requests there. A request goes at the latest turn of the queues it waits in, and each then keeps
its own gap after it; a `429` or `503` pauses one scope. Times count a clock's ticks, and a random
draw and the reading of an HTTP date are parameters.
-/
namespace JewelCase.Network

set_option autoImplicit false

/-- How finely time is counted. -/
class Clock where
  /-- The ticks of a second. -/
  SECOND : Nat
  pos : 0 < SECOND

export Clock (SECOND)

@[reducible] def seconds : Clock := ⟨1, by decide⟩

/-- `Duration` counts nanoseconds. -/
@[reducible] def nanoseconds : Clock := ⟨1000000000, by decide⟩

/-- The longest a request waits for its turn before it is refused instead. -/
def MAX_WAIT [Clock] : Nat := 60 * SECOND

/-- The longest pause a service can ask for. -/
def MAX_PAUSE [Clock] : Nat := 60 * 60 * SECOND

/-- The most the first pause without a `Retry-After` can be. -/
def BASE_PAUSE [Clock] : Nat := SECOND

/-- Whose requests to a host wait together. -/
inductive Scope where
  | host
  | plugin (name : String)
  | user (plugin : String) (user : Int)
deriving DecidableEq, Repr

/-- One scope's requests to one host. -/
structure Queue where
  /-- The earliest the next request may go. -/
  next : Nat
  /-- The `429`s and `503`s in a row. -/
  throttled : Nat
deriving DecidableEq, Repr

/-- Holding nothing up and counting no pause. -/
def Queue.idle [Clock] (queue : Queue) (now : Nat) : Bool :=
  decide (queue.next ≤ now ∧ (queue.throttled = 0 ∨ queue.next + MAX_PAUSE ≤ now))

abbrev Key := String × Scope

/-- Every queue that is kept. -/
abbrev Queues := Key → Option Queue

def Queues.set (kept : Queues) (key : Key) (queue : Option Queue) : Queues :=
  fun other => if other = key then queue else kept other

/-- What is kept of a queue: nothing once it is idle. -/
def Queue.tidy [Clock] (now : Nat) (queue : Queue) : Option Queue :=
  if queue.idle now then none else some queue

/-! ### Turns -/

/-- What each queue that is kept lets a request go at, the latest of them and `now`. -/
def startOf (kept : Queues) (host : String) (queues : List (Scope × Nat)) (now : Nat) : Nat :=
  ((queues.filterMap fun queue => kept (host, queue.1)).map Queue.next).foldl max now

/-- A turn at `start` taken in one queue. `tidy` is what is kept of it. -/
def take (tidy : Nat → Queue → Option Queue) (host : String) (start now : Nat) (kept : Queues)
    (queue : Scope × Nat) : Queues :=
  let key : Key := (host, queue.1)
  let entry := (kept key).getD ⟨now, 0⟩
  -- From when it goes, so no queue thinks it went earlier than it did.
  kept.set key (tidy now { entry with next := start + queue.2 })

/-- When a request may go, with its turn taken in each of `queues`, or how long until it may if that
is more than `MAX_WAIT`. -/
def turn [Clock] (tidy : Nat → Queue → Option Queue) (kept : Queues) (host : String)
    (queues : List (Scope × Nat)) (now : Nat) : Except Nat Nat × Queues :=
  let start := startOf kept host queues now
  if now + MAX_WAIT < start then (.error (start - now), kept)
  else (.ok start, queues.foldl (take tidy host start now) kept)

/-! ### Pauses -/

/-- The reach of a pause without a `Retry-After`, which doubles with each in a row. -/
def reach [Clock] (throttled : Nat) : Nat := BASE_PAUSE * min (2 ^ throttled) (2 ^ 32 - 1)

/-- How long a `429` or `503` pauses. `draw` is a random part of a duration. -/
def pause [Clock] (asked : Option Nat) (throttled : Nat) (draw : Nat → Nat) : Nat :=
  min (asked.getD (draw (min (reach throttled) MAX_PAUSE))) MAX_PAUSE

def isWhitespace (c : Char) : Bool :=
  (9 ≤ c.toNat && c.toNat ≤ 13) || (0x2000 ≤ c.toNat && c.toNat ≤ 0x200a) ||
    [0x20, 0x85, 0xa0, 0x1680, 0x2028, 0x2029, 0x202f, 0x205f, 0x3000].contains c.toNat

/-- `str::trim` -/
def trim (text : List Char) : List Char :=
  ((text.dropWhile isWhitespace).reverse.dropWhile isWhitespace).reverse

/-- `str::parse::<u64>` -/
def parseU64 (text : List Char) : Option Nat :=
  let digits := if text.head? = some '+' then text.tail else text
  if digits.isEmpty || !digits.all fun c => decide ('0' ≤ c ∧ c ≤ '9') then none
  else
    let value := digits.foldl (fun value c => value * 10 + (c.toNat - 48)) 0
    if value < 2 ^ 64 then some value else none

/-- `Retry-After` as a wait: whole seconds, or a date. `clock` is the wall-clock time. -/
def parseRetryAfter [Clock] (parseHttpDate : List Char → Option Int) (value : List Char) (clock : Int) :
    Option Nat :=
  let value := trim value
  match parseU64 value with
  | some seconds => some (seconds * SECOND)
  | none => (parseHttpDate value).map fun time => (time - clock).toNat

/-- An answer to a request, with the random draw of the pause it may set. -/
structure Answer where
  host : String
  scope : Scope
  status : Nat
  retryAfter : Option (List Char)
  now : Nat
  clock : Int
  draw : Nat → Nat

def Answer.throttles (answer : Answer) : Bool := answer.status = 429 || answer.status = 503

variable [Clock] (parseHttpDate : List Char → Option Int)

/-- The pause an answer sets, after `throttled` others in a row. -/
def Answer.pause (answer : Answer) (throttled : Nat) : Nat :=
  Network.pause (answer.retryAfter.bind fun value =>
    parseRetryAfter parseHttpDate value answer.clock) throttled answer.draw

/-- What a host answered a request in a scope with. -/
def answered (tidy : Nat → Queue → Option Queue) (kept : Queues) (answer : Answer) : Queues :=
  let key : Key := (answer.host, answer.scope)
  if answer.throttles then
    let kept : Queues := fun other => (kept other).bind (tidy answer.now)
    let queue := (kept key).getD ⟨answer.now, 0⟩
    let resumes := answer.now + answer.pause parseHttpDate queue.throttled
    kept.set key (some ⟨max queue.next resumes, min (queue.throttled + 1) (2 ^ 32 - 1)⟩)
  else
    match kept key with
    | none => kept
    | some queue => kept.set key (tidy answer.now { queue with throttled := 0 })

/-! ### Runs -/

inductive Call where
  | turn (host : String) (queues : List (Scope × Nat)) (now : Nat)
  | answered (answer : Answer)

def Call.now : Call → Nat
  | .turn _ _ now => now
  | .answered answer => answer.now

/-- The queues after a call. -/
def step (tidy : Nat → Queue → Option Queue) (kept : Queues) : Call → Queues
  | .turn host queues now => (turn tidy kept host queues now).2
  | .answered answer => answered parseHttpDate tidy kept answer

def noQueues : Queues := fun _ => none

/-- The queues after calls from the start. -/
def after (tidy : Nat → Queue → Option Queue) (calls : List Call) : Queues :=
  calls.foldl (step parseHttpDate tidy) noQueues

end JewelCase.Network
