import JewelCase.Library.Timers
import Mathlib.Data.Rat.Init

/-!
# The realtime client

`Realtime` of `web/src/lib/realtime.svelte.ts`, with what it leaves in the browser: the timers that
are pending and the sockets whose handlers are attached. Anything pending may happen at any time.
-/
namespace JewelCase.Realtime

set_option autoImplicit false

open Library (Timers)

/-- How long a ping may go unanswered before the connection counts as dead. -/
def ANSWER_WITHIN_MS : Int := 5000

/-- The timers, by the field that holds each: `#retry`, `#connectTimer`, `#offlineTimer` and
`#pinging`, of which the last is an interval. -/
inductive Timer where
  | retry
  | connect
  | offline
  | pinging
deriving DecidableEq, Repr

/-- A message of the server, with its time as `Date.parse` reads it, if it does. -/
inductive Message where
  | hello (serverTime : Option Int) (deviceId : String)
  | pong (serverTime : Option Int)
  | sessionRevoked
  | other
deriving DecidableEq, Repr

/-- What a listener may call of the client while a message reaches it. -/
inductive Call where
  | start
  | stop
  | send
deriving DecidableEq, Repr

/-- What is seen of the client, newest first. -/
inductive Seen where
  | started
  | hello
  | heard (socket : Nat)
  | signedOut
deriving DecidableEq, Repr

structure Client where
  connected : Bool
  offline : Bool
  deviceId : Option String
  clockOffset : Rat
  socket : Option Nat
  running : Bool
  wasConnected : Bool
  failures : Nat
  heardAt : Int
  pingedAt : Int
  /-- The timer that each field names, and those pending in the browser. -/
  timers : Timers Timer
  /-- The sockets with handlers attached. -/
  listening : List Nat
  nextSocket : Nat
  /-- Whether `online` and `visibilitychange` reach the client. -/
  windowListens : Bool
  /-- How many times `signedIn` was asked and has not answered. -/
  checks : Nat
  seen : List Seen

namespace Client

/-- A client just made. -/
def new : Client where
  connected := false
  offline := false
  deviceId := none
  clockOffset := 0
  socket := none
  running := false
  wasConnected := false
  failures := 0
  heardAt := 0
  pingedAt := 0
  timers := .none
  listening := []
  nextSocket := 0
  windowListens := false
  checks := 0
  seen := []

/-! ### Timers -/

/-- `clearTimeout` or `clearInterval` of the timer that a field names. -/
def clear (c : Client) (which : Timer) : Client := { c with timers := c.timers.clear which }

/-- `setTimeout` or `setInterval`, held by a field. -/
def set (c : Client) (which : Timer) : Client := { c with timers := c.timers.set which }

/-- Sets a field to `undefined`. -/
def forget (c : Client) (which : Timer) : Client := { c with timers := c.timers.forget which }

def note (c : Client) (what : Seen) : Client := { c with seen := what :: c.seen }

/-! ### The client -/

/-- `#open` -/
def openSocket (c : Client) : Client :=
  { c with
    socket := some c.nextSocket
    listening := c.nextSocket :: c.listening
    nextSocket := c.nextSocket + 1 }.set .connect

/-- Lets go of the socket, without waiting for one that may be dead to say it closed. -/
def drop (c : Client) : Client :=
  let c := (c.clear .pinging).clear .connect
  { c with
    pingedAt := 0
    heardAt := 0
    socket := none
    connected := false
    listening := c.listening.filter fun socket => some socket ≠ c.socket }

def start (c : Client) : Client :=
  if c.running then c
  else ({ c with running := true, windowListens := true }.note .started).openSocket

def stop (c : Client) : Client :=
  let c := ({ c with running := false, windowListens := false }.clear .retry).drop
  let c := (c.clear .offline).forget .offline
  { c with offline := false, wasConnected := false, failures := 0 }

def signOut (c : Client) : Client := c.stop.note .signedOut

/-- The connection is gone: tries again, and says so if it stays gone. -/
def lost (c : Client) : Client :=
  let refused := !c.connected
  let c := c.drop
  if !c.running then c
  else
    let c := if c.wasConnected && (c.timers.field .offline).isNone then c.set .offline else c
    let c := if refused then { c with checks := c.checks + 1 } else c
    ({ c with failures := c.failures + 1 }.clear .retry).set .retry

/-- Gives the connection up if the last ping went unanswered, and pings again. -/
def check (c : Client) (now : Int) : Client :=
  if c.pingedAt > c.heardAt then
    if now - c.pingedAt > ANSWER_WITHIN_MS then c.lost else c
  else { c with pingedAt := now }

def setClock (c : Client) (offset : Option Rat) : Client :=
  { c with clockOffset := offset.getD c.clockOffset }

/-- A call of a listener's. A message sent changes nothing here. -/
def call (c : Client) : Call → Client
  | .start => c.start
  | .stop => c.stop
  | .send => c

/-- The message reaches a listener, which makes its calls. -/
def hear (c : Client) (socket : Nat) (calls : List Call) : Client :=
  calls.foldl call (c.note (.heard socket))

/-- What a hello changes. -/
def greet (c : Client) (serverTime : Option Int) (deviceId : String) (now : Int) : Client :=
  let c := c.setClock (serverTime.map fun time => (time - now : Int))
  let c := { c with deviceId := some deviceId, connected := true, wasConnected := true, failures := 0 }
  let c := ((c.clear .connect).clear .offline).forget .offline
  ((({ c with offline := false }).clear .pinging).set .pinging).note .hello

/-- `#receive`, where each listener in turn makes the calls that `heard` lists for it. -/
def receive (c : Client) (socket : Nat) (message : Message) (heard : List (List Call))
    (now : Int) : Client :=
  let c := { c with heardAt := now }
  let tell (c : Client) := heard.foldl (fun c calls => c.hear socket calls) c
  match message with
  | .hello serverTime deviceId => tell (c.greet serverTime deviceId now)
  | .pong serverTime =>
    tell (c.setClock (serverTime.map fun time => (time : Rat) - ((c.pingedAt + now : Int) : Rat) / 2))
  | .sessionRevoked => c.signOut
  | .other => tell c

/-- Back online, or back in view. -/
def reconnectNow (c : Client) (hidden : Bool) (now : Int) : Client :=
  if !c.running || hidden then c
  else if c.connected then c.check now
  else if c.socket.isSome then c
  else { (c.clear .retry) with failures := 0 }.openSocket

/-- What a timer does once it fires. -/
def fired (c : Client) (now : Int) : Timer → Client
  | .retry => c.openSocket
  | .connect => c.lost
  | .offline =>
    let c := c.forget .offline
    if !c.connected then { c with offline := true } else c
  | .pinging => c.check now

/-! ### What may happen -/

/-- `message` is `none` where the data is no JSON or not an object. -/
inductive Event where
  | start
  | stop
  | message (socket : Nat) (message : Option Message) (heard : List (List Call)) (now : Int)
  | close (socket : Nat)
  | fire (timer : Nat × Timer) (now : Int)
  | window (hidden : Bool) (now : Int)
  | answer (signedIn : Bool)
deriving Repr

/-- What an event does. A socket whose handlers were taken off, a timer that is not pending and a
window the client does not listen to do nothing. -/
def step (c : Client) : Event → Client
  | .start => c.start
  | .stop => c.stop
  | .message socket message heard now =>
    match message with
    | none => c
    | some message => if socket ∈ c.listening then c.receive socket message heard now else c
  | .close socket =>
    if socket ∈ c.listening ∧ c.socket = some socket then c.lost else c
  | .fire timer now =>
    if timer ∈ c.timers.pending then
      -- An interval stays pending.
      let c := if timer.2 = .pinging then c else { c with timers := c.timers.take timer }
      c.fired now timer.2
    else c
  | .window hidden now => if c.windowListens then c.reconnectNow hidden now else c
  | .answer signedIn =>
    if 0 < c.checks then
      let c := { c with checks := c.checks - 1 }
      if !signedIn && c.running then c.signOut else c
    else c

def run (c : Client) (events : List Event) : Client := events.foldl step c

end Client

end JewelCase.Realtime
