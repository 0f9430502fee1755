import Mathlib.Data.List.Basic
import Mathlib.Data.List.Sort
import JewelCase.Player.State

/-!
# The connections of an account

`crates/server/src/api/realtime/hub.rs` for one account. A connection is closed by letting go of its
outbox: what is queued is still sent.
-/
namespace JewelCase.Player

set_option autoImplicit false

/-- The spec's `PlayerCommand`. -/
inductive Action where
  | play
  | pause
  | next
  | previous
  | seek (positionMs : U32)
  | setVolume (volume : Rat)
  | transfer (play : Bool)
deriving DecidableEq

structure PlayerCommand where
  commandId : String
  /-- The device named, or `some none` where that is no ID of one. -/
  deviceId : Option (Option Int)
  action : Action
deriving DecidableEq

inductive Outcome where
  | pending
  | applied
  | failed
deriving DecidableEq, Repr

/-- The spec's `CommandResult`. -/
structure CommandResult where
  commandId : String
  status : Outcome
  reason : Option String
deriving DecidableEq, Repr

inductive ServerMessage where
  | player (state : PlayerState)
  | execute (command : PlayerCommand)
  | commandResult (result : CommandResult)
  | sessionRevoked (reason : String)
  /-- Any other: of devices, playlists and queues. -/
  | other (text : String)
deriving DecidableEq

/-- How many messages a connection may have waiting to be sent. -/
def OUTBOX : Nat := 64

/-- Where the `serve` of a connection is. -/
inductive Phase where
  /-- Counted, and its account's state not queued yet. -/
  | joining
  | serving
  /-- Checking a report. -/
  | checking (report : ProgressReport)
  /-- About to apply one. -/
  | reporting (report : ProgressReport)
  /-- About to answer one it refused. -/
  | refusing
  | commanding (command : PlayerCommand)
  | answering (result : CommandResult)
  /-- No longer counted. -/
  | left
  /-- Its end was handled. -/
  | handled
deriving DecidableEq

structure Connection where
  id : Nat
  device : Int
  /-- Whether the hub still counts it. -/
  opened : Bool
  /-- Messages waiting to be sent. -/
  outbox : List ServerMessage
  /-- What its client was sent of them. -/
  sent : List ServerMessage
  phase : Phase
deriving DecidableEq

/-- Everything the hub had for a connection. -/
def Connection.had (connection : Connection) : List ServerMessage := connection.sent ++ connection.outbox

/-- The state a message carries. -/
def ServerMessage.playerState : ServerMessage → Option PlayerState
  | .player state => some state
  | .execute _ | .commandResult _ | .sessionRevoked _ | .other _ => none

/-- The states among the messages the hub had for a connection. -/
def Connection.states (connection : Connection) : List PlayerState :=
  connection.had.filterMap ServerMessage.playerState

/-- Queues a message for a connection the hub counts, or closes it if its outbox is full. -/
def Connection.trySend (message : ServerMessage) (connection : Connection) : Connection :=
  if connection.opened then
    if connection.outbox.length < OUTBOX then
      { connection with outbox := connection.outbox ++ [message] }
    else { connection with opened := false }
  else connection

abbrev Hub := List Connection

/-- The connection a device opened last. -/
def Hub.newest (hub : Hub) (device : Int) : Option Nat :=
  ((hub.filter fun connection => connection.opened && connection.device = device).map
    Connection.id).max?

/-- Sends a message to every connection. -/
def Hub.broadcast (hub : Hub) (message : ServerMessage) : Hub := hub.map (Connection.trySend message)

/-- Sends a message to one connection. -/
def Hub.send (hub : Hub) (id : Nat) (message : ServerMessage) : Hub :=
  hub.map fun connection => if connection.id = id then connection.trySend message else connection

/-- Tells each connection of a device that it was signed out, and closes it. -/
def Hub.revoke (hub : Hub) (device : Int) (reason : String) : Hub :=
  hub.map fun connection =>
    if connection.device = device then
      { connection.trySend (.sessionRevoked reason) with opened := false }
    else connection

/-- Closes every connection, as the server stops. -/
def Hub.closeAll (hub : Hub) : Hub := hub.map fun connection => { connection with opened := false }

/-- Moves the `serve` of a connection on. -/
def Hub.become (hub : Hub) (id : Nat) (phase : Phase) : Hub :=
  hub.map fun connection => if connection.id = id then { connection with phase := phase } else connection

/-- Lets go of a connection. -/
def Hub.drop (hub : Hub) (id : Nat) : Hub :=
  hub.map fun connection =>
    if connection.id = id then { connection with opened := false, phase := .left } else connection

/-- The next message the hub has for a connection, sent to its client. -/
def Connection.next (connection : Connection) : Connection :=
  match connection.outbox with
  | [] => connection
  | message :: outbox =>
    { connection with outbox := outbox, sent := connection.sent ++ [message] }

def Hub.next (hub : Hub) (id : Nat) : Hub :=
  hub.map fun connection => if connection.id = id then connection.next else connection

/-- The connection with an ID. -/
def Hub.connection (hub : Hub) (id : Nat) : Option Connection :=
  hub.find? fun connection => connection.id = id

/-! ### Sending -/

/-- What sending does to a connection: it may queue one of `messages`, or close it. -/
structure Sent (messages : ServerMessage → Prop) (old new : Connection) : Prop where
  id : new.id = old.id
  device : new.device = old.device
  phase : new.phase = old.phase
  sent : new.sent = old.sent
  opened : new.opened = true → old.opened = true
  outbox : new.outbox = old.outbox ∨ ∃ message, messages message ∧ old.opened = true ∧
    new.outbox = old.outbox ++ [message]

theorem sent_refl (messages : ServerMessage → Prop) (connection : Connection) :
    Sent messages connection connection :=
  ⟨rfl, rfl, rfl, rfl, fun h => h, .inl rfl⟩

theorem sent_trySend {messages : ServerMessage → Prop} {message : ServerMessage}
    (h : messages message) (connection : Connection) :
    Sent messages connection (connection.trySend message) := by
  rw [Connection.trySend]
  split_ifs with hopened
  · exact ⟨rfl, rfl, rfl, rfl, fun h => h, .inr ⟨message, h, hopened, rfl⟩⟩
  · refine ⟨rfl, rfl, rfl, rfl, ?_, .inl rfl⟩
    intro h
    cases h
  · exact sent_refl _ _

/-- What an open connection is sent is queued. -/
theorem had_trySend {message : ServerMessage} {connection : Connection}
    (h : (connection.trySend message).opened = true) :
    (connection.trySend message).had = connection.had ++ [message] := by
  rw [Connection.trySend] at h ⊢
  split_ifs at h ⊢ with hopened
  · simp only [Connection.had, List.append_assoc]
  · exact absurd h hopened

end JewelCase.Player

/-!
## Remote commands, waiting and lately answered

`crates/server/src/api/player/commands.rs` and `crates/server/src/api/player/commands/relay.rs` for
one account. A command fails by a timer, a task that sleeps and then fails it by its ID. A task that
woke up is past being aborted.
-/
namespace JewelCase.Player

set_option autoImplicit false

/-- How long a connection has to answer a command, in milliseconds. -/
def ANSWER_WITHIN_MS : Nat := 5000

/-- How many commands may wait for an answer at once. -/
def MAX_WAITING : Nat := 16

/-- How many of the latest results are kept. -/
def REMEMBERED : Nat := 32

/-- Longer reasons are cut short. -/
def MAX_REASON : Nat := 200

/-- Where a command's result goes. -/
inductive Reply where
  | connection (id : Nat)
  /-- An HTTP request waiting for it. -/
  | request (id : Nat)
deriving DecidableEq, Repr

/-- A command passed on and not yet answered. -/
structure Waiting where
  /-- Where it was last sent from. -/
  reply : Reply
  /-- The connection it went to. -/
  recipient : Nat
  timer : Nat
deriving DecidableEq, Repr

/-- The task that fails a command. -/
structure Timer where
  id : Nat
  commandId : String
  woken : Bool
deriving DecidableEq, Repr

structure Commands where
  waiting : List (String × Waiting)
  /-- The latest results, oldest first. -/
  finished : List CommandResult
  timers : List Timer
  nextTimer : Nat

def Commands.empty : Commands := ⟨[], [], [], 0⟩

/-- What ended a command. -/
inductive Cause where
  | answer (connection : Nat)
  | gone (connection : Nat)
  | timer (id : Nat)
deriving DecidableEq, Repr

/-- What happens to commands. -/
inductive Event where
  /-- Sent from `reply`, and waiting from then or already. -/
  | pending (commandId : String) (reply : Reply)
  | passed (command : PlayerCommand) (recipient : Nat) (timer : Nat)
  /-- `reply` is told how it went. -/
  | ended (result : CommandResult) (waiting : Waiting) (cause : Cause)
deriving DecidableEq

def Commands.find (commands : Commands) (id : String) : Option Waiting :=
  (commands.waiting.find? fun entry => entry.1 = id).map Prod.snd

/-- The result kept of a command that has finished. -/
def Commands.result (commands : Commands) (id : String) : Option CommandResult :=
  commands.finished.find? fun result => result.commandId = id

/-- A command sent again: how it went goes to where it was sent from last. -/
def Commands.resend (commands : Commands) (id : String) (reply : Reply) : Commands × List Event :=
  ({ commands with waiting := commands.waiting.map fun entry =>
      if entry.1 = id then (entry.1, { entry.2 with reply := reply }) else entry },
    [.pending id reply])

/-- A command passed on, with its timer set. -/
def Commands.pass (commands : Commands) (command : PlayerCommand) (reply : Reply)
    (recipient : Nat) : Commands × List Event :=
  let id := command.commandId
  let timer := commands.nextTimer
  ({ commands with
      waiting := commands.waiting ++ [(id, ⟨reply, recipient, timer⟩)]
      timers := commands.timers ++ [⟨timer, id, false⟩]
      nextTimer := timer + 1 },
    [.passed command recipient timer, .pending id reply])

/-- `AbortHandle::abort`: a task that woke up runs on. -/
def abort (timers : List Timer) (id : Nat) : List Timer :=
  timers.filter fun timer => ¬ (timer.id = id ∧ timer.woken = false)

/-- Keeps a result, and lets go of the oldest. -/
def remember (finished : List CommandResult) (result : CommandResult) : List CommandResult :=
  (if finished.length = REMEMBERED then finished.tail else finished) ++ [result]

/-- Ends one waiting command. -/
def Commands.finish (commands : Commands) (entry : String × Waiting) (result : CommandResult) :
    Commands :=
  { commands with
    waiting := commands.waiting.filter fun other => other.1 ≠ entry.1
    finished := remember commands.finished result
    timers := abort commands.timers entry.2.timer }

/-- Ends commands in turn, each with the result `result` gives for its ID. -/
def Commands.finishAll (commands : Commands) (result : String → CommandResult) (cause : Cause) :
    List (String × Waiting) → Commands × List Event
  | [] => (commands, [])
  | entry :: rest =>
    let finished := (commands.finish entry (result entry.1)).finishAll result cause rest
    (finished.1, .ended (result entry.1) entry.2 cause :: finished.2)

/-- Ends each waiting command that `ends` picks. A map gives them in any order, here that of their
IDs in `order`. -/
def Commands.endEach (commands : Commands) (order : List String) (cause : Cause)
    (ends : String → Waiting → Bool) (result : String → CommandResult) : Commands × List Event :=
  commands.finishAll result cause
    ((commands.waiting.filter fun entry => ends entry.1 entry.2).insertionSort
      fun a b => order.idxOf a.1 ≤ order.idxOf b.1)

/-- An answer as it is kept: its ID in lowercase, and its reason cut short. -/
def CommandResult.kept (result : CommandResult) : CommandResult :=
  { result with
    commandId := result.commandId.map Char.toLower
    reason := result.reason.map fun reason => String.ofList (reason.toList.take MAX_REASON) }

/-- Ends the command a result answers, if `connection` is where it went. -/
def Commands.answered (commands : Commands) (connection : Nat) (result : CommandResult) :
    Commands × List Event :=
  if result.status = .pending then (commands, [])
  else
    commands.endEach [] (.answer connection)
      (fun id waiting => id = result.kept.commandId && waiting.recipient = connection)
      fun _ => result.kept

/-- Fails every command waiting on `connection`. -/
def Commands.failCommandsTo (commands : Commands) (connection : Nat) (order : List String) :
    Commands × List Event :=
  commands.endEach order (.gone connection) (fun _ waiting => waiting.recipient = connection)
    fun id => ⟨id, .failed, some "The device went away."⟩

/-- A timer that woke up fails its command, if that still waits. -/
def Commands.fail (commands : Commands) (timer : Timer) : Commands × List Event :=
  ({ commands with timers := commands.timers.erase timer } : Commands).endEach [] (.timer timer.id)
    (fun id _ => id = timer.commandId) fun id => ⟨id, .failed, some "The device did not answer."⟩

/-- A timer's sleep is over. -/
def Commands.wake (commands : Commands) (id : Nat) : Commands :=
  { commands with timers := commands.timers.map fun timer =>
      if timer.id = id then { timer with woken := true } else timer }

/-! ### Where a command goes -/

/-- What is made of a command, while nothing changes what is playing or waiting. -/
inductive Decision where
  | refused (problem : Problem)
  | told (result : CommandResult)
  | resent
  /-- To be passed on as `command` to a connection. -/
  | go (command : PlayerCommand) (recipient : Nat)
deriving DecidableEq

/-- Why a command is invalid whatever is playing. -/
def PlayerCommand.invalid (command : PlayerCommand) : Option Problem :=
  match command.action with
  | .setVolume volume =>
    if command.deviceId = none then
      some (.invalid "setVolume must name its deviceId: volume belongs to a device.")
    else if 0 ≤ volume ∧ volume ≤ 1 then none
    else some (.invalid "volume must be from 0 to 1.")
  | .play | .pause | .next | .previous | .seek _ | .transfer _ => none

/-- The connection that carries out a command, or what to answer at once. -/
def target (account : Option PlayerState) (hub : Hub) (command : PlayerCommand) : Decision :=
  match command.action with
  | .transfer play =>
    match command.deviceId with
    | none => .refused (.invalid "transfer must name its deviceId.")
    | some device =>
      if (account.bind PlayerState.itemId).isNone then
        .refused (.deviceUnavailable "Nothing has played to move.")
      else
        match account.filter fun state => device.isSome && state.activeDeviceId = device with
        | some active =>
          match active.activeConnection with
          | some recipient =>
            -- Moved where it already is, which is paused: as good as asking it to play.
            if play && active.status ≠ .playing then .go { command with action := .play } recipient
            else .told ⟨command.commandId, .applied, none⟩
          | none => .told ⟨command.commandId, .applied, none⟩
        | none =>
          match device.bind hub.newest with
          | none => .refused (.deviceUnavailable "That device is not connected.")
          | some recipient => .go command recipient
  | .setVolume _ =>
    let device := command.deviceId.join
    let playing := (account.filter fun state =>
      device.isSome && state.activeDeviceId = device).bind PlayerState.activeConnection
    match playing.or (device.bind hub.newest) with
    | none => .refused (.deviceUnavailable "That device is not connected.")
    | some recipient => .go command recipient
  | .play | .pause | .next | .previous | .seek _ =>
    match account.bind fun state => state.activeConnection.bind fun recipient =>
        state.activeDeviceId.map fun device => (recipient, device) with
    | none => .refused (.deviceUnavailable "Nothing is playing.")
    | some (recipient, device) =>
      if command.deviceId.any fun id => id ≠ some device then
        .refused (.deviceUnavailable "That device is not the one playing.")
      else .go command recipient

/-- What is made of a command, before it is passed on. -/
def Commands.decide (commands : Commands) (account : Option PlayerState) (hub : Hub)
    (command : PlayerCommand) : Decision :=
  match command.invalid with
  | some problem => .refused problem
  | none =>
    match commands.result command.commandId with
    | some result => .told result
    | none =>
      if (commands.find command.commandId).isSome then .resent
      else
        match target account hub command with
        | .go command recipient =>
          if commands.waiting.length ≥ MAX_WAITING then
            .refused (.rateLimited ANSWER_WITHIN_MS
              "Too many commands are waiting for a device to answer.")
          else .go command recipient
        | decided => decided

end JewelCase.Player
