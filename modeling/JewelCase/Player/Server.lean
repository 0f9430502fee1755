import JewelCase.Player.Hub

/-!
# The server's realtime side, for one account

Reports, connections and commands as `crates/server/src/api/player.rs`,
`crates/server/src/api/player/progress.rs` and `crates/server/src/api/realtime.rs` interleave them. A
step is what one task does under a lock: the state's, the commands' or the hub's. Where a task that
holds the state's lock takes the hub's more than once, others may come between, and `turn` says who
holds it.
-/
namespace JewelCase.Player

set_option autoImplicit false

/-- Who holds the lock of the account's state. -/
inductive Turn where
  | free
  /-- `Players::connect`, once the connection is counted. -/
  | connecting (id : Nat)
  /-- `Players::command`, which holds the commands too, once it chose where to. -/
  | passing (reply : Reply) (command : PlayerCommand) (recipient : Nat)
  /-- `Players::disconnected`, once the commands waiting on the connection failed. -/
  | ending (id : Nat) (heardAt : Int)
deriving DecidableEq

structure Server where
  account : Option PlayerState
  commands : Commands
  hub : Hub
  nextId : Nat
  turn : Turn

/-- The server as it starts, with what was saved of the account. -/
def Server.start (saved : Option (String × U32)) (now : Int) : Server :=
  ⟨saved.map fun place => .loaded place.1 place.2 now, .empty, [], 0, .free⟩

/-- What a step shows. -/
inductive Shown where
  /-- The state that all connections are sent. -/
  | made (state : PlayerState)
  | command (event : Event)
  /-- The sender of a command is told this now. -/
  | told (reply : Reply) (answer : Except Problem CommandResult)

inductive Label where
  /-- `elsewhere` connections of other accounts came before. -/
  | connect (device : Int) (elsewhere : Nat)
  | welcome (now : Int)
  | progress (id : Nat) (report : ProgressReport)
  /-- `holds` is whether the queue has the item. -/
  | checked (id : Nat) (holds signedIn : Bool)
  | report (id : Nat) (now : Int)
  | sendState (id : Nat) (now : Int)
  | command (id : Nat) (command : PlayerCommand)
  /-- A connection's command gets its turn. -/
  | choose (id : Nat)
  /-- A command sent over HTTP gets its turn. -/
  | request (id : Nat) (command : PlayerCommand)
  | pass
  | answer (id : Nat) (result : CommandResult)
  | answered (id : Nat)
  | wake (timer : Nat)
  | fire (timer : Nat)
  | next (id : Nat)
  | leave (id : Nat)
  /-- `order` is the one that the map gives the commands in. -/
  | disconnect (id : Nat) (heardAt : Int) (order : List String)
  | ended (now : Int)
  | revoke (device : Int) (reason : String)
  | closeAll
  | broadcast (text : String)

/-- The state an account has now. -/
def Server.current (server : Server) (now : Int) : PlayerState :=
  server.account.getD (.initial now)

/-- Why a report is not applied, whatever is playing. -/
def ProgressReport.problem (report : ProgressReport) (holds signedIn : Bool) : Option Problem :=
  if report.volume.any fun volume => ¬ (0 ≤ volume ∧ volume ≤ 1) then
    some (.invalid "volume must be from 0 to 1.")
  else if ¬ holds then some .notFound
  else if ¬ signedIn then some .notFound
  else none

/-- Sends the results of commands that ended, each to where it was last sent from. -/
def deliver (hub : Hub) (events : List Event) : Hub :=
  events.foldl (fun hub event =>
    match event with
    | .ended result waiting _ =>
      match waiting.reply with
      | .connection id => hub.send id (.commandResult result)
      | .request _ => hub
    | .pending .. | .passed .. => hub) hub

/-- A command gets its turn: it is answered, or about to be passed on. -/
def Server.choose (server : Server) (reply : Reply) (command : PlayerCommand) :
    Server × List Shown :=
  match server.commands.decide server.account server.hub command with
  | .refused problem => (server, [.told reply (.error problem)])
  | .told result => (server, [.told reply (.ok result)])
  | .resent =>
    let resent := server.commands.resend command.commandId reply
    ({ server with commands := resent.1 },
      resent.2.map .command ++ [.told reply (.ok ⟨command.commandId, .pending, none⟩)])
  | .go command recipient => ({ server with turn := .passing reply command recipient }, [])

/-- Ends commands, and tells their senders. -/
def Server.finish (server : Server) (finished : Commands × List Event) : Server × List Shown :=
  ({ server with commands := finished.1, hub := deliver server.hub finished.2 },
    finished.2.map .command)

def Turn.holdsCommands : Turn → Bool
  | .passing .. => true
  | .free | .connecting _ | .ending .. => false

/-- A reply's connection serves on. -/
def Reply.served (hub : Hub) : Reply → Hub
  | .connection id => hub.become id .serving
  | .request _ => hub

/-- A connection the hub counts, whose `serve` is at its loop. -/
def Server.serves (server : Server) (id : Nat) : Bool :=
  (server.hub.connection id).any fun connection =>
    connection.opened && connection.phase = .serving

/-- One step, and what it shows. One that cannot be taken changes nothing. -/
def step (server : Server) : Label → Server × List Shown
  | .connect device elsewhere =>
    if server.turn = .free then
      let id := server.nextId + elsewhere
      ({ server with
          hub := server.hub ++ [⟨id, device, true, [], [], .joining⟩]
          nextId := id + 1
          turn := .connecting id }, [])
    else (server, [])
  | .welcome now =>
    match server.turn with
    | .connecting id =>
      ({ server with
          hub := (server.hub.send id (.player (server.current now))).become id .serving
          turn := .free }, [])
    | .free | .passing .. | .ending .. => (server, [])
  | .progress id report =>
    if server.serves id then
      ({ server with hub := server.hub.become id (.checking report) }, [])
    else (server, [])
  | .checked id holds signedIn =>
    match server.hub.connection id with
    | some connection =>
      match connection.phase with
      | .checking report =>
        let phase := if (report.problem holds signedIn).isSome then .refusing
          -- Closed while it was checked: it acts for no one.
          else if connection.opened then .reporting report else .serving
        ({ server with hub := server.hub.become id phase }, [])
      | _ => (server, [])
    | none => (server, [])
  | .report id now =>
    match server.turn, server.hub.connection id with
    | .free, some connection =>
      match connection.phase with
      | .reporting update =>
        match report server.account connection.device id now update with
        | .ok state =>
          ({ server with
              account := some state
              hub := (server.hub.broadcast (.player state)).become id .serving },
            [.made state])
        | .error _ => ({ server with hub := server.hub.become id .refusing }, [])
      | _ => (server, [])
    | _, _ => (server, [])
  | .sendState id now =>
    match server.turn, server.hub.connection id with
    | .free, some connection =>
      if connection.phase = .refusing then
        ({ server with
            hub := (server.hub.send id (.player (server.current now))).become id .serving }, [])
      else (server, [])
    | _, _ => (server, [])
  | .command id command =>
    if server.serves id then
      ({ server with hub := server.hub.become id (.commanding command) }, [])
    else (server, [])
  | .choose id =>
    match server.turn, server.hub.connection id with
    | .free, some connection =>
      match connection.phase with
      | .commanding command =>
        let chosen := server.choose (.connection id) command
        if chosen.1.turn = .free then
          ({ chosen.1 with hub := chosen.1.hub.become id .serving }, chosen.2)
        else chosen
      | _ => (server, [])
    | _, _ => (server, [])
  | .request id command =>
    if server.turn = .free then server.choose (.request id) command else (server, [])
  | .pass =>
    match server.turn with
    | .passing reply command recipient =>
      let passed := server.commands.pass command reply recipient
      ({ server with
          commands := passed.1
          hub := reply.served (server.hub.send recipient (.execute command))
          turn := .free },
        passed.2.map .command ++ [.told reply (.ok ⟨command.commandId, .pending, none⟩)])
    | .free | .connecting _ | .ending .. => (server, [])
  | .answer id result =>
    if server.serves id then
      ({ server with hub := server.hub.become id (.answering result) }, [])
    else (server, [])
  | .answered id =>
    if server.turn.holdsCommands then (server, [])
    else
      match server.hub.connection id with
      | some connection =>
        match connection.phase with
        | .answering result =>
          ({ server with hub := server.hub.become id .serving } : Server).finish
            (server.commands.answered id result)
        | _ => (server, [])
      | none => (server, [])
  | .wake timer => ({ server with commands := server.commands.wake timer }, [])
  | .fire id =>
    if server.turn.holdsCommands then (server, [])
    else
      match server.commands.timers.find? fun timer => timer.id = id && timer.woken with
      | some timer => server.finish (server.commands.fail timer)
      | none => (server, [])
  | .next id =>
    match server.hub.connection id with
    | some connection =>
      if connection.phase = .serving then ({ server with hub := server.hub.next id }, [])
      else (server, [])
    | none => (server, [])
  | .leave id =>
    match server.hub.connection id with
    | some connection =>
      if connection.phase = .serving then ({ server with hub := server.hub.drop id }, [])
      else (server, [])
    | none => (server, [])
  | .disconnect id heardAt order =>
    match server.turn, server.hub.connection id with
    | .free, some connection =>
      if connection.phase = .left then
        ({ server with turn := .ending id heardAt } : Server).finish
          (server.commands.failCommandsTo id order)
      else (server, [])
    | _, _ => (server, [])
  | .ended now =>
    match server.turn with
    | .ending id heardAt =>
      match disconnected server.account id heardAt now with
      | some state =>
        ({ server with
            account := some state
            hub := (server.hub.broadcast (.player state)).become id .handled
            turn := .free },
          [.made state])
      | none => ({ server with hub := server.hub.become id .handled, turn := .free }, [])
    | .free | .connecting _ | .passing .. => (server, [])
  | .revoke device reason => ({ server with hub := server.hub.revoke device reason }, [])
  | .closeAll => ({ server with hub := server.hub.closeAll }, [])
  | .broadcast text => ({ server with hub := server.hub.broadcast (.other text) }, [])

/-- A run, and all it shows. -/
def run (server : Server) (labels : List Label) : Server × List Shown :=
  labels.foldl (fun state label =>
    let next := step state.1 label
    (next.1, state.2 ++ next.2)) (server, [])

theorem run_append (server : Server) (labels : List Label) (label : Label) :
    run server (labels ++ [label]) =
      ((step (run server labels).1 label).1,
        (run server labels).2 ++ (step (run server labels).1 label).2) := by
  rw [run, List.foldl_append]
  rfl

end JewelCase.Player
