import Mathlib.Data.List.Induction
import JewelCase.Player.Server

/-!
# What a step changes, and what connections hear of it

Only an applied report and the end of the connection playing change what an account plays. The hub
sends each open connection the states made and the commands and results that are for it.
-/
namespace JewelCase.Player

set_option autoImplicit false

variable {hub hub' hub'' : Hub} {id : Nat} {heard more : List ServerMessage}
  {connection connection' connection'' : Connection}

/-! ### Looking a connection up -/

theorem connection_map {f : Connection → Connection} (hf : ∀ connection, (f connection).id = connection.id)
    (hub : Hub) (id : Nat) : Hub.connection (hub.map f) id = (hub.connection id).map f := by
  rw [Hub.connection, Hub.connection, List.find?_map]
  congr 2
  funext connection
  rw [Function.comp_apply, hf]

theorem connection_id (h : hub.connection id = some connection) : connection.id = id := by
  rw [Hub.connection] at h
  have hid := List.find?_some h
  exact of_decide_eq_true hid

theorem trySend_id (message : ServerMessage) (connection : Connection) :
    (connection.trySend message).id = connection.id :=
  (@sent_trySend (fun _ => True) message trivial connection).id

theorem connection_become (h : hub.connection id = some connection) (other : Nat) (phase : Phase) :
    (hub.become other phase).connection id =
      some (if id = other then { connection with phase := phase } else connection) := by
  rw [Hub.become, connection_map, h, Option.map_some, connection_id h]
  intro c
  split_ifs
  all_goals rfl

theorem connection_drop (h : hub.connection id = some connection) (other : Nat) :
    (hub.drop other).connection id =
      some (if id = other then { connection with opened := false, phase := .left }
        else connection) := by
  rw [Hub.drop, connection_map, h, Option.map_some, connection_id h]
  intro c
  split_ifs
  all_goals rfl

/-! ### Sending -/

/-- What sending does to a connection: one left open has `heard` more. -/
structure Moves (heard : List ServerMessage) (old new : Connection) : Prop where
  device : new.device = old.device
  phase : new.phase = old.phase
  opened : new.opened = true → old.opened = true
  had : new.opened = true → new.had = old.had ++ heard

theorem moves_refl (connection : Connection) : Moves [] connection connection :=
  ⟨rfl, rfl, fun h => h, fun _ => (List.append_nil _).symm⟩

theorem moves_trans (h : Moves heard connection connection')
    (h' : Moves more connection' connection'') : Moves (heard ++ more) connection connection'' := by
  refine ⟨h'.device.trans h.device, h'.phase.trans h.phase, fun ho => h.opened (h'.opened ho), ?_⟩
  intro ho
  rw [h'.had ho, h.had (h'.opened ho), List.append_assoc]

theorem moves_trySend (message : ServerMessage) (connection : Connection) :
    Moves [message] connection (connection.trySend message) := by
  have hsent := @sent_trySend (fun _ => True) message trivial connection
  exact ⟨hsent.device, hsent.phase, hsent.opened, had_trySend⟩

theorem moves_closed (connection : Connection) :
    Moves heard connection { connection with opened := false } := by
  refine ⟨rfl, rfl, ?_, ?_⟩
  · intro h
    cases h
  · intro h
    cases h

theorem moves_next (connection : Connection) : Moves [] connection connection.next := by
  rw [Connection.next]
  cases hout : connection.outbox with
  | nil => exact moves_refl connection
  | cons message rest =>
    refine ⟨rfl, rfl, fun h => h, ?_⟩
    intro _
    rw [List.append_nil, Connection.had, Connection.had, hout]
    simp only [List.append_assoc, List.singleton_append]

/-- The connection with an ID is sent `heard` and left where it is. -/
def Sends (id : Nat) (heard : List ServerMessage) (hub hub' : Hub) : Prop :=
  ∀ connection, hub.connection id = some connection →
    ∃ connection', hub'.connection id = some connection' ∧ Moves heard connection connection'

theorem sends_refl (hub : Hub) : Sends id [] hub hub :=
  fun connection h => ⟨connection, h, moves_refl connection⟩

theorem sends_trans (h : Sends id heard hub hub') (h' : Sends id more hub' hub'') :
    Sends id (heard ++ more) hub hub'' := by
  intro connection hc
  obtain ⟨connection', hc', hmoves⟩ := h connection hc
  obtain ⟨connection'', hc'', hmoves'⟩ := h' connection' hc'
  exact ⟨connection'', hc'', moves_trans hmoves hmoves'⟩

theorem sends_map {f : Connection → Connection} (hf : ∀ connection, (f connection).id = connection.id)
    (hmoves : ∀ connection, connection.id = id → Moves heard connection (f connection)) (hub : Hub) :
    Sends id heard hub (hub.map f) := by
  intro connection h
  refine ⟨f connection, ?_, hmoves connection (connection_id h)⟩
  rw [connection_map hf, h, Option.map_some]

/-- A broadcast is one message more to every connection. -/
theorem sends_broadcast (message : ServerMessage) : Sends id [message] hub (hub.broadcast message) :=
  sends_map (trySend_id message) (fun connection _ => moves_trySend message connection) hub

theorem sends_send (other : Nat) (message : ServerMessage) :
    Sends id (if id = other then [message] else []) hub (hub.send other message) := by
  refine sends_map ?_ ?_ hub
  · intro connection
    split_ifs
    · exact trySend_id message connection
    · rfl
  · intro connection hid
    rw [hid]
    split_ifs
    · exact moves_trySend message connection
    · exact moves_refl connection

theorem sends_revoke (device : Int) (reason : String) : Sends id [] hub (hub.revoke device reason) := by
  refine sends_map ?_ ?_ hub
  · intro connection
    split_ifs
    · exact trySend_id _ connection
    · rfl
  · intro connection _
    split_ifs
    · have hsent := moves_trySend (.sessionRevoked reason) connection
      refine ⟨hsent.device, hsent.phase, ?_, ?_⟩
      · intro h
        cases h
      · intro h
        cases h
    · exact moves_refl connection

theorem sends_closeAll : Sends id [] hub hub.closeAll :=
  @sends_map _ _ (fun connection => { connection with opened := false }) (fun _ => rfl)
    (fun connection _ => moves_closed connection) hub

theorem sends_next (other : Nat) : Sends id [] hub (hub.next other) := by
  refine sends_map ?_ ?_ hub
  · intro connection
    split_ifs
    · rw [Connection.next]
      split
      all_goals rfl
    · rfl
  · intro connection _
    split_ifs
    · exact moves_next connection
    · exact moves_refl connection

theorem finishAll_passed (result : String → CommandResult) (cause : Cause)
    (entries : List (String × Waiting)) (commands : Commands) (command : PlayerCommand)
    (recipient timer : Nat) :
    .passed command recipient timer ∉ (commands.finishAll result cause entries).2 := by
  induction entries generalizing commands with
  | nil => exact List.not_mem_nil
  | cons entry entries ih =>
    intro h
    obtain h | h := List.mem_cons.mp h
    · cases h
    · exact ih _ h

theorem answered_passed (commands : Commands) (connection : Nat) (result : CommandResult)
    (command : PlayerCommand) (recipient timer : Nat) :
    .passed command recipient timer ∉ (commands.answered connection result).2 := by
  rw [Commands.answered]
  split_ifs
  · exact List.not_mem_nil
  · exact finishAll_passed _ _ _ _ command recipient timer

/-- What a step shows, as the messages that a connection is sent of it. -/
def Shown.messages (id : Nat) : Shown → List ServerMessage
  | .made state => [.player state]
  | .command (.ended result waiting _) =>
    if waiting.reply = .connection id then [.commandResult result] else []
  | .command (.passed next recipient _) => if recipient = id then [.execute next] else []
  | .command (.pending ..) | .told .. => []

theorem sends_deliver {events : List Event}
    (hpassed : ∀ command recipient timer, .passed command recipient timer ∉ events) :
    Sends id ((events.map Shown.command).flatMap (Shown.messages id)) hub (deliver hub events) := by
  rw [deliver]
  induction events generalizing hub with
  | nil => exact sends_refl hub
  | cons event events ih =>
    rw [List.foldl_cons, List.map_cons, List.flatMap_cons]
    refine sends_trans ?_ (ih fun command recipient timer hmem =>
      hpassed command recipient timer (List.mem_cons_of_mem _ hmem))
    cases event with
    | pending => exact sends_refl hub
    | passed command recipient timer =>
      exact absurd List.mem_cons_self (hpassed command recipient timer)
    | ended result waiting cause =>
      simp only [Shown.messages]
      cases hreply : waiting.reply with
      | request =>
        rw [if_neg (by intro h; cases h)]
        exact sends_refl hub
      | connection other =>
        have hsend := @sends_send hub id other (.commandResult result)
        by_cases hid : id = other
        · rw [if_pos hid] at hsend
          rw [if_pos (by rw [hid])]
          exact hsend
        · rw [if_neg hid] at hsend
          rw [if_neg (fun h => hid (Reply.connection.inj h).symm)]
          exact hsend

/-! ### What one step changes -/

variable {server : Server} {label : Label}

/-- The states among what steps show. -/
def mades (shown : List Shown) : List PlayerState :=
  shown.filterMap fun shown =>
    match shown with
    | .made state => some state
    | .command _ | .told .. => none

/-- A report is applied. -/
structure Applies (server : Server) (id : Nat) (now : Int) (device : Int) (update : ProgressReport)
    (state : PlayerState) : Prop where
  free : server.turn = .free
  reporting : ∃ connection, server.hub.connection id = some connection ∧
    connection.device = device ∧ connection.phase = .reporting update
  ok : report server.account device id now update = .ok state

/-- A step either leaves an account's state, or makes one of a report or of a connection's end. -/
inductive Makes (server : Server) : Label → Option PlayerState → List PlayerState → Prop
  | same {label : Label} (h : ∀ id heardAt now, label = .ended now →
      server.turn = .ending id heardAt → disconnected server.account id heardAt now = none) :
      Makes server label server.account []
  | report {id : Nat} {now device : Int} {update : ProgressReport} {state : PlayerState}
      (h : Applies server id now device update state) :
      Makes server (.report id now) (some state) [state]
  | ended {id : Nat} {heardAt now : Int} {state : PlayerState}
      (hturn : server.turn = .ending id heardAt)
      (h : disconnected server.account id heardAt now = some state) :
      Makes server (.ended now) (some state) [state]

theorem makes_same (h : ∀ now, label ≠ .ended now) : Makes server label server.account [] :=
  .same fun _ _ now hlabel => absurd hlabel (h now)

theorem choose_account (reply : Reply) (command : PlayerCommand) :
    (server.choose reply command).1.account = server.account ∧
      mades (server.choose reply command).2 = [] := by
  rw [Server.choose]
  split
  all_goals exact ⟨rfl, rfl⟩

theorem mades_command (events : List Event) : mades (events.map .command) = [] := by
  rw [mades, List.filterMap_map]
  exact List.filterMap_eq_nil_iff.mpr fun _ _ => rfl

theorem mades_append (shown more : List Shown) : mades (shown ++ more) = mades shown ++ mades more :=
  List.filterMap_append

/-- Only a report that applies and a connection's end make a state, and each one made is shown. -/
theorem step_makes (server : Server) (label : Label) :
    Makes server label (step server label).1.account (mades (step server label).2) := by
  cases label with
  | report id now =>
    rw [step]
    split
    · rename_i connection hturn hconnection
      split
      · rename_i update hphase
        split
        · rename_i state hok
          exact .report ⟨hturn, ⟨connection, hconnection, rfl, hphase⟩, hok⟩
        · exact makes_same (by intro now h; cases h)
      · exact makes_same (by intro now h; cases h)
    · exact makes_same (by intro now h; cases h)
  | ended now =>
    rw [step]
    cases hturn : server.turn with
    | ending id heardAt =>
      simp only
      cases hstate : disconnected server.account id heardAt now with
      | some state => exact .ended hturn hstate
      | none =>
        refine .same ?_
        intro id' heardAt' now' hlabel hturn'
        rw [hturn] at hturn'
        obtain ⟨rfl, rfl⟩ := Turn.ending.inj hturn'
        rw [← Label.ended.inj hlabel]
        exact hstate
    | free | connecting | passing =>
      refine .same ?_
      intro id heardAt now' _ hturn'
      rw [hturn] at hturn'
      cases hturn'
  | choose id =>
    rw [step]
    split
    · split
      · rename_i command _
        obtain ⟨haccount, hmades⟩ := @choose_account server (.connection id) command
        simp only
        split_ifs
        · rw [haccount, hmades]
          exact makes_same (by intro now h; cases h)
        · rw [haccount, hmades]
          exact makes_same (by intro now h; cases h)
      · exact makes_same (by intro now h; cases h)
    · exact makes_same (by intro now h; cases h)
  | request id command =>
    rw [step]
    split_ifs
    · obtain ⟨haccount, hmades⟩ := @choose_account server (.request id) command
      rw [haccount, hmades]
      exact makes_same (by intro now h; cases h)
    · exact makes_same (by intro now h; cases h)
  | pass =>
    rw [step]
    split
    · rw [mades_append, mades_command]
      exact makes_same (by intro now h; cases h)
    all_goals exact makes_same (by intro now h; cases h)
  | answered id =>
    rw [step]
    split_ifs
    · exact makes_same (by intro now h; cases h)
    · split
      · split
        · rw [Server.finish, mades_command]
          exact makes_same (by intro now h; cases h)
        · exact makes_same (by intro now h; cases h)
      · exact makes_same (by intro now h; cases h)
  | fire id =>
    rw [step]
    split_ifs
    · exact makes_same (by intro now h; cases h)
    · split
      · rw [Server.finish, mades_command]
        exact makes_same (by intro now h; cases h)
      · exact makes_same (by intro now h; cases h)
  | disconnect id heardAt order =>
    rw [step]
    split
    · split_ifs
      · rw [Server.finish, mades_command]
        exact makes_same (by intro now h; cases h)
      · exact makes_same (by intro now h; cases h)
    · exact makes_same (by intro now h; cases h)
  | connect | welcome | progress | checked | sendState | command | answer | wake | next | leave |
    revoke | closeAll | broadcast =>
    rw [step]
    repeat' split
    all_goals exact makes_same (by intro now h; cases h)

/-- Whether a message is of what is played or of a command. -/
def ServerMessage.matters : ServerMessage → Bool
  | .player _ | .execute _ | .commandResult _ => true
  | .sessionRevoked _ | .other _ => false

theorem messages_matter (shown : List Shown) :
    (shown.flatMap (Shown.messages id)).filter ServerMessage.matters =
      shown.flatMap (Shown.messages id) := by
  rw [List.filter_eq_self]
  intro message hmessage
  obtain ⟨next, -, hmessage⟩ := List.mem_flatMap.mp hmessage
  cases next with
  | made state => rw [List.mem_singleton.mp hmessage]; rfl
  | told => cases hmessage
  | command event =>
    cases event with
    | pending => cases hmessage
    | passed =>
      rw [Shown.messages] at hmessage
      split_ifs at hmessage
      · rw [List.mem_singleton.mp hmessage]; rfl
      · cases hmessage
    | ended =>
      rw [Shown.messages] at hmessage
      split_ifs at hmessage
      · rw [List.mem_singleton.mp hmessage]; rfl
      · cases hmessage

/-- What one step does to a connection there was. -/
structure Hears (server : Server) (label : Label) (shown : List Shown) (id : Nat)
    (old new : Connection) : Prop where
  device : new.device = old.device
  opened : new.opened = true → old.opened = true
  joining : new.phase = .joining → old.phase = .joining
  left : new.phase = .left → old.phase = .left ∨ new.opened = false
  handled : new.phase = .handled → old.phase = .handled ∨
    (∃ heardAt, server.turn = .ending id heardAt) ∧ ∃ now, label = .ended now
  had : new.opened = true → ∃ messages, new.had = old.had ++ messages ∧
    (messages.filter ServerMessage.matters = shown.flatMap (Shown.messages id) ∨
      shown = [] ∧ ∃ now, (label = .welcome now ∨ label = .sendState id now ∧ server.turn = .free) ∧
        messages = [.player (server.current now)])

/-- The states a connection is sent are those made. -/
theorem messages_states (shown : List Shown) :
    (shown.flatMap (Shown.messages id)).filterMap ServerMessage.playerState = mades shown := by
  induction shown with
  | nil => rfl
  | cons next shown ih =>
    rw [List.flatMap_cons, List.filterMap_append, ih, mades, mades]
    cases next with
    | made state => rfl
    | told => rfl
    | command event =>
      cases event with
      | pending => rfl
      | passed =>
        rw [Shown.messages]
        split_ifs
        all_goals rfl
      | ended =>
        rw [Shown.messages]
        split_ifs
        all_goals rfl

theorem hears_states {shown : List Shown} (h : Hears server label shown id connection connection')
    (ho : connection'.opened = true) :
    connection'.states = connection.states ++ mades shown ∨
      mades shown = [] ∧ ∃ now,
        (label = .welcome now ∨ label = .sendState id now ∧ server.turn = .free) ∧
        connection'.states = connection.states ++ [server.current now] := by
  obtain ⟨messages, hhad, hmessages | ⟨rfl, now, hlabel, rfl⟩⟩ := h.had ho
  · left
    rw [Connection.states, hhad, List.filterMap_append, ← Connection.states, ← messages_states,
      ← hmessages, List.filterMap_filter]
    congr 1
    apply List.filterMap_congr
    intro message _
    cases message <;> rfl
  · right
    refine ⟨rfl, now, hlabel, ?_⟩
    rw [Connection.states, hhad, List.filterMap_append]
    rfl

theorem moves_hears {shown : List Shown}
    (h : Moves (shown.flatMap (Shown.messages id)) connection connection') :
    Hears server label shown id connection connection' := by
  refine ⟨h.device, h.opened, ?_, ?_, ?_,
    fun ho => ⟨_, h.had ho, .inl (messages_matter shown)⟩⟩
  · rw [h.phase]
    exact fun hp => hp
  · rw [h.phase]
    exact .inl
  · rw [h.phase]
    exact .inl

theorem hears_same (hconnection : hub.connection id = some connection) :
    ∃ connection', hub.connection id = some connection' ∧
      Hears server label [] id connection connection' :=
  ⟨connection, hconnection, moves_hears (moves_refl connection)⟩

theorem sends_hears {shown : List Shown}
    (h : Sends id (shown.flatMap (Shown.messages id)) hub hub')
    (hconnection : hub.connection id = some connection) :
    ∃ connection', hub'.connection id = some connection' ∧
      Hears server label shown id connection connection' := by
  obtain ⟨connection', hconnection', hmoves⟩ := h connection hconnection
  exact ⟨connection', hconnection', moves_hears hmoves⟩

theorem become_hears {shown : List Shown} {other : Nat} {phase : Phase}
    (h : Sends id (shown.flatMap (Shown.messages id)) hub hub') (hjoining : phase ≠ .joining)
    (hleft : phase ≠ .left) (hover : phase = .handled →
      (∃ heardAt, server.turn = .ending other heardAt) ∧ ∃ now, label = .ended now)
    (hconnection : hub.connection id = some connection) :
    ∃ connection', (hub'.become other phase).connection id = some connection' ∧
      Hears server label shown id connection connection' := by
  obtain ⟨connection', hconnection', hmoves⟩ := h connection hconnection
  rw [connection_become hconnection']
  refine ⟨_, rfl, ?_⟩
  split_ifs with hid
  · refine ⟨hmoves.device, hmoves.opened, fun hp => absurd hp hjoining,
      fun hp => absurd hp hleft, ?_, fun ho => ⟨_, hmoves.had ho, .inl (messages_matter shown)⟩⟩
    intro hp
    rw [hid]
    exact .inr (hover hp)
  · exact moves_hears hmoves

/-- A connection goes on in a phase between joining and its end. -/
theorem serves_hears {shown : List Shown} {other : Nat} {phase : Phase}
    (h : Sends id (shown.flatMap (Shown.messages id)) hub hub')
    (hphase : phase ≠ .joining ∧ phase ≠ .left ∧ phase ≠ .handled)
    (hconnection : hub.connection id = some connection) :
    ∃ connection', (hub'.become other phase).connection id = some connection' ∧
      Hears server label shown id connection connection' :=
  become_hears h hphase.1 hphase.2.1 (fun hp => absurd hp hphase.2.2) hconnection

/-- A connection is sent the state as it is, and serves on. -/
theorem current_hears (other : Nat) (now : Int)
    (hlabel : label = .welcome now ∨ label = .sendState other now ∧ server.turn = .free)
    (hconnection : hub.connection id = some connection) :
    ∃ connection', ((hub.send other (.player (server.current now))).become other .serving).connection
      id = some connection' ∧ Hears server label [] id connection connection' := by
  obtain ⟨connection', hconnection', hmoves⟩ :=
    @sends_send hub id other (.player (server.current now)) connection hconnection
  rw [connection_become hconnection']
  refine ⟨_, rfl, ?_⟩
  split_ifs with hid
  · rw [if_pos hid] at hmoves
    refine ⟨hmoves.device, hmoves.opened, ?_, ?_, ?_, ?_⟩
    · intro hp
      cases hp
    · intro hp
      cases hp
    · intro hp
      cases hp
    · intro ho
      rw [← hid] at hlabel
      exact ⟨_, hmoves.had ho, .inr ⟨rfl, now, hlabel, rfl⟩⟩
  · rw [if_neg hid] at hmoves
    exact moves_hears hmoves

theorem drop_hears (other : Nat) (hconnection : hub.connection id = some connection) :
    ∃ connection', (hub.drop other).connection id = some connection' ∧
      Hears server label [] id connection connection' := by
  rw [connection_drop hconnection]
  refine ⟨_, rfl, ?_⟩
  split_ifs
  · refine ⟨rfl, ?_, ?_, fun _ => .inr rfl, ?_, ?_⟩
    all_goals
      intro h
      cases h
  · exact moves_hears (moves_refl connection)

theorem choose_messages (reply : Reply) (command : PlayerCommand) :
    (server.choose reply command).2.flatMap (Shown.messages id) = [] := by
  rw [Server.choose]
  split
  all_goals rfl

theorem choose_hub (reply : Reply) (command : PlayerCommand) :
    (server.choose reply command).1.hub = server.hub := by
  rw [Server.choose]
  split
  all_goals rfl

theorem report_hears (other : Nat) (now : Int)
    (hconnection : server.hub.connection id = some connection) :
    ∃ connection', (step server (.report other now)).1.hub.connection id = some connection' ∧
      Hears server (.report other now) (step server (.report other now)).2 id connection
        connection' := by
  rw [step]
  split
  · split
    · split
      · rename_i state _
        exact serves_hears (sends_broadcast (.player state)) (by simp) hconnection
      · exact serves_hears (sends_refl _) (by simp) hconnection
    · exact hears_same hconnection
  · exact hears_same hconnection

theorem choose_hears (other : Nat) (hconnection : server.hub.connection id = some connection) :
    ∃ connection', (step server (.choose other)).1.hub.connection id = some connection' ∧
      Hears server (.choose other) (step server (.choose other)).2 id connection connection' := by
  rw [step]
  split
  · split
    · rename_i command _
      have hnone : Sends id ((server.choose (.connection other) command).2.flatMap
          (Shown.messages id)) server.hub server.hub := by
        rw [choose_messages]
        exact sends_refl _
      simp only
      split_ifs
      · rw [choose_hub]
        exact serves_hears hnone (by simp) hconnection
      · rw [choose_hub]
        exact sends_hears hnone hconnection
    · exact hears_same hconnection
  · exact hears_same hconnection

/-- The recipient of a command is sent it, and the sender's connection serves on. -/
theorem pass_hears (hconnection : server.hub.connection id = some connection) :
    ∃ connection', (step server .pass).1.hub.connection id = some connection' ∧
      Hears server .pass (step server .pass).2 id connection connection' := by
  rw [step]
  split
  · rename_i reply command recipient _
    have hsend : Sends id ((((server.commands.pass command reply recipient).2.map
        Shown.command) ++ [Shown.told reply (.ok ⟨command.commandId, .pending, none⟩)]).flatMap
        (Shown.messages id)) server.hub (server.hub.send recipient (.execute command)) := by
      have hsend := @sends_send server.hub id recipient (.execute command)
      by_cases hid : id = recipient
      · rw [if_pos hid] at hsend
        simpa [Commands.pass, Shown.messages, hid] using hsend
      · rw [if_neg hid] at hsend
        simpa [Commands.pass, Shown.messages, Ne.symm hid] using hsend
    cases reply with
    | connection other => exact serves_hears hsend (by simp) hconnection
    | request => exact sends_hears hsend hconnection
  all_goals exact hears_same hconnection

/-- The connection that answered serves on, and the senders of what it ended are told. -/
theorem answered_hears (other : Nat) (hconnection : server.hub.connection id = some connection) :
    ∃ connection', (step server (.answered other)).1.hub.connection id = some connection' ∧
      Hears server (.answered other) (step server (.answered other)).2 id connection
        connection' := by
  rw [step]
  split_ifs
  · exact hears_same hconnection
  · split
    · split
      · rename_i result _
        have hpassed := answered_passed server.commands other result
        obtain ⟨connection', hconnection', hmoves⟩ := sends_deliver hpassed _
          (connection_become hconnection other .serving)
        refine ⟨connection', hconnection', ?_⟩
        have hhears := @moves_hears _ _ _ server (.answered other) _ hmoves
        split_ifs at hhears with hid
        · refine ⟨hhears.device, hhears.opened, ?_, ?_, ?_, hhears.had⟩
          · intro hp
            cases hhears.joining hp
          · intro hp
            obtain hp | hp := hhears.left hp
            · cases hp
            · exact .inr hp
          · intro hp
            obtain hp | ⟨-, now, hlabel⟩ := hhears.handled hp
            · cases hp
            · cases hlabel
        · exact hhears
      · exact hears_same hconnection
    · exact hears_same hconnection

/-- The connection that ended is handled, and the others are sent the state that made. -/
theorem ended_hears (now : Int) (hconnection : server.hub.connection id = some connection) :
    ∃ connection', (step server (.ended now)).1.hub.connection id = some connection' ∧
      Hears server (.ended now) (step server (.ended now)).2 id connection connection' := by
  rw [step]
  split
  · rename_i other heardAt hturn
    have hover : (∃ heardAt, server.turn = .ending other heardAt) ∧
        ∃ now', Label.ended now = .ended now' := ⟨⟨heardAt, hturn⟩, now, rfl⟩
    split
    · rename_i state _
      exact become_hears (sends_broadcast (.player state)) (by simp) (by simp) (fun _ => hover)
        hconnection
    · exact become_hears (sends_refl _) (by simp) (by simp) (fun _ => hover) hconnection
  all_goals exact hears_same hconnection

/-- What others are sent matters neither to what plays nor to a command. -/
theorem broadcast_hears (text : String)
    (hconnection : server.hub.connection id = some connection) :
    ∃ connection', (step server (.broadcast text)).1.hub.connection id = some connection' ∧
      Hears server (.broadcast text) (step server (.broadcast text)).2 id connection
        connection' := by
  obtain ⟨connection', hconnection', hmoves⟩ := sends_broadcast (.other text) connection hconnection
  refine ⟨connection', hconnection', hmoves.device, hmoves.opened, ?_, ?_, ?_, ?_⟩
  · rw [hmoves.phase]
    exact fun hp => hp
  · rw [hmoves.phase]
    exact .inl
  · rw [hmoves.phase]
    exact .inl
  · intro ho
    exact ⟨_, hmoves.had ho, .inl rfl⟩

/-- **What one step does to a connection there was.** -/
theorem step_hears (label : Label) (hconnection : server.hub.connection id = some connection) :
    ∃ connection', (step server label).1.hub.connection id = some connection' ∧
      Hears server label (step server label).2 id connection connection' := by
  cases label with
  | connect device elsewhere =>
    rw [step]
    split_ifs
    · refine ⟨connection, ?_, moves_hears (moves_refl connection)⟩
      rw [Hub.connection, List.find?_append]
      rw [Hub.connection] at hconnection
      rw [hconnection]
      rfl
    · exact hears_same hconnection
  | welcome now =>
    rw [step]
    split
    · exact current_hears _ now (.inl rfl) hconnection
    all_goals exact hears_same hconnection
  | progress | command | answer =>
    rw [step]
    split_ifs
    · exact serves_hears (sends_refl _) (by simp) hconnection
    · exact hears_same hconnection
  | checked other holds signedIn =>
    rw [step]
    split
    · split
      · exact serves_hears (sends_refl _) (by split_ifs <;> simp) hconnection
      · exact hears_same hconnection
    · exact hears_same hconnection
  | report other now => exact report_hears other now hconnection
  | sendState other now =>
    rw [step]
    split
    · rename_i hturn _
      split_ifs
      · exact current_hears _ now (.inr ⟨rfl, hturn⟩) hconnection
      · exact hears_same hconnection
    · exact hears_same hconnection
  | choose other => exact choose_hears other hconnection
  | request other command =>
    rw [step]
    split_ifs
    · rw [choose_hub]
      refine sends_hears ?_ hconnection
      rw [choose_messages]
      exact sends_refl _
    · exact hears_same hconnection
  | pass => exact pass_hears hconnection
  | answered other => exact answered_hears other hconnection
  | wake timer => exact hears_same hconnection
  | fire timer =>
    rw [step]
    split_ifs
    · exact hears_same hconnection
    · split
      · exact sends_hears (sends_deliver (finishAll_passed _ _ _ _)) hconnection
      · exact hears_same hconnection
  | next other =>
    rw [step]
    split
    · split_ifs
      · exact sends_hears (sends_next other) hconnection
      · exact hears_same hconnection
    · exact hears_same hconnection
  | leave other =>
    rw [step]
    split
    · split_ifs
      · exact drop_hears other hconnection
      · exact hears_same hconnection
    · exact hears_same hconnection
  | disconnect other heardAt order =>
    rw [step]
    split
    · split_ifs
      · exact sends_hears (sends_deliver (finishAll_passed _ _ _ _)) hconnection
      · exact hears_same hconnection
    · exact hears_same hconnection
  | ended now => exact ended_hears now hconnection
  | revoke device reason => exact sends_hears (sends_revoke device reason) hconnection
  | closeAll => exact sends_hears sends_closeAll hconnection
  | broadcast text => exact broadcast_hears text hconnection

/-! ### Connections joining -/

/-- The IDs of all the connections there were. -/
def Hub.ids (hub : Hub) : List Nat := hub.map Connection.id

theorem ids_map {f : Connection → Connection} (hf : ∀ connection, (f connection).id = connection.id)
    (hub : Hub) : Hub.ids (hub.map f) = hub.ids := by
  rw [Hub.ids, Hub.ids, List.map_map]
  apply List.map_congr_left
  intro connection _
  exact hf connection

theorem ids_become (other : Nat) (phase : Phase) : (hub.become other phase).ids = hub.ids := by
  apply ids_map
  intro connection
  split_ifs
  all_goals rfl

theorem ids_send (other : Nat) (message : ServerMessage) :
    (hub.send other message).ids = hub.ids := by
  apply ids_map
  intro connection
  split_ifs
  · exact trySend_id message connection
  · rfl

theorem ids_broadcast (message : ServerMessage) : (hub.broadcast message).ids = hub.ids :=
  ids_map (trySend_id message) hub

theorem ids_revoke (device : Int) (reason : String) : (hub.revoke device reason).ids = hub.ids := by
  apply ids_map
  intro connection
  split_ifs
  · exact trySend_id _ connection
  · rfl

theorem ids_next (other : Nat) : (hub.next other).ids = hub.ids := by
  apply ids_map
  intro connection
  split_ifs
  · rw [Connection.next]
    split
    all_goals rfl
  · rfl

theorem ids_closeAll : hub.closeAll.ids = hub.ids :=
  @ids_map (fun connection => { connection with opened := false }) (fun _ => rfl) hub

theorem ids_drop (other : Nat) : (hub.drop other).ids = hub.ids := by
  apply ids_map
  intro connection
  split_ifs
  all_goals rfl

theorem ids_deliver (events : List Event) : (deliver hub events).ids = hub.ids := by
  rw [deliver]
  induction events generalizing hub with
  | nil => rfl
  | cons event events ih =>
    rw [List.foldl_cons, ih]
    cases event with
    | pending => rfl
    | passed => rfl
    | ended result waiting cause =>
      simp only
      cases waiting.reply with
      | request => rfl
      | connection other => exact ids_send other _

theorem connection_some_iff : (∃ connection, hub.connection id = some connection) ↔ id ∈ hub.ids := by
  rw [← Option.isSome_iff_exists, Hub.connection, List.find?_isSome, Hub.ids, List.mem_map]
  simp only [decide_eq_true_eq]

/-- A step that counts no connection and gives none a connect's turn. -/
structure Joins (server server' : Server) : Prop where
  ids : server'.hub.ids = server.hub.ids
  nextId : server'.nextId = server.nextId
  before : ∀ id, server'.turn = .connecting id → server.turn = .connecting id

theorem joins_same {server' : Server} (hids : server'.hub.ids = server.hub.ids)
    (hnext : server'.nextId = server.nextId) (hturn : server'.turn = server.turn) :
    Joins server server' := by
  refine ⟨hids, hnext, ?_⟩
  intro id h
  rwa [hturn] at h

theorem joins_turn {server' : Server} (hids : server'.hub.ids = server.hub.ids)
    (hnext : server'.nextId = server.nextId) (hafter : ∀ id, server'.turn ≠ .connecting id) :
    Joins server server' :=
  ⟨hids, hnext, fun id h => absurd h (hafter id)⟩

theorem choose_joins (reply : Reply) (command : PlayerCommand) :
    Joins server (server.choose reply command).1 := by
  rw [Server.choose]
  split
  · exact joins_same rfl rfl rfl
  · exact joins_same rfl rfl rfl
  · exact joins_same rfl rfl rfl
  · refine joins_turn rfl rfl ?_
    intro id h
    cases h

theorem report_joins (other : Nat) (now : Int) :
    Joins server (step server (.report other now)).1 := by
  rw [step]
  split
  · split
    · split
      · refine joins_same ?_ rfl rfl
        rw [ids_become, ids_broadcast]
      · exact joins_same (ids_become _ _) rfl rfl
    · exact joins_same rfl rfl rfl
  · exact joins_same rfl rfl rfl

/-- A connection's command takes the turn or leaves it. -/
theorem chosen_joins (other : Nat) : Joins server (step server (.choose other)).1 := by
  rw [step]
  split
  · split
    · rename_i command _
      have hjoins := @choose_joins server (.connection other) command
      simp only
      split_ifs
      · exact ⟨(ids_become _ _).trans hjoins.ids, hjoins.nextId, hjoins.before⟩
      · exact hjoins
    · exact joins_same rfl rfl rfl
  · exact joins_same rfl rfl rfl

theorem pass_joins : Joins server (step server .pass).1 := by
  rw [step]
  split
  · rename_i reply command recipient _
    refine joins_turn ?_ rfl ?_
    · cases reply with
      | connection other => exact (ids_become _ _).trans (ids_send _ _)
      | request => exact ids_send _ _
    · intro id h
      cases h
  all_goals exact joins_same rfl rfl rfl

theorem answered_joins (other : Nat) : Joins server (step server (.answered other)).1 := by
  rw [step]
  split_ifs
  · exact joins_same rfl rfl rfl
  · split
    · split
      · exact joins_same ((ids_deliver _).trans (ids_become _ _)) rfl rfl
      · exact joins_same rfl rfl rfl
    · exact joins_same rfl rfl rfl

theorem disconnect_joins (other : Nat) (heardAt : Int) (order : List String) :
    Joins server (step server (.disconnect other heardAt order)).1 := by
  rw [step]
  split
  · split_ifs
    · refine joins_turn (ids_deliver _) rfl ?_
      intro id h
      cases h
    · exact joins_same rfl rfl rfl
  · exact joins_same rfl rfl rfl

theorem ended_joins (now : Int) : Joins server (step server (.ended now)).1 := by
  rw [step]
  split
  · split
    · refine joins_turn ?_ rfl ?_
      · rw [ids_become, ids_broadcast]
      · intro id h
        cases h
    · refine joins_turn (ids_become _ _) rfl ?_
      intro id h
      cases h
  all_goals exact joins_same rfl rfl rfl

/-- **Only a connect counts another connection**, and leaves its turn for the welcome. -/
theorem step_joins (server : Server) (label : Label) :
    (∃ device elsewhere, label = .connect device elsewhere ∧ server.turn = .free ∧
      (step server label).1.hub = server.hub ++
        [⟨server.nextId + elsewhere, device, true, [], [], .joining⟩] ∧
      (step server label).1.nextId = server.nextId + elsewhere + 1 ∧
      (step server label).1.turn = .connecting (server.nextId + elsewhere)) ∨
    Joins server (step server label).1 := by
  cases label with
  | connect device elsewhere =>
    rw [step]
    split_ifs with hfree
    · exact .inl ⟨device, elsewhere, rfl, hfree, rfl, rfl, rfl⟩
    · exact .inr (joins_same rfl rfl rfl)
  | welcome now =>
    right
    rw [step]
    split
    · refine joins_turn ?_ rfl ?_
      · rw [ids_become, ids_send]
      · intro id h
        cases h
    all_goals exact joins_same rfl rfl rfl
  | progress | command | answer =>
    right
    rw [step]
    split_ifs
    · exact joins_same (ids_become _ _) rfl rfl
    · exact joins_same rfl rfl rfl
  | checked other holds signedIn =>
    right
    rw [step]
    repeat' split
    all_goals first
      | exact joins_same rfl rfl rfl
      | exact joins_same (ids_become _ _) rfl rfl
  | report other now => exact .inr (report_joins other now)
  | sendState other now =>
    right
    rw [step]
    split
    · split_ifs
      · refine joins_same ?_ rfl rfl
        rw [ids_become, ids_send]
      · exact joins_same rfl rfl rfl
    · exact joins_same rfl rfl rfl
  | choose other => exact .inr (chosen_joins other)
  | request other command =>
    right
    rw [step]
    split_ifs
    · exact choose_joins _ _
    · exact joins_same rfl rfl rfl
  | pass => exact .inr pass_joins
  | answered other => exact .inr (answered_joins other)
  | wake timer => exact .inr (joins_same rfl rfl rfl)
  | fire timer =>
    right
    rw [step]
    split_ifs
    · exact joins_same rfl rfl rfl
    · split
      · exact joins_same (ids_deliver _) rfl rfl
      · exact joins_same rfl rfl rfl
  | next other =>
    right
    rw [step]
    split
    · split_ifs
      · exact joins_same (ids_next other) rfl rfl
      · exact joins_same rfl rfl rfl
    · exact joins_same rfl rfl rfl
  | leave other =>
    right
    rw [step]
    split
    · split_ifs
      · exact joins_same (ids_drop other) rfl rfl
      · exact joins_same rfl rfl rfl
    · exact joins_same rfl rfl rfl
  | disconnect other heardAt order => exact .inr (disconnect_joins other heardAt order)
  | ended now => exact .inr (ended_joins now)
  | revoke device reason => exact .inr (joins_same (ids_revoke device reason) rfl rfl)
  | closeAll => exact .inr (joins_same ids_closeAll rfl rfl)
  | broadcast text => exact .inr (joins_same (ids_broadcast _) rfl rfl)

/-! ### What holds in every state -/

/-- What holds between any two steps. -/
structure Sound (server : Server) : Prop where
  fresh : ∀ id ∈ server.hub.ids, id < server.nextId
  once : server.hub.ids.Nodup
  connecting : ∀ id, server.turn = .connecting id → ∃ connection,
    server.hub.connection id = some connection ∧ (connection.opened = true → connection.states = [])
  active : ∀ state, server.account = some state → state.Consistent ∧
    ∀ id, state.activeConnection = some id → ∃ connection,
      server.hub.connection id = some connection ∧
        state.activeDeviceId = some connection.device ∧ connection.phase ≠ .handled

theorem start_sound (saved : Option (String × U32)) (now : Int) : Sound (.start saved now) := by
  constructor
  · intro id h
    cases h
  · exact .nil
  · intro id h
    cases h
  · intro state h
    obtain ⟨place, -, rfl⟩ := Option.map_eq_some_iff.mp h
    refine ⟨loaded_consistent _ _ _, ?_⟩
    intro id hid
    cases hid

theorem mades_connecting (hturn : server.turn = .connecting id) (label : Label) :
    (step server label).1.account = server.account ∧ mades (step server label).2 = [] := by
  have hmakes := step_makes server label
  generalize (step server label).1.account = account at *
  generalize mades (step server label).2 = made at *
  cases hmakes with
  | same => exact ⟨rfl, rfl⟩
  | report h =>
    have hfree := h.free
    rw [hturn] at hfree
    cases hfree
  | ended hending =>
    rw [hturn] at hending
    cases hending

theorem active_connection {account : Option PlayerState} (h : Sound server)
    (haccount : server.account = account) (hid : account.bind PlayerState.activeConnection = some id) :
    ∃ connection, server.hub.connection id = some connection ∧
      account.bind PlayerState.activeDeviceId = some connection.device ∧ connection.phase ≠ .handled := by
  obtain ⟨state, rfl, hstate⟩ := Option.bind_eq_some_iff.mp hid
  exact (h.active state haccount).2 id hstate

/-- Whatever comes next, the state is consistent and its active connection one of the hub's. -/
theorem step_sound (h : Sound server) (label : Label) : Sound (step server label).1 := by
  have hactive : ∀ state, (step server label).1.account = some state → state.Consistent ∧
      ∀ id, state.activeConnection = some id → ∃ connection,
        (step server label).1.hub.connection id = some connection ∧
          state.activeDeviceId = some connection.device ∧ connection.phase ≠ .handled := by
    have hmakes := step_makes server label
    generalize haccount : (step server label).1.account = account at *
    generalize mades (step server label).2 = made at *
    intro state hstate
    cases hmakes with
    | same hended =>
      obtain ⟨hconsistent, hnamed⟩ := h.active state hstate
      refine ⟨hconsistent, ?_⟩
      intro id hid
      obtain ⟨connection, hconnection, hdevice, hphase⟩ := hnamed id hid
      obtain ⟨connection', hconnection', hhears⟩ := step_hears label hconnection
      refine ⟨connection', hconnection', by rw [hhears.device, hdevice], ?_⟩
      intro hover
      obtain hover | ⟨⟨heardAt, hturn⟩, now, hlabel⟩ := hhears.handled hover
      · exact hphase hover
      · refine disconnected_none (hended id heardAt now hlabel hturn) ?_
        rw [hstate]
        exact hid
    | report happlies =>
      obtain rfl := Option.some.inj hstate
      obtain ⟨-, hconsistent, -, hnames, -⟩ := report_ok happlies.ok
      refine ⟨hconsistent, ?_⟩
      intro id hid
      obtain ⟨hdevice, hconnection⟩ := hnames (hconsistent.connection.mp (by rw [hid]; rfl))
      rw [hid] at hconnection
      obtain rfl := Option.some.inj hconnection
      obtain ⟨connection, hconnection, rfl, hphase⟩ := happlies.reporting
      obtain ⟨connection', hconnection', hhears⟩ := step_hears (.report id _) hconnection
      refine ⟨connection', hconnection', by rw [hhears.device, hdevice], ?_⟩
      intro hover
      obtain hover | ⟨-, now, hlabel⟩ := hhears.handled hover
      · rw [hphase] at hover
        cases hover
      · cases hlabel
    | ended hturn hended =>
      obtain rfl := Option.some.inj hstate
      obtain ⟨old, -, -, rfl⟩ := disconnected_some hended
      refine ⟨⟨by simp, by simp⟩, ?_⟩
      intro id hid
      cases hid
  obtain ⟨device, elsewhere, rfl, hturn, hhub, hnext, hturn'⟩ | hjoins := step_joins server label
  · refine ⟨?_, ?_, ?_, hactive⟩
    · intro id hid
      rw [hhub, Hub.ids, List.map_append] at hid
      rw [hnext]
      obtain hid | hid := List.mem_append.mp hid
      · have hlt := h.fresh id hid
        omega
      · rw [List.mem_singleton.mp hid]
        exact Nat.lt_succ_self _
    · rw [hhub, Hub.ids, List.map_append]
      refine List.nodup_append.mpr ⟨h.once, List.nodup_singleton _, ?_⟩
      intro a ha b hb hab
      have hlt := h.fresh a ha
      rw [hab, List.mem_singleton.mp hb] at hlt
      simp only at hlt
      omega
    · intro id hid
      rw [hturn'] at hid
      obtain rfl := Turn.connecting.inj hid
      have hnone : server.hub.connection (server.nextId + elsewhere) = none := by
        by_contra hsome
        obtain ⟨connection, hconnection⟩ := Option.ne_none_iff_exists'.mp hsome
        have hlt := h.fresh _ (connection_some_iff.1 ⟨connection, hconnection⟩)
        omega
      refine ⟨⟨server.nextId + elsewhere, device, true, [], [], .joining⟩, ?_, fun _ => rfl⟩
      rw [hhub, Hub.connection, List.find?_append]
      rw [Hub.connection] at hnone
      rw [hnone, Option.none_or]
      simp
  · refine ⟨?_, ?_, ?_, hactive⟩
    · rw [hjoins.ids, hjoins.nextId]
      exact h.fresh
    · rw [hjoins.ids]
      exact h.once
    · intro id hid
      have hturn := hjoins.before id hid
      obtain ⟨connection, hconnection, hstates⟩ := h.connecting id hturn
      obtain ⟨connection', hconnection', hhears⟩ := step_hears label hconnection
      refine ⟨connection', hconnection', ?_⟩
      intro ho
      obtain hheard | ⟨-, now, hlabel, -⟩ := hears_states hhears ho
      · rw [hheard, (mades_connecting hturn label).2, hstates (hhears.opened ho), List.append_nil]
      · obtain rfl | ⟨-, hfree⟩ := hlabel
        · rw [step, hturn] at hid
          cases hid
        · rw [hturn] at hfree
          cases hfree

theorem run_sound (saved : Option (String × U32)) (now : Int) (labels : List Label) :
    Sound (run (.start saved now) labels).1 := by
  induction labels using List.reverseRecOn with
  | nil => exact start_sound saved now
  | append_singleton labels label ih =>
    rw [run_append]
    exact step_sound ih label

end JewelCase.Player
