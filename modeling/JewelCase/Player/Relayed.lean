import JewelCase.Player.Ends

/-!
# A remote command is passed on once and ends once

Over runs of the server in which no timer that woke up for an earlier command of the same ID is
still to fail it. None of the commands waits on a connection whose end was handled.
-/
namespace JewelCase.Player

set_option autoImplicit false

variable {server : Server} {label : Label} {log : List Event} {id : Nat}

/-- What happens to commands, among what steps show. -/
def events (shown : List Shown) : List Event :=
  shown.filterMap fun shown =>
    match shown with
    | .command event => some event
    | .made _ | .told .. => none

theorem events_append (shown more : List Shown) :
    events (shown ++ more) = events shown ++ events more :=
  List.filterMap_append

theorem events_command (log : List Event) : events (log.map .command) = log := by
  rw [events, List.filterMap_map]
  exact List.filterMap_some

/-- A connection whose end was not handled. -/
def Alive (hub : Hub) (id : Nat) : Prop :=
  ∃ connection, hub.connection id = some connection ∧ connection.phase ≠ .handled

/-- A timer that woke up is about to fail a command that is not its own, of the same ID. -/
def Stale (server : Server) (label : Label) : Prop :=
  ∃ id timer waiting, label = .fire id ∧
    server.commands.timers.find? (fun timer => timer.id = id && timer.woken) = some timer ∧
    (timer.commandId, waiting) ∈ server.commands.waiting ∧ waiting.timer ≠ timer.id

/-! ### Where a command goes -/

theorem newest_opened {hub : Hub} {device : Int} (h : hub.newest device = some id) :
    ∃ connection ∈ hub, connection.id = id ∧ connection.opened = true := by
  rw [Hub.newest] at h
  obtain ⟨connection, hmem, hid⟩ := List.mem_map.mp (List.max?_mem h)
  obtain ⟨hmem, hopened⟩ := List.mem_filter.mp hmem
  rw [Bool.and_eq_true] at hopened
  exact ⟨connection, hmem, hid, hopened.1⟩

/-- A command goes to the connection playing, or to one that the hub counts. -/
theorem target_go {account : Option PlayerState} {hub : Hub} {command sent : PlayerCommand}
    {recipient : Nat} (h : target account hub command = .go sent recipient) :
    sent.commandId = command.commandId ∧
      (account.bind PlayerState.activeConnection = some recipient ∨
        ∃ device, hub.newest device = some recipient) := by
  rw [target] at h
  split at h
  · split at h
    · cases h
    · split_ifs at h
      split at h
      · rename_i active hactive
        obtain ⟨rfl, -⟩ := Option.filter_eq_some_iff.mp hactive
        split at h
        · rename_i playing hto
          split_ifs at h
          obtain ⟨rfl, rfl⟩ := Decision.go.inj h
          exact ⟨rfl, .inl hto⟩
        · cases h
      · split at h
        · cases h
        · rename_i playing hto
          obtain ⟨rfl, rfl⟩ := Decision.go.inj h
          obtain ⟨device, -, hdevice⟩ := Option.bind_eq_some_iff.mp hto
          exact ⟨rfl, .inr ⟨device, hdevice⟩⟩
  · simp only at h
    split at h
    · cases h
    · rename_i playing hto
      obtain ⟨rfl, rfl⟩ := Decision.go.inj h
      obtain hplaying | ⟨-, hnewest⟩ := Option.or_eq_some_iff.mp hto
      · obtain ⟨active, hactive, hconnection⟩ := Option.bind_eq_some_iff.mp hplaying
        obtain ⟨rfl, -⟩ := Option.filter_eq_some_iff.mp hactive
        exact ⟨rfl, .inl hconnection⟩
      · obtain ⟨device, -, hdevice⟩ := Option.bind_eq_some_iff.mp hnewest
        exact ⟨rfl, .inr ⟨device, hdevice⟩⟩
  all_goals
    split at h
    · cases h
    · rename_i playing device hto
      split_ifs at h
      obtain ⟨rfl, rfl⟩ := Decision.go.inj h
      obtain ⟨active, rfl, hactive⟩ := Option.bind_eq_some_iff.mp hto
      obtain ⟨connection, hconnection, hdevice⟩ := Option.bind_eq_some_iff.mp hactive
      obtain ⟨_, _, hpair⟩ := Option.map_eq_some_iff.mp hdevice
      rw [← (Prod.mk.inj hpair).1]
      exact ⟨rfl, .inl hconnection⟩

/-- A command that is passed on neither waits nor has a result kept, and there is room for it. -/
theorem decide_go {commands : Commands} {account : Option PlayerState} {hub : Hub}
    {command sent : PlayerCommand} {recipient : Nat}
    (h : commands.decide account hub command = .go sent recipient) :
    sent.commandId ∉ commands.waiting.map Prod.fst ∧
      sent.commandId ∉ commands.finished.map CommandResult.commandId ∧
      commands.waiting.length < MAX_WAITING ∧
      (account.bind PlayerState.activeConnection = some recipient ∨
        ∃ device, hub.newest device = some recipient) := by
  rw [Commands.decide] at h
  split at h
  · cases h
  · split at h
    · cases h
    · rename_i hresult
      by_cases hfind : (commands.find command.commandId).isSome = true
      · rw [if_pos hfind] at h
        cases h
      rw [if_neg hfind] at h
      split at h
      · rename_i htarget
        split_ifs at h with hroom
        obtain ⟨rfl, rfl⟩ := Decision.go.inj h
        obtain ⟨hid, hrecipient⟩ := target_go htarget
        rw [hid]
        exact ⟨find_none (Bool.eq_false_iff.mpr hfind), result_none hresult,
          Nat.lt_of_not_le hroom, hrecipient⟩
      · rename_i hother
        exact absurd h (hother sent recipient)

theorem decide_resent {commands : Commands} {account : Option PlayerState} {hub : Hub}
    {command : PlayerCommand} (h : commands.decide account hub command = .resent) :
    command.commandId ∈ commands.waiting.map Prod.fst := by
  rw [Commands.decide] at h
  split at h
  · cases h
  · split at h
    · cases h
    · by_cases hfind : (commands.find command.commandId).isSome = true
      · rw [Commands.find, Option.isSome_map, List.find?_isSome] at hfind
        obtain ⟨entry, hentry, hid⟩ := hfind
        rw [← of_decide_eq_true hid]
        exact List.mem_map_of_mem hentry
      · rw [if_neg hfind] at h
        split at h
        · split_ifs at h
        · rw [target] at h
          repeat' first
            | split at h
            | simp only at h
          all_goals cases h

/-! ### What one step does to commands -/

/-- What a step makes of the commands, and whose turn it leaves. -/
inductive Handles (server : Server) : Label → Commands → List Event → Turn → Prop
  | same {label : Label} {turn : Turn} (hturn : turn = server.turn ∨ turn = .free ∨
      ∃ id, turn = .connecting id) : Handles server label server.commands [] turn
  | resent {label : Label} {reply : Reply} {id : String} (hturn : server.turn = .free)
      (hid : id ∈ server.commands.waiting.map Prod.fst) :
      Handles server label (server.commands.resend id reply).1 (server.commands.resend id reply).2
        .free
  | chosen {label : Label} {reply : Reply} {command sent : PlayerCommand} {recipient : Nat}
      (hturn : server.turn = .free)
      (h : server.commands.decide server.account server.hub command = .go sent recipient) :
      Handles server label server.commands [] (.passing reply sent recipient)
  | passed {label : Label} {reply : Reply} {command : PlayerCommand} {recipient : Nat}
      (hturn : server.turn = .passing reply command recipient) :
      Handles server label (server.commands.pass command reply recipient).1
        (server.commands.pass command reply recipient).2 .free
  | answered {id : Nat} {connection : Connection} {result : CommandResult}
      (hturn : server.turn.holdsCommands = false)
      (hconnection : server.hub.connection id = some connection)
      (hphase : connection.phase = .answering result) :
      Handles server (.answered id) (server.commands.answered id result).1
        (server.commands.answered id result).2 server.turn
  | woken {label : Label} {id : Nat} : Handles server label (server.commands.wake id) [] server.turn
  | fired {id : Nat} {timer : Timer} (hturn : server.turn.holdsCommands = false)
      (hfind : server.commands.timers.find? (fun timer => timer.id = id && timer.woken) =
        some timer) :
      Handles server (.fire id) (server.commands.fail timer).1 (server.commands.fail timer).2
        server.turn
  | failed {id : Nat} {heardAt : Int} {order : List String} {connection : Connection}
      (hturn : server.turn = .free) (hconnection : server.hub.connection id = some connection)
      (hphase : connection.phase = .left) :
      Handles server (.disconnect id heardAt order) (server.commands.failCommandsTo id order).1
        (server.commands.failCommandsTo id order).2 (.ending id heardAt)

theorem choose_handles (hturn : server.turn = .free) (reply : Reply) (command : PlayerCommand) :
    Handles server label (server.choose reply command).1.commands
      (events (server.choose reply command).2) (server.choose reply command).1.turn := by
  rw [Server.choose]
  split
  · exact .same (.inl rfl)
  · exact .same (.inl rfl)
  · rename_i hresent
    rw [events_append, events_command]
    have hhandles : Handles server label (server.commands.resend command.commandId reply).1
        (server.commands.resend command.commandId reply).2 .free :=
      .resent hturn (decide_resent hresent)
    rw [← hturn] at hhandles
    exact hhandles
  · rename_i hgo
    exact .chosen hturn hgo

theorem step_handles (server : Server) (label : Label) :
    Handles server label (step server label).1.commands (events (step server label).2)
      (step server label).1.turn := by
  cases label with
  | connect device elsewhere =>
    rw [step]
    split_ifs
    · exact .same (.inr (.inr ⟨_, rfl⟩))
    · exact .same (.inl rfl)
  | welcome now =>
    rw [step]
    split
    · exact .same (.inr (.inl rfl))
    all_goals exact .same (.inl rfl)
  | choose id =>
    rw [step]
    split
    · rename_i hturn _
      split
      · rename_i command _
        have hhandles := @choose_handles server (.choose id) hturn (.connection id) command
        simp only
        split_ifs
        · exact hhandles
        · exact hhandles
      · exact .same (.inl rfl)
    · exact .same (.inl rfl)
  | request id command =>
    rw [step]
    split_ifs with hturn
    · exact choose_handles hturn _ command
    · exact .same (.inl rfl)
  | pass =>
    rw [step]
    split
    · rename_i hturn
      rw [events_append, events_command]
      exact .passed hturn
    all_goals exact .same (.inl rfl)
  | answered id =>
    rw [step]
    split_ifs with hturn
    · exact .same (.inl rfl)
    · split
      · rename_i hconnection
        split
        · rename_i hphase
          rw [Server.finish, events_command]
          exact .answered (Bool.eq_false_iff.mpr hturn) hconnection hphase
        · exact .same (.inl rfl)
      · exact .same (.inl rfl)
  | wake timer => exact .woken
  | fire id =>
    rw [step]
    split_ifs with hturn
    · exact .same (.inl rfl)
    · split
      · rename_i hfind
        rw [Server.finish, events_command]
        exact .fired (Bool.eq_false_iff.mpr hturn) hfind
      · exact .same (.inl rfl)
  | disconnect id heardAt order =>
    rw [step]
    split
    · rename_i hturn hconnection
      split_ifs with hphase
      · rw [Server.finish, events_command]
        exact .failed hturn hconnection hphase
      · exact .same (.inl rfl)
    · exact .same (.inl rfl)
  | ended now =>
    rw [step]
    split
    · split
      · exact .same (.inr (.inl rfl))
      · exact .same (.inr (.inl rfl))
    all_goals exact .same (.inl rfl)
  | progress | checked | report | sendState | command | answer | next | leave | revoke | closeAll |
    broadcast =>
    rw [step]
    repeat' split
    all_goals exact .same (.inl rfl)

/-! ### Connections closed -/

/-- A connection that left, or whose end is being handled, is not counted. -/
structure Closed (server : Server) : Prop where
  opened : ∀ id connection, server.hub.connection id = some connection →
    connection.opened = true → connection.phase ≠ .left ∧ connection.phase ≠ .handled
  ending : ∀ id heardAt, server.turn = .ending id heardAt →
    ∃ connection, server.hub.connection id = some connection ∧ connection.opened = false

/-- A connection that left, or whose end is handled, stays closed. -/
theorem step_closed (h : Closed server) (label : Label) : Closed (step server label).1 := by
  constructor
  · intro id connection' hconnection' ho
    cases hold : server.hub.connection id with
    | some connection =>
      obtain ⟨connection'', hconnection'', hhears⟩ := step_hears label hold
      rw [hconnection'] at hconnection''
      obtain rfl := Option.some.inj hconnection''
      obtain ⟨hleft, hover⟩ := h.opened id connection hold (hhears.opened ho)
      constructor
      · intro hp
        obtain hp | hp := hhears.left hp
        · exact hleft hp
        · rw [ho] at hp
          cases hp
      · intro hp
        obtain hp | ⟨⟨heardAt, hturn⟩, -⟩ := hhears.handled hp
        · exact hover hp
        · obtain ⟨ended, hended, hclosed⟩ := h.ending id heardAt hturn
          rw [hold] at hended
          obtain rfl := Option.some.inj hended
          rw [hhears.opened ho] at hclosed
          cases hclosed
    | none =>
      obtain ⟨device, elsewhere, -, -, hhub, -⟩ | hjoins := step_joins server label
      · rw [hhub, Hub.connection, List.find?_append] at hconnection'
        rw [Hub.connection] at hold
        rw [hold, Option.none_or] at hconnection'
        rw [List.mem_singleton.mp (List.mem_of_find?_eq_some hconnection')]
        constructor
        · intro hp
          cases hp
        · intro hp
          cases hp
      · have hmem := connection_some_iff.1 ⟨connection', hconnection'⟩
        rw [hjoins.ids] at hmem
        obtain ⟨connection, hconnection⟩ := connection_some_iff.2 hmem
        rw [hold] at hconnection
        cases hconnection
  · intro id heardAt hturn
    have hhandles := step_handles server label
    have hclosed : ∃ connection, server.hub.connection id = some connection ∧
        connection.opened = false := by
      generalize (step server label).1.commands = commands at hhandles
      generalize events (step server label).2 = log at hhandles
      generalize (step server label).1.turn = turn at hhandles hturn
      cases hhandles with
      | same hsame =>
        obtain hsame | hsame | ⟨other, hsame⟩ := hsame
        · exact h.ending id heardAt (hsame.symm.trans hturn)
        · rw [hsame] at hturn
          cases hturn
        · rw [hsame] at hturn
          cases hturn
      | resent | chosen | passed => cases hturn
      | answered | woken | fired => exact h.ending id heardAt hturn
      | failed _ hconnection hphase =>
        obtain ⟨rfl, -⟩ := Turn.ending.inj hturn
        refine ⟨_, hconnection, Bool.eq_false_iff.mpr ?_⟩
        intro ho
        exact (h.opened _ _ hconnection ho).1 hphase
    obtain ⟨connection, hconnection, hno⟩ := hclosed
    obtain ⟨connection', hconnection', hhears⟩ := step_hears label hconnection
    refine ⟨connection', hconnection', Bool.eq_false_iff.mpr ?_⟩
    intro ho
    rw [hhears.opened ho] at hno
    cases hno

/-! ### What holds in every state -/

theorem finishAll_waiting {result : String → CommandResult} {cause : Cause}
    {entries : List (String × Waiting)} {commands : Commands} {entry : String × Waiting}
    (h : entry ∈ (commands.finishAll result cause entries).1.waiting) :
    entry ∈ commands.waiting ∧ entry.1 ∉ entries.map Prod.fst := by
  induction entries generalizing commands with
  | nil => exact ⟨h, List.not_mem_nil⟩
  | cons first rest ih =>
    obtain ⟨hmem, hrest⟩ := ih h
    obtain ⟨hmem, hne⟩ := List.mem_filter.mp hmem
    refine ⟨hmem, ?_⟩
    intro hany
    obtain hfirst | hany := List.mem_cons.mp hany
    · exact of_decide_eq_true hne hfirst
    · exact hrest hany

theorem endEach_waiting {commands : Commands} {order : List String} {cause : Cause}
    {ends : String → Waiting → Bool} {result : String → CommandResult} {entry : String × Waiting}
    (h : entry ∈ (commands.endEach order cause ends result).1.waiting) :
    entry ∈ commands.waiting ∧ ends entry.1 entry.2 = false := by
  obtain ⟨hmem, hnot⟩ := finishAll_waiting h
  refine ⟨hmem, Bool.eq_false_iff.mpr ?_⟩
  intro hends
  exact hnot (List.mem_map_of_mem (mem_picked.2 ⟨hmem, hends⟩))

/-- Connections that commands wait on were not handled, nor are to be. -/
structure Carried (log : List Event) (server : Server) : Prop where
  relays : Relays log server.commands
  passing : ∀ reply command recipient, server.turn = .passing reply command recipient →
    command.commandId ∉ server.commands.waiting.map Prod.fst ∧
    command.commandId ∉ server.commands.finished.map CommandResult.commandId ∧
    server.commands.waiting.length < MAX_WAITING ∧ Alive server.hub recipient
  recipients : ∀ entry ∈ server.commands.waiting, Alive server.hub entry.2.recipient ∧
    ∀ heardAt, server.turn ≠ .ending entry.2.recipient heardAt

theorem step_alive (label : Label) (h : Alive server.hub id)
    (hturn : ∀ heardAt, server.turn ≠ .ending id heardAt) : Alive (step server label).1.hub id := by
  obtain ⟨connection, hconnection, hphase⟩ := h
  obtain ⟨connection', hconnection', hhears⟩ := step_hears label hconnection
  refine ⟨connection', hconnection', ?_⟩
  intro hover
  obtain hover | ⟨⟨heardAt, hending⟩, -⟩ := hhears.handled hover
  · exact hphase hover
  · exact hturn heardAt hending

theorem decided_alive (hsound : Sound server) (hclosed : Closed server) {recipient : Nat}
    (h : server.account.bind PlayerState.activeConnection = some recipient ∨
      ∃ device, server.hub.newest device = some recipient) : Alive server.hub recipient := by
  obtain hactive | ⟨device, hnewest⟩ := h
  · obtain ⟨connection, hconnection, -, hphase⟩ := active_connection hsound rfl hactive
    exact ⟨connection, hconnection, hphase⟩
  · obtain ⟨connection, hmem, hid, hopened⟩ := newest_opened hnewest
    obtain ⟨other, hother⟩ := connection_some_iff.2 (List.mem_map.mpr ⟨connection, hmem, hid⟩)
    have hsame := List.inj_on_of_nodup_map hsound.once
      (List.mem_of_find?_eq_some hother) hmem ((connection_id hother).trans hid.symm)
    rw [hsame] at hother
    exact ⟨connection, hother, (hclosed.opened _ _ hother hopened).2⟩

/-- Commands passed on are carried from step to step, unless a late timer of an earlier passing
fires. -/
theorem step_carried (hsound : Sound server) (hclosed : Closed server) (h : Carried log server)
    (hstale : ¬ Stale server label) :
    Carried (log ++ events (step server label).2) (step server label).1 := by
  have halive : ∀ entry ∈ server.commands.waiting,
      Alive (step server label).1.hub entry.2.recipient := by
    intro entry hentry
    obtain ⟨ha, hturn⟩ := h.recipients entry hentry
    exact step_alive label ha hturn
  have halive' : ∀ reply command recipient, server.turn = .passing reply command recipient →
      Alive (step server label).1.hub recipient := by
    intro reply command recipient hturn
    refine step_alive label (h.passing reply command recipient hturn).2.2.2 ?_
    intro heardAt hending
    rw [hturn] at hending
    cases hending
  have hnewest : ∀ recipient, server.turn = .free →
      (server.account.bind PlayerState.activeConnection = some recipient ∨
        ∃ device, server.hub.newest device = some recipient) →
      Alive (step server label).1.hub recipient := by
    intro recipient hfree hrecipient
    refine step_alive label (decided_alive hsound hclosed hrecipient) ?_
    intro heardAt hending
    rw [hfree] at hending
    cases hending
  have hhandles := step_handles server label
  generalize step server label = stepped at halive halive' hnewest hhandles ⊢
  obtain ⟨⟨account, commands', hub, nextId, turn'⟩, shown⟩ := stepped
  simp only at halive halive' hnewest hhandles ⊢
  generalize events shown = log' at hhandles ⊢
  cases hhandles with
  | same hturn =>
    refine ⟨?_, ?_, ?_⟩
    · rw [List.append_nil]
      exact h.relays
    · intro reply command recipient hpassing
      obtain rfl | rfl | ⟨id, rfl⟩ := hturn
      · obtain ⟨hwaiting, hfinished, hroom, -⟩ := h.passing reply command recipient hpassing
        exact ⟨hwaiting, hfinished, hroom, halive' reply command recipient hpassing⟩
      · cases hpassing
      · cases hpassing
    · intro entry hentry
      refine ⟨halive entry hentry, ?_⟩
      intro heardAt hending
      obtain rfl | rfl | ⟨id, rfl⟩ := hturn
      · exact (h.recipients entry hentry).2 heardAt hending
      · cases hending
      · cases hending
  | resent hturn hid =>
    refine ⟨relays_resend h.relays hid _, ?_, ?_⟩
    · intro reply command recipient hpassing
      cases hpassing
    · intro entry hentry
      obtain ⟨old, ho, rfl⟩ := List.mem_map.mp hentry
      refine ⟨?_, ?_⟩
      · split_ifs
        all_goals exact halive old ho
      · intro heardAt hending
        cases hending
  | chosen hturn hgo =>
    obtain ⟨hwaiting, hfinished, hroom, hrecipient⟩ := decide_go hgo
    refine ⟨?_, ?_, ?_⟩
    · rw [List.append_nil]
      exact h.relays
    · intro reply command recipient hpassing
      obtain ⟨rfl, rfl, rfl⟩ := Turn.passing.inj hpassing
      exact ⟨hwaiting, hfinished, hroom, hnewest _ hturn hrecipient⟩
    · intro entry hentry
      refine ⟨halive entry hentry, ?_⟩
      intro heardAt hending
      cases hending
  | passed hturn =>
    obtain ⟨hwaiting, hfinished, hroom, -⟩ := h.passing _ _ _ hturn
    refine ⟨relays_pass h.relays hwaiting hfinished hroom _ _, ?_, ?_⟩
    · intro reply command recipient hpassing
      cases hpassing
    · intro entry hentry
      refine ⟨?_, ?_⟩
      · obtain hentry | hentry := List.mem_append.mp hentry
        · exact halive entry hentry
        · rw [List.mem_singleton.mp hentry]
          exact halive' _ _ _ hturn
      · intro heardAt hending
        cases hending
  | @answered id connection result hholds =>
    refine ⟨relays_answered h.relays id result, ?_, ?_⟩
    · intro reply command recipient hpassing
      have hturn : server.turn = .passing reply command recipient := hpassing
      rw [hturn] at hholds
      cases hholds
    · intro entry hentry
      have hmem : entry ∈ server.commands.waiting := by
        have hentry' : entry ∈ (server.commands.answered id result).1.waiting := hentry
        rw [Commands.answered] at hentry'
        split_ifs at hentry'
        · exact hentry'
        · exact (endEach_waiting hentry').1
      exact ⟨halive entry hmem, (h.recipients entry hmem).2⟩
  | woken =>
    refine ⟨?_, ?_, ?_⟩
    · rw [List.append_nil]
      exact relays_wake h.relays _
    · intro reply command recipient hpassing
      obtain ⟨hwaiting, hfinished, hroom, -⟩ := h.passing reply command recipient hpassing
      exact ⟨hwaiting, hfinished, hroom, halive' reply command recipient hpassing⟩
    · intro entry hentry
      exact ⟨halive entry hentry, (h.recipients entry hentry).2⟩
  | @fired id timer hholds hfind =>
    refine ⟨relays_fail h.relays ?_, ?_, ?_⟩
    · intro waiting hwaiting
      by_contra hother
      exact hstale ⟨id, timer, waiting, rfl, hfind, hwaiting, hother⟩
    · intro reply command recipient hpassing
      have hturn : server.turn = .passing reply command recipient := hpassing
      rw [hturn] at hholds
      cases hholds
    · intro entry hentry
      have hmem : entry ∈ server.commands.waiting := (endEach_waiting hentry).1
      exact ⟨halive entry hmem, (h.recipients entry hmem).2⟩
  | @failed id heardAt order =>
    refine ⟨relays_failCommandsTo h.relays id order, ?_, ?_⟩
    · intro reply command recipient hpassing
      cases hpassing
    · intro entry hentry
      obtain ⟨hmem, hnot⟩ := endEach_waiting hentry
      refine ⟨halive entry hmem, ?_⟩
      intro heardAt' hending
      obtain ⟨rfl, -⟩ := Turn.ending.inj hending
      exact of_decide_eq_false hnot rfl

/-- No timer of an earlier command fires in a run. -/
def Timely (server : Server) (labels : List Label) : Prop :=
  ∀ before label rest, labels = before ++ label :: rest → ¬ Stale (run server before).1 label

theorem start_closed (saved : Option (String × U32)) (now : Int) : Closed (.start saved now) := by
  constructor
  · intro id connection h
    cases h
  · intro id heardAt h
    cases h

theorem run_closed (saved : Option (String × U32)) (now : Int) (labels : List Label) :
    Closed (run (.start saved now) labels).1 := by
  induction labels using List.reverseRecOn with
  | nil => exact start_closed saved now
  | append_singleton labels label ih =>
    rw [run_append]
    exact step_closed ih label

theorem run_carried (saved : Option (String × U32)) (now : Int) {labels : List Label}
    (htimely : Timely (.start saved now) labels) :
    Carried (events (run (.start saved now) labels).2) (run (.start saved now) labels).1 := by
  induction labels using List.reverseRecOn with
  | nil =>
    refine ⟨relays_empty, ?_, ?_⟩
    · intro reply command recipient h
      cases h
    · intro entry h
      cases h
  | append_singleton labels label ih =>
    have hbefore : Timely (.start saved now) labels := by
      intro before next rest hsplit
      exact htimely before next (rest ++ [label]) (by rw [hsplit]; simp)
    rw [run_append, events_append]
    exact step_carried (run_sound saved now labels) (run_closed saved now labels) (ih hbefore)
      (htimely labels label [] rfl)

/-! ### How a command ends -/

theorem finishAll_ended {result : String → CommandResult} {cause cause' : Cause}
    {entries : List (String × Waiting)} {commands : Commands} {result' : CommandResult}
    {waiting : Waiting} (h : .ended result' waiting cause' ∈
      (commands.finishAll result cause entries).2) :
    cause' = cause ∧ ∃ entry ∈ entries, result' = result entry.1 ∧ waiting = entry.2 := by
  induction entries generalizing commands with
  | nil => cases h
  | cons entry entries ih =>
    obtain h | h := List.mem_cons.mp h
    · obtain ⟨rfl, rfl, rfl⟩ := Event.ended.inj h
      exact ⟨rfl, entry, List.mem_cons_self, rfl, rfl⟩
    · obtain ⟨hcause, other, ho, hrest⟩ := ih h
      exact ⟨hcause, other, List.mem_cons_of_mem _ ho, hrest⟩

theorem endEach_ended {commands : Commands} {order : List String} {cause cause' : Cause}
    {ends : String → Waiting → Bool} {result : String → CommandResult} {result' : CommandResult}
    {waiting : Waiting} (h : .ended result' waiting cause' ∈
      (commands.endEach order cause ends result).2) :
    cause' = cause ∧ ∃ id, (id, waiting) ∈ commands.waiting ∧ ends id waiting = true ∧
      result' = result id := by
  obtain ⟨hcause, entry, hentry, hresult, rfl⟩ := finishAll_ended h
  obtain ⟨hmem, hends⟩ := mem_picked.1 hentry
  exact ⟨hcause, entry.1, hmem, hends, hresult⟩

/-- A command ends as the connection it went to answers, as that one's end is handled, or as its own
timer fires. -/
inductive Ended (server : Server) (result : CommandResult) (waiting : Waiting) :
    Label → Cause → Prop
  | answer {connection : Connection} {answer : CommandResult}
      (hconnection : server.hub.connection waiting.recipient = some connection)
      (hphase : connection.phase = .answering answer) (hresult : result = answer.kept) :
      Ended server result waiting (.answered waiting.recipient) (.answer waiting.recipient)
  | gone {connection : Connection} {heardAt : Int} {order : List String}
      (hconnection : server.hub.connection waiting.recipient = some connection)
      (hphase : connection.phase = .left) :
      Ended server result waiting (.disconnect waiting.recipient heardAt order)
        (.gone waiting.recipient)
  | timer : Ended server result waiting (.fire waiting.timer) (.timer waiting.timer)

/-- A command ends by its recipient's answer or end, or by its own timer. -/
theorem step_ended (hstale : ¬ Stale server label) {result : CommandResult} {waiting : Waiting}
    {cause : Cause} (h : .ended result waiting cause ∈ events (step server label).2) :
    Ended server result waiting label cause := by
  have hhandles := step_handles server label
  generalize (step server label).1.commands = commands at hhandles
  generalize (step server label).1.turn = turn at hhandles
  generalize events (step server label).2 = log at h hhandles
  cases hhandles with
  | same | chosen | woken => cases h
  | resent => cases List.mem_singleton.mp h
  | passed =>
    obtain h | h := List.mem_cons.mp h
    · cases h
    · cases List.mem_singleton.mp h
  | @answered id connection answer _ hconnection hphase =>
    rw [Commands.answered] at h
    split_ifs at h
    · cases h
    · obtain ⟨rfl, id', -, hends, hresult⟩ := endEach_ended h
      rw [Bool.and_eq_true, decide_eq_true_eq, decide_eq_true_eq] at hends
      rw [← hends.2] at hconnection ⊢
      exact .answer hconnection hphase hresult
  | @fired id timer _ hfind =>
    obtain ⟨rfl, id', hmem, hends, -⟩ := endEach_ended h
    have hid : id' = timer.commandId := of_decide_eq_true hends
    rw [hid] at hmem
    have hfound := List.find?_some hfind
    rw [Bool.and_eq_true, decide_eq_true_eq] at hfound
    have hown : waiting.timer = timer.id := by
      by_contra hother
      exact hstale ⟨id, timer, waiting, rfl, hfind, hmem, hother⟩
    rw [← hfound.1, ← hown]
    exact .timer
  | @failed id heardAt order connection _ hconnection hphase =>
    obtain ⟨rfl, id', -, hends, -⟩ := endEach_ended h
    have hid : waiting.recipient = id := of_decide_eq_true hends
    rw [← hid] at hconnection ⊢
    exact .gone hconnection hphase

/-- A waiting command's timer, once it wakes up, ends it. -/
theorem fire_ends (h : Relays log server.commands) (hturn : server.turn.holdsCommands = false)
    {entry : String × Waiting} (hentry : entry ∈ server.commands.waiting) :
    entry.1 ∉ (step (step server (.wake entry.2.timer)).1 (.fire entry.2.timer)).1.commands.waiting.map
      Prod.fst := by
  have hwoken := relays_wake h entry.2.timer
  obtain ⟨timer, ht, hid, hcommand⟩ := h.timed entry hentry
  have hmem : { timer with woken := true } ∈ (server.commands.wake entry.2.timer).timers :=
    List.mem_map.mpr ⟨timer, ht, if_pos hid⟩
  have hfind : (server.commands.wake entry.2.timer).timers.find?
      (fun timer => timer.id = entry.2.timer && timer.woken) = some { timer with woken := true } := by
    cases hfound : (server.commands.wake entry.2.timer).timers.find?
        (fun timer => timer.id = entry.2.timer && timer.woken) with
    | none =>
      have hnone := List.find?_eq_none.mp hfound _ hmem
      rw [Bool.and_eq_true, not_and] at hnone
      exact absurd rfl (hnone (decide_eq_true hid))
    | some other =>
      have hother := List.find?_some hfound
      rw [Bool.and_eq_true, decide_eq_true_eq] at hother
      have hsame := List.inj_on_of_nodup_map hwoken.timers (List.mem_of_find?_eq_some hfound) hmem
        (hother.1.trans hid.symm)
      rw [hsame]
  rw [step, step]
  simp only
  rw [hturn, if_neg (by decide), hfind]
  intro hmem
  obtain ⟨left, hleft, hsame⟩ := List.mem_map.mp hmem
  have hno := (endEach_waiting hleft).2
  rw [hsame, hcommand] at hno
  exact of_decide_eq_false hno rfl

/-- A command sent again while its result is kept is answered with that. -/
theorem choose_again (h : Relays log server.commands) {command : PlayerCommand}
    (hvalid : command.invalid = none) {first rest : List Event} {result : CommandResult}
    {waiting : Waiting} {cause : Cause} (hlog : log = first ++ .ended result waiting cause :: rest)
    (hid : result.commandId = command.commandId) (hlate : (results rest).length < REMEMBERED)
    (reply : Reply) : server.choose reply command = (server, [.told reply (.ok result)]) := by
  have hresults : results log = results first ++ result :: results rest := by
    rw [hlog, results_append]
    rfl
  have hmem : result ∈ server.commands.finished := by
    rw [h.finished, hresults, List.length_append, List.length_cons,
      List.drop_append_of_le_length (by omega)]
    exact List.mem_append_right _ List.mem_cons_self
  have hfind : server.commands.result command.commandId = some result := by
    rw [Commands.result]
    cases hfound : server.commands.finished.find? fun result =>
        result.commandId = command.commandId with
    | none => exact absurd (decide_eq_true hid) (List.find?_eq_none.mp hfound result hmem)
    | some other =>
      have hother := List.find?_some hfound
      rw [List.inj_on_of_nodup_map h.distinct (List.mem_of_find?_eq_some hfound) hmem
        ((of_decide_eq_true hother).trans hid.symm)]
  have hdecide : server.commands.decide server.account server.hub command = .told result := by
    rw [Commands.decide, hvalid]
    simp only
    rw [hfind]
  rw [Server.choose, hdecide]

/-- Whether a message is of a command. -/
def ServerMessage.ofCommand : ServerMessage → Bool
  | .execute _ | .commandResult _ => true
  | .player _ | .sessionRevoked _ | .other _ => false

/-- An open connection is sent the commands passed to it, and the results of those that were last
sent from it. -/
theorem step_delivers {connection connection' : Connection}
    (hconnection : server.hub.connection id = some connection)
    (hconnection' : (step server label).1.hub.connection id = some connection')
    (ho : connection'.opened = true) :
    connection'.had.filter ServerMessage.ofCommand = connection.had.filter ServerMessage.ofCommand ++
      ((step server label).2.flatMap (Shown.messages id)).filter ServerMessage.ofCommand := by
  obtain ⟨connection'', hconnection'', hhears⟩ := step_hears label hconnection
  rw [hconnection'] at hconnection''
  obtain rfl := Option.some.inj hconnection''
  obtain ⟨messages, hhad, hmessages | ⟨hshown, now, -, rfl⟩⟩ := hhears.had ho
  · rw [hhad, List.filter_append, ← hmessages, List.filter_filter]
    congr 1
    apply List.filter_congr
    intro message _
    cases message <;> rfl
  · rw [hhad, hshown, List.filter_append]
    rfl

/-- **A remote command is passed on once and ends once**, where no timer that woke up for an earlier
command of its ID is left to fail it. -/
theorem relayed_once (saved : Option (String × U32)) (now : Int) (labels : List Label)
    (htimely : Timely (.start saved now) labels) :
    let server := (run (.start saved now) labels).1
    let log := events (run (.start saved now) labels).2
    Each log ∧
    (∀ first command recipient timer rest,
      log = first ++ .passed command recipient timer :: rest →
      (∃ waiting, (command.commandId, waiting) ∈ server.commands.waiting ∧
        waiting.recipient = recipient ∧ waiting.timer = timer) ∨
      ∃ result waiting cause, .ended result waiting cause ∈ rest ∧ waiting.timer = timer ∧
        result.commandId = command.commandId) ∧
    (∀ entry ∈ server.commands.waiting, server.turn.holdsCommands = false →
      entry.1 ∉ (step (step server (.wake entry.2.timer)).1
        (.fire entry.2.timer)).1.commands.waiting.map Prod.fst) ∧
    (∀ command first result waiting cause rest, command.invalid = none →
      log = first ++ .ended result waiting cause :: rest → result.commandId = command.commandId →
      (results rest).length < REMEMBERED →
      ∀ reply, server.choose reply command = (server, [.told reply (.ok result)])) ∧
    server.commands.waiting.length ≤ MAX_WAITING ∧
    (∀ entry ∈ server.commands.waiting, Alive server.hub entry.2.recipient) ∧
    ∀ label, ¬ Stale server label →
      (∀ result waiting cause, .ended result waiting cause ∈ events (step server label).2 →
        Ended server result waiting label cause) ∧
      ∀ id connection connection', server.hub.connection id = some connection →
        (step server label).1.hub.connection id = some connection' → connection'.opened = true →
        connection'.had.filter ServerMessage.ofCommand =
          connection.had.filter ServerMessage.ofCommand ++
            ((step server label).2.flatMap (Shown.messages id)).filter ServerMessage.ofCommand := by
  simp only
  obtain ⟨hrelays, -, hrecipients⟩ := run_carried saved now htimely
  refine ⟨hrelays.each, ?_, ?_, ?_, hrelays.bound, fun entry hentry => (hrecipients entry hentry).1,
    ?_⟩
  · intro first command recipient timer rest hlog
    obtain ⟨⟨id, waiting⟩, hentry, rfl, hwaiting⟩ | hended :=
      hrelays.closed first command recipient timer rest hlog
    · exact .inl ⟨waiting, hentry, hwaiting⟩
    · exact .inr hended
  · intro entry hentry hturn
    exact fire_ends hrelays hturn hentry
  · intro command first result waiting cause rest hvalid hlog hid hlate reply
    exact choose_again hrelays hvalid hlog hid hlate reply
  · intro label hstale
    refine ⟨fun result waiting cause h => step_ended hstale h, ?_⟩
    intro id connection connection' hconnection hconnection' ho
    exact step_delivers hconnection hconnection' ho

/-- A device joins and starts playing. -/
def joined : List Label :=
  [.connect 1 0, .welcome 0,
    .progress 0 ⟨"track", .playing, ⟨0, Nat.zero_le _⟩, none, true⟩, .checked 0 true true, .report 0 0]

/-- A request asks for playback, and is passed on to the device. -/
def asked (request : Nat) (id : String) : List Label := [.request request ⟨id, none, .play⟩, .pass]

/-- The device carries a command out. -/
def carriedOut (id : String) : List Label := [.answer 0 ⟨id, .applied, none⟩, .answered 0]

theorem relayed_once_answered :
    Each (events (run (.start none 0) (joined ++ asked 0 "again" ++ carriedOut "again")).2) := by
  refine (relayed_once none 0 (joined ++ asked 0 "again" ++ carriedOut "again") ?_).1
  rintro before label rest hsplit ⟨id, timer, waiting, rfl, -⟩
  have hmem : Label.fire id ∈ joined ++ asked 0 "again" ++ carriedOut "again" := by
    rw [hsplit]
    exact List.mem_append_right _ List.mem_cons_self
  simp [joined, asked, carriedOut] at hmem

/-- A timer that woke up as its command was answered, and fires once 32 others ended and the command
was sent again. -/
def late : List Label :=
  joined ++ asked 0 "again" ++ [.wake 0] ++ carriedOut "again" ++
    ((List.range 32).flatMap fun i => asked i (toString i) ++ carriedOut (toString i)) ++
    asked 33 "again" ++ [.fire 0]

set_option maxRecDepth 100000 in
theorem last_late : (events (run (.start none 0) late).2).getLast? =
    some (.ended ⟨"again", .failed, some "The device did not answer."⟩ ⟨.request 33, 0, 33⟩
      (.timer 0)) := by decide +kernel

/-- Such a timer fails the command sent again, which has its own. -/
theorem late_failed : ¬ Each (events (run (.start none 0) late).2) := by
  intro h
  obtain ⟨first, hlog⟩ := List.getLast?_eq_some_iff.mp last_late
  obtain ⟨-, -, -, htimer, -⟩ := h first _ [] hlog
  cases htimer

end JewelCase.Player
