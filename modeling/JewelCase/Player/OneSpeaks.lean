import JewelCase.Player.Heard

/-!
# One connection plays, and only it speaks

What an account plays names one connection, and a report of another changes it only by a start. Each
open connection hears the states in the order they were made.
-/
namespace JewelCase.Player

set_option autoImplicit false

variable {id : Nat} {server : Server} {label : Label} {connection : Connection}

/-! ### Taking over -/

/-- A step applies a start of connection `id`. -/
def Starts (server : Server) (id : Nat) (label : Label) : Prop :=
  ∃ now device update state, label = .report id now ∧
    Applies server id now device update state ∧ update.starts = true

/-- A connection that is not playing is not until it starts. -/
theorem step_taken (hold : server.account.bind PlayerState.activeConnection ≠ some id)
    (hstarts : ¬ Starts server id label) :
    (step server label).1.account.bind PlayerState.activeConnection ≠ some id := by
  have hmakes := step_makes server label
  generalize (step server label).1.account = account at *
  generalize mades (step server label).2 = made at *
  cases hmakes with
  | same => exact hold
  | ended _ hended =>
    obtain ⟨old, -, -, rfl⟩ := disconnected_some hended
    intro h
    cases h
  | @report other now device update state happlies =>
    obtain ⟨hspeaks, hconsistent, -, hnames, -⟩ := report_ok happlies.ok
    intro hid
    have hactive : state.activeConnection = some id := hid
    have hname := (hnames (hconsistent.connection.mp (by rw [hactive]; rfl))).2
    rw [hactive] at hname
    obtain rfl := Option.some.inj hname
    obtain hspeaks | hspeaks := hspeaks
    · exact hstarts ⟨now, device, update, state, rfl, happlies, hspeaks⟩
    · exact hold hspeaks

theorem run_cons (server : Server) (labels : List Label) (label : Label) (more : List Label) :
    (run server (labels ++ label :: more)).1 =
      (run (step (run server labels).1 label).1 more).1 := by
  induction more using List.reverseRecOn with
  | nil =>
    rw [run_append]
    rfl
  | append_singleton more next ih =>
    rw [show labels ++ label :: (more ++ [next]) = (labels ++ label :: more) ++ [next] by simp,
      run_append, run_append, ih]

/-! ### Volume -/

/-- The active device that a run leaves. -/
def activeAfter (server : Server) (labels : List Label) : Option Int :=
  (run server labels).1.account.bind PlayerState.activeDeviceId

/-- A volume was reported by `device`, which is the active one from then on or until none is. -/
def Reports (server : Server) (labels : List Label) (volume : Rat) (device : Int) : Prop :=
  ∃ before id now later update state, labels = before ++ .report id now :: later ∧
    Applies (run server before).1 id now device update state ∧ update.volume = some volume ∧
    ∀ first rest, later = first ++ rest →
      activeAfter server (before ++ .report id now :: first) = some device ∨
      activeAfter server (before ++ .report id now :: first) = none ∧
        activeAfter server labels = none

theorem reports_append {labels : List Label} {volume : Rat} {device : Int}
    (h : Reports server labels volume device) (hlast : activeAfter server (labels ++ [label]) =
      some device ∨ activeAfter server (labels ++ [label]) = none)
    (hnone : activeAfter server labels = none → activeAfter server (labels ++ [label]) = none) :
    Reports server (labels ++ [label]) volume device := by
  obtain ⟨before, id, now, later, update, state, rfl, happlies, hvolume, hactive⟩ := h
  refine ⟨before, id, now, later ++ [label], update, state, by simp, happlies, hvolume, ?_⟩
  intro first rest hsplit
  obtain ⟨rest', rfl⟩ | rfl : (∃ rest', later = first ++ rest') ∨ first = later ++ [label] := by
    obtain rfl | ⟨rest, last, rfl⟩ := List.eq_nil_or_concat rest
    · rw [List.append_nil] at hsplit
      exact .inr hsplit.symm
    · rw [List.concat_eq_append, ← List.append_assoc] at hsplit
      obtain ⟨hlater, -⟩ := List.append_inj' hsplit rfl
      exact .inl ⟨rest, hlater⟩
  · obtain hsame | ⟨hsome, hend⟩ := hactive first rest' rfl
    · exact .inl hsame
    · exact .inr ⟨hsome, hnone hend⟩
  · have hlabels : before ++ Label.report id now :: (later ++ [label]) =
        before ++ Label.report id now :: later ++ [label] := by simp
    rw [hlabels]
    obtain hlast | hlast := hlast
    · exact .inl hlast
    · exact .inr ⟨hlast, hlast⟩

/-- The volume is one that the active device reported since it last became active. -/
theorem run_volume (saved : Option (String × U32)) (now : Int) (labels : List Label) {volume : Rat}
    (hvolume : (run (.start saved now) labels).1.account.bind PlayerState.volume = some volume) :
    ∃ device, Reports (.start saved now) labels volume device := by
  induction labels using List.reverseRecOn with
  | nil =>
    obtain ⟨state, hstate, hsome⟩ := Option.bind_eq_some_iff.mp hvolume
    obtain ⟨place, -, rfl⟩ := Option.map_eq_some_iff.mp hstate
    cases hsome
  | append_singleton labels label ih =>
    have hmakes := step_makes (run (.start saved now) labels).1 label
    have hafter : activeAfter (.start saved now) (labels ++ [label]) =
        (step (run (.start saved now) labels).1 label).1.account.bind
          PlayerState.activeDeviceId := by
      rw [activeAfter, run_append]
    rw [run_append] at hvolume
    generalize (step (run (.start saved now) labels).1 label).1.account = account at *
    generalize mades (step (run (.start saved now) labels).1 label).2 = made at *
    cases hmakes with
    | same =>
      obtain ⟨device, hreports⟩ := ih hvolume
      refine ⟨device, reports_append hreports ?_ ?_⟩
      · rw [hafter]
        have hsplit := hreports
        obtain ⟨before, id, now, later, -, -, rfl, -, -, hactive⟩ := hsplit
        obtain hactive | ⟨hactive, -⟩ := hactive later [] (List.append_nil _).symm
        · exact .inl hactive
        · exact .inr hactive
      · intro hnone
        rw [hafter]
        exact hnone
    | ended _ hended =>
      obtain ⟨old, hold, -, rfl⟩ := disconnected_some hended
      rw [hold] at ih
      obtain ⟨device, hreports⟩ := ih hvolume
      exact ⟨device, reports_append hreports (.inr hafter) fun _ => hafter⟩
    | @report id now' device update state happlies =>
      obtain ⟨-, hconsistent, -, hnames, -, -, -, hkept⟩ := report_ok happlies.ok
      have hdevice : activeAfter (.start saved now) (labels ++ [.report id now']) = some device ∨
          activeAfter (.start saved now) (labels ++ [.report id now']) = none := by
        rw [hafter]
        by_cases hstatus : state.status = .stopped
        · right
          have hnone := hconsistent.device.not.mpr (not_not.mpr hstatus)
          rwa [Option.not_isSome_iff_eq_none] at hnone
        · exact .inl (hnames hstatus).1
      obtain hkept | ⟨-, hsame, hkept⟩ := hkept
      · refine ⟨device, labels, id, now', [], update, state, rfl, happlies, ?_, ?_⟩
        · rw [← hkept]
          exact hvolume
        · intro first rest hsplit
          obtain ⟨rfl, -⟩ := List.append_eq_nil_iff.mp hsplit.symm
          obtain hdevice | hdevice := hdevice
          · exact .inl hdevice
          · exact .inr ⟨hdevice, hdevice⟩
      · have hold : (run (.start saved now) labels).1.account.bind PlayerState.volume =
            some volume := by
          rw [← hkept]
          exact hvolume
        obtain ⟨other, hreports⟩ := ih hold
        have hsplit := hreports
        obtain ⟨before, id', now'', later, -, -, rfl, -, -, hactive⟩ := hsplit
        obtain hactive | ⟨hactive, -⟩ := hactive later [] (List.append_nil _).symm
        · have hother : some other = some device := hactive.symm.trans hsame
          obtain rfl := Option.some.inj hother
          refine ⟨other, reports_append hreports hdevice ?_⟩
          intro hnone
          rw [hactive] at hnone
          cases hnone
        · have hnone : (none : Option Int) = some device := hactive.symm.trans hsame
          cases hnone

/-! ### What connections hear -/

/-- A connection that joined as an account's state was `first` heard each state `made` since in
order, and some of them again. -/
inductive Follows (first : Option PlayerState) : List PlayerState → List PlayerState → Prop
  | first (now : Int) : Follows first [] [first.getD (.initial now)]
  | again {made heard : List PlayerState} (now : Int) (h : Follows first made heard) :
      Follows first made (heard ++ [(made.getLast?.or first).getD (.initial now)])
  | next {made heard : List PlayerState} (state : PlayerState) (h : Follows first made heard) :
      Follows first (made ++ [state]) (heard ++ [state])

/-- The state is the last one made. -/
theorem step_last {made : List PlayerState} {first : Option PlayerState} (label : Label)
    (h : server.account = made.getLast?.or first) :
    (step server label).1.account = (made ++ mades (step server label).2).getLast?.or first := by
  have hmakes := step_makes server label
  generalize (step server label).1.account = account at *
  generalize mades (step server label).2 = more at *
  cases hmakes with
  | same => rw [List.append_nil, ← h]
  | report => rw [List.getLast?_append, List.getLast?_singleton, Option.some_or, Option.some_or]
  | ended => rw [List.getLast?_append, List.getLast?_singleton, Option.some_or, Option.some_or]

/-- The connection a welcome is for hears the state first. -/
theorem welcome_hears (h : Sound server) (hturn : server.turn = .connecting id) (now : Int) :
    ∃ connection, (step server (.welcome now)).1.hub.connection id = some connection ∧
      (connection.opened = true → Follows server.account [] connection.states) := by
  obtain ⟨connection, hconnection, hstates⟩ := h.connecting id hturn
  obtain ⟨connection', hconnection', hmoves⟩ :=
    @sends_send server.hub id id (.player (server.current now)) connection hconnection
  rw [if_pos rfl] at hmoves
  rw [step, hturn]
  simp only
  rw [connection_become hconnection', if_pos rfl]
  refine ⟨_, rfl, ?_⟩
  intro ho
  have hheard : connection'.states = [server.current now] := by
    rw [Connection.states, hmoves.had ho, List.filterMap_append, ← Connection.states,
      hstates (hmoves.opened ho)]
    rfl
  have hsame : ({ connection' with phase := Phase.serving } : Connection).states =
      [server.current now] := hheard
  rw [hsame]
  exact .first now

/-- From its welcome on, an open connection is sent each state as it is made. -/
theorem run_follows (h : Sound server) (hturn : server.turn = .connecting id) (now : Int)
    (labels : List Label) :
    let welcomed := (step server (.welcome now)).1
    (run welcomed labels).1.account = (mades (run welcomed labels).2).getLast?.or server.account ∧
    ∃ connection, (run welcomed labels).1.hub.connection id = some connection ∧
      (connection.opened = true →
        Follows server.account (mades (run welcomed labels).2) connection.states) := by
  simp only
  induction labels using List.reverseRecOn with
  | nil =>
    refine ⟨?_, welcome_hears h hturn now⟩
    exact (mades_connecting hturn (.welcome now)).1
  | append_singleton labels label ih =>
    obtain ⟨haccount, connection, hconnection, hfollows⟩ := ih
    rw [run_append]
    simp only [mades_append]
    refine ⟨step_last label haccount, ?_⟩
    obtain ⟨connection', hconnection', hhears⟩ := step_hears label hconnection
    refine ⟨connection', hconnection', ?_⟩
    intro ho
    obtain hheard | ⟨hmade, now', -, hheard⟩ := hears_states hhears ho
    · rw [hheard]
      have hmakes := step_makes (run (step server (.welcome now)).1 labels).1 label
      generalize (step (run (step server (.welcome now)).1 labels).1 label).1.account = account at *
      generalize mades (step (run (step server (.welcome now)).1 labels).1 label).2 = made at *
      cases hmakes with
      | same =>
        rw [List.append_nil, List.append_nil]
        exact hfollows (hhears.opened ho)
      | @report _ _ _ _ state => exact .next state (hfollows (hhears.opened ho))
      | @ended _ _ _ state => exact .next state (hfollows (hhears.opened ho))
    · rw [hheard, hmade, List.append_nil, Server.current, haccount]
      exact .again now' (hfollows (hhears.opened ho))

/-! ### Refusals and ends -/

/-- A report that neither starts nor is of the connection playing changes nothing. -/
theorem report_refused {update : ProgressReport} {now : Int} (hturn : server.turn = .free)
    (hconnection : server.hub.connection id = some connection)
    (hphase : connection.phase = .reporting update) (hstarts : update.starts = false)
    (hactive : server.account.bind PlayerState.activeConnection ≠ some id) :
    step server (.report id now) =
      ({ server with hub := server.hub.become id .refusing }, []) := by
  rw [step, hturn, hconnection]
  simp only [hphase]
  cases hreport : report server.account connection.device id now update with
  | error problem => rfl
  | ok state =>
    obtain ⟨hspeaks, -⟩ := report_ok hreport
    obtain hspeaks | hspeaks := hspeaks
    · rw [hstarts] at hspeaks
      cases hspeaks
    · exact absurd hspeaks hactive

theorem ended_account {heardAt : Int} (hturn : server.turn = .ending id heardAt) (now : Int) :
    (step server (.ended now)).1.account =
      (disconnected server.account id heardAt now).or server.account := by
  rw [step, hturn]
  simp only
  cases hended : disconnected server.account id heardAt now with
  | none => rfl
  | some state => rfl

/-- A connection's end changes the state exactly when it was the one playing. -/
theorem ended_changes (h : Sound server) {heardAt : Int} (hturn : server.turn = .ending id heardAt)
    (now : Int) : (step server (.ended now)).1.account ≠ server.account ↔
      server.account.bind PlayerState.activeConnection = some id := by
  rw [ended_account hturn]
  cases hended : disconnected server.account id heardAt now with
  | none =>
    rw [Option.none_or]
    exact iff_of_false (fun hne => hne rfl) (disconnected_none hended)
  | some state =>
    obtain ⟨old, hold, hactive, rfl⟩ := disconnected_some hended
    rw [Option.some_or, hold]
    refine iff_of_true ?_ hactive
    intro hsame
    have hstatus := (h.active old hold).1.connection.mp (by rw [hactive]; rfl)
    rw [← Option.some.inj hsame] at hstatus
    exact hstatus rfl

theorem ended_position {heardAt now : Int} {old new : PlayerState}
    (hturn : server.turn = .ending id heardAt) (hold : server.account = some old)
    (hactive : old.activeConnection = some id)
    (hnew : (step server (.ended now)).1.account = some new) :
    new.status = .stopped ∧ old.positionMs.val ≤ new.positionMs.val ∧
      new.positionMs.val ≤ old.positionMs.val + (heardAt - old.positionAt).toNat := by
  rw [ended_account hturn, hold, disconnected, Option.bind_some, if_pos hactive, Option.some_or] at hnew
  rw [← Option.some.inj hnew]
  exact ⟨rfl, playedTo_le old heardAt⟩

/-- **One connection plays, and only it speaks**, however reports, commands, connections and their
ends come between each other. -/
theorem one_speaks (saved : Option (String × U32)) (now : Int) (labels : List Label) :
    let server := (run (.start saved now) labels).1
    (∀ state, server.account = some state →
      (state.activeDeviceId.isSome ↔ state.status ≠ .stopped) ∧
      (state.activeConnection.isSome ↔ state.status ≠ .stopped) ∧
      ∀ id, state.activeConnection = some id → ∃ connection,
        server.hub.connection id = some connection ∧
          state.activeDeviceId = some connection.device ∧ connection.phase ≠ .handled) ∧
    (∀ id connection update now, server.turn = .free →
      server.hub.connection id = some connection → connection.phase = .reporting update →
      update.starts = false → server.account.bind PlayerState.activeConnection ≠ some id →
      step server (.report id now) =
        ({ server with hub := server.hub.become id .refusing }, [])) ∧
    (∀ label, (step server label).1.account ≠ server.account →
      (∃ id now device update state, label = .report id now ∧
        Applies server id now device update state) ∨
      ∃ id heardAt now, label = .ended now ∧ server.turn = .ending id heardAt ∧
        server.account.bind PlayerState.activeConnection = some id) ∧
    (∀ before id now' later device update state, labels = before ++ .report id now' :: later →
      Applies (run (.start saved now) before).1 id now' device update state →
      update.starts = true → ∀ old ≠ id, (∀ first next rest, later = first ++ next :: rest →
        ¬ Starts (run (.start saved now) (before ++ .report id now' :: first)).1 old next) →
      ∀ now'' device' update' state', Applies server old now'' device' update' state' →
        update'.starts = true) ∧
    (∀ id heardAt now, server.turn = .ending id heardAt →
      ((step server (.ended now)).1.account ≠ server.account ↔
        server.account.bind PlayerState.activeConnection = some id) ∧
      ∀ old new, server.account = some old → old.activeConnection = some id →
        (step server (.ended now)).1.account = some new → new.status = .stopped ∧
          old.positionMs.val ≤ new.positionMs.val ∧
          new.positionMs.val ≤ old.positionMs.val + (heardAt - old.positionAt).toNat) ∧
    (∀ volume, server.account.bind PlayerState.volume = some volume →
      ∃ device, Reports (.start saved now) labels volume device) ∧
    ∀ before now' later id, labels = before ++ .welcome now' :: later →
      (run (.start saved now) before).1.turn = .connecting id →
      ∃ connection, server.hub.connection id = some connection ∧
        (connection.opened = true → Follows (run (.start saved now) before).1.account
          (mades (run (step (run (.start saved now) before).1 (.welcome now')).1 later).2)
          connection.states) := by
  simp only
  have hsound := run_sound saved now labels
  refine ⟨?_, ?_, ?_, ?_, ?_, ?_, ?_⟩
  · intro state hstate
    obtain ⟨hconsistent, hnamed⟩ := hsound.active state hstate
    exact ⟨hconsistent.device, hconsistent.connection, hnamed⟩
  · intro id connection update now hturn hconnection hphase hstarts hactive
    exact report_refused hturn hconnection hphase hstarts hactive
  · intro label hchanged
    have hmakes := step_makes (run (.start saved now) labels).1 label
    generalize (step (run (.start saved now) labels).1 label).1.account = account at *
    generalize mades (step (run (.start saved now) labels).1 label).2 = made at *
    cases hmakes with
    | same => exact absurd rfl hchanged
    | report happlies => exact .inl ⟨_, _, _, _, _, rfl, happlies⟩
    | ended hturn hended =>
      obtain ⟨old, hold, hactive, -⟩ := disconnected_some hended
      refine .inr ⟨_, _, _, rfl, hturn, ?_⟩
      rw [hold]
      exact hactive
  · rintro before id now' later device update state rfl happlies hstarts old hold hnot now'' device'
      update' state' happlies'
    have hquiet : ∀ first rest, later = first ++ rest →
        (run (.start saved now) (before ++ .report id now' :: first)).1.account.bind
          PlayerState.activeConnection ≠ some old := by
      intro first
      induction first using List.reverseRecOn with
      | nil =>
        intro rest _
        rw [run_append]
        have hmakes := step_makes (run (.start saved now) before).1 (.report id now')
        have hok := happlies.ok
        obtain ⟨connection, hconnection, hdevice, hphase⟩ := happlies.reporting
        have hactive := (report_ok hok).2.2.2.1 ?_
        · rw [step, happlies.free, hconnection]
          simp only [hphase, hdevice, hok]
          intro hsame
          have hname : state.activeConnection = some old := hsame
          rw [hactive.2] at hname
          exact hold (Option.some.inj hname).symm
        · rw [(report_ok hok).2.2.1]
          rw [ProgressReport.starts, Bool.and_eq_true, Bool.not_eq_true', decide_eq_false_iff_not]
            at hstarts
          cases hstatus : update.status with
          | stopped => exact absurd hstatus hstarts.2
          | playing | paused | buffering =>
            intro h
            cases h
      | append_singleton first next ih =>
        intro rest hsplit
        rw [List.append_assoc] at hsplit
        have hlabels : before ++ Label.report id now' :: (first ++ [next]) =
            before ++ Label.report id now' :: first ++ [next] := by simp
        rw [hlabels, run_append]
        exact step_taken (ih _ hsplit) (hnot first next rest hsplit)
    obtain hspeaks | hspeaks := (report_ok happlies'.ok).1
    · exact hspeaks
    · exact absurd hspeaks (hquiet later [] (List.append_nil _).symm)
  · intro id heardAt now' hturn
    refine ⟨ended_changes hsound hturn now', ?_⟩
    intro old new hold hactive hnew
    exact ended_position hturn hold hactive hnew
  · intro volume hvolume
    exact run_volume saved now labels hvolume
  · rintro before now' later id rfl hturn
    rw [run_cons]
    exact (run_follows (run_sound saved now before) hturn now' later).2

/-- A report of a track that plays from its start. -/
def playing (start : Bool) : ProgressReport := ⟨"track", .playing, ⟨0, Nat.zero_le _⟩, none, start⟩

/-- A device joins and starts playing. -/
def startsPlaying (id : Nat) (device now : Int) : List Label :=
  [.connect device 0, .welcome now, .progress id (playing true), .checked id true true,
    .report id now]

/-- One device takes over from another, whose next report does not start. -/
def takenOver : List Label :=
  startsPlaying 0 1 0 ++ startsPlaying 1 2 1 ++ [.progress 0 (playing false), .checked 0 true true]

/-- The report of the one taken over from changes nothing, and would not unless it started; the end
of the other stops what plays. -/
theorem one_speaks_taken_over :
    let server := (run (.start none 0) takenOver).1
    let ending := (run (.start none 0) (takenOver ++ [.leave 1, .disconnect 1 3 []])).1
    server.account.bind PlayerState.activeDeviceId = some 2 ∧
      step server (.report 0 2) = ({ server with hub := server.hub.become 0 .refusing }, []) ∧
      (∀ now device update state, Applies server 0 now device update state →
        update.starts = true) ∧
      (step ending (.ended 3)).1.account ≠ ending.account := by
  intro server ending
  obtain ⟨-, hrefused, -, htaken, -, -, -⟩ := one_speaks none 0 takenOver
  obtain ⟨-, -, -, -, hends, -, -⟩ :=
    one_speaks none 0 (takenOver ++ [.leave 1, .disconnect 1 3 []])
  obtain ⟨connection, hconnection, hphase⟩ : ∃ connection,
      server.hub.connection 0 = some connection ∧ connection.phase = .reporting (playing false) :=
    ⟨_, rfl, rfl⟩
  have hstarts : Applies (run (.start none 0) (takenOver.take 9)).1 1 1 2 (playing true)
      ⟨.playing, some 2, some 1, some "track", ⟨0, Nat.zero_le _⟩, 1, none⟩ :=
    ⟨rfl, ⟨_, rfl, rfl, rfl⟩, rfl⟩
  refine ⟨by decide +kernel, ?_, ?_, ?_⟩
  · exact hrefused 0 connection (playing false) 2 rfl hconnection hphase rfl (by decide +kernel)
  · refine htaken (takenOver.take 9) 1 1 (takenOver.drop 10) 2 (playing true) _ rfl hstarts rfl 0
      (by decide) ?_
    rintro first next rest hsplit ⟨now, device, update, state, rfl, -, -⟩
    have hmem : Label.report 0 now ∈ takenOver.drop 10 := by
      rw [hsplit]
      exact List.mem_append_right _ List.mem_cons_self
    simp [takenOver, startsPlaying] at hmem
  · exact (hends 1 3 3 rfl).1.mpr (by decide +kernel)

end JewelCase.Player
