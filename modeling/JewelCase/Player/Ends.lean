import Mathlib.Data.List.Nodup
import JewelCase.Player.Heard

/-!
# Each command passed on ends once

What the log of passed and ended commands says of those that wait and of the results kept.
-/
namespace JewelCase.Player

set_option autoImplicit false

variable {log before rest : List Event} {commands : Commands}

/-! ### A log -/

/-- The results, in the order that they came. -/
def results (log : List Event) : List CommandResult :=
  log.filterMap fun event =>
    match event with
    | .ended result _ _ => some result
    | .pending .. | .passed .. => none

/-- Where a command is sent from. -/
def Event.replyTo (id : String) : Event → Option Reply
  | .pending other reply => if other = id then some reply else none
  | .passed .. | .ended .. => none

/-- Where a command was last sent from. -/
def lastReply (log : List Event) (id : String) : Option Reply :=
  (log.filterMap (Event.replyTo id)).getLast?

/-- Why a waiting command ends so. -/
def Cause.Fits (result : CommandResult) (waiting : Waiting) : Cause → Prop
  | .answer connection => connection = waiting.recipient ∧ result.status ≠ .pending
  | .gone connection => connection = waiting.recipient ∧
      result = ⟨result.commandId, .failed, some "The device went away."⟩
  | .timer id => id = waiting.timer ∧
      result = ⟨result.commandId, .failed, some "The device did not answer."⟩

/-- An event that may come next. -/
def Justified (before : List Event) : Event → Prop
  | .passed command _ timer =>
    (∀ other recipient, .passed other recipient timer ∉ before) ∧
    ∀ first other recipient timer' rest, before = first ++ .passed other recipient timer' :: rest →
      other.commandId = command.commandId → ∃ result waiting cause rest1 rest2,
        rest = rest1 ++ .ended result waiting cause :: rest2 ∧ waiting.timer = timer' ∧
        REMEMBERED ≤ (results rest2).length
  | .pending id _ => ∃ command recipient timer, command.commandId = id ∧
      .passed command recipient timer ∈ before ∧
      ∀ result waiting cause, .ended result waiting cause ∈ before → waiting.timer ≠ timer
  | .ended result waiting cause =>
    (∃ command, command.commandId = result.commandId ∧
      .passed command waiting.recipient waiting.timer ∈ before) ∧
    (∀ other waiting' cause', .ended other waiting' cause' ∈ before →
      waiting'.timer ≠ waiting.timer) ∧
    lastReply before result.commandId = some waiting.reply ∧ cause.Fits result waiting

/-- Each event of a log follows from those before it. -/
def Each (log : List Event) : Prop :=
  ∀ first event rest, log = first ++ event :: rest → Justified first event

theorem each_append {event : Event} (h : Each log) (hevent : Justified log event) :
    Each (log ++ [event]) := by
  intro first next rest hsplit
  obtain rfl | ⟨rest, last, rfl⟩ := List.eq_nil_or_concat rest
  · obtain ⟨rfl, hnext⟩ := List.append_inj' hsplit rfl
    rw [← List.singleton_inj.mp hnext]
    exact hevent
  · rw [List.concat_eq_append, ← List.cons_append, ← List.append_assoc] at hsplit
    obtain ⟨hlog, -⟩ := List.append_inj' hsplit rfl
    exact h first next rest hlog

theorem results_append (log more : List Event) : results (log ++ more) = results log ++ results more :=
  List.filterMap_append

theorem lastReply_append {id : String} {event : Event} (hevent : ∀ reply, event ≠ .pending id reply) :
    lastReply (log ++ [event]) id = lastReply log id := by
  have hnone : event.replyTo id = none := by
    cases event with
    | passed => rfl
    | ended => rfl
    | pending other reply =>
      refine if_neg ?_
      rintro rfl
      exact hevent reply rfl
  rw [lastReply, lastReply, List.filterMap_append, List.filterMap_cons_none hnone, List.filterMap_nil,
    List.append_nil]

theorem lastReply_pending (id : String) (reply : Reply) :
    lastReply (log ++ [.pending id reply]) id = some reply := by
  have hsome : (Event.pending id reply).replyTo id = some reply := if_pos rfl
  rw [lastReply, List.filterMap_append, List.filterMap_cons_some hsome, List.filterMap_nil,
    List.getLast?_append, List.getLast?_singleton, Option.some_or]

/-- The results kept are the latest. -/
theorem remember_latest (finished : List CommandResult) (result : CommandResult) :
    remember (finished.drop (finished.length - REMEMBERED)) result =
      (finished ++ [result]).drop ((finished ++ [result]).length - REMEMBERED) := by
  have hpositive : 0 < REMEMBERED := by decide
  rw [remember, List.length_drop, List.length_append, List.length_singleton]
  by_cases hfull : REMEMBERED ≤ finished.length
  · rw [if_pos (by omega), List.tail_drop, List.drop_append_of_le_length (by omega)]
    congr 2
    omega
  · rw [if_neg (by omega)]
    have hfirst : finished.length - REMEMBERED = 0 := by omega
    have hnext : finished.length + 1 - REMEMBERED = 0 := by omega
    rw [hfirst, hnext, List.drop_zero, List.drop_zero]

/-! ### What waits -/

/-- A waiting command was passed on and has not ended since. -/
structure Waits (log : List Event) (id : String) (waiting : Waiting) : Prop where
  passed : ∃ command, command.commandId = id ∧
    .passed command waiting.recipient waiting.timer ∈ log
  unended : ∀ result other cause, .ended result other cause ∈ log → other.timer ≠ waiting.timer
  reply : lastReply log id = some waiting.reply

/-- A log, and what waits and is kept after it. -/
structure Relays (log : List Event) (commands : Commands) : Prop where
  each : Each log
  finished : commands.finished = (results log).drop ((results log).length - REMEMBERED)
  keys : (commands.waiting.map Prod.fst).Nodup
  distinct : (commands.finished.map CommandResult.commandId).Nodup
  apart : ∀ entry ∈ commands.waiting,
    entry.1 ∉ commands.finished.map CommandResult.commandId
  timed : ∀ entry ∈ commands.waiting, ∃ timer ∈ commands.timers,
    timer.id = entry.2.timer ∧ timer.commandId = entry.1
  timers : (commands.timers.map Timer.id).Nodup
  next : ∀ timer ∈ commands.timers, timer.id < commands.nextTimer
  fresh : ∀ command recipient timer, .passed command recipient timer ∈ log →
    timer < commands.nextTimer
  waits : ∀ entry ∈ commands.waiting, Waits log entry.1 entry.2
  closed : ∀ first command recipient timer rest,
    log = first ++ .passed command recipient timer :: rest →
    (∃ entry ∈ commands.waiting, entry.1 = command.commandId ∧ entry.2.recipient = recipient ∧
      entry.2.timer = timer) ∨
    ∃ result waiting cause, .ended result waiting cause ∈ rest ∧ waiting.timer = timer ∧
      result.commandId = command.commandId
  bound : commands.waiting.length ≤ MAX_WAITING

theorem relays_empty : Relays [] .empty := by
  constructor
  · intro first event rest h
    cases List.append_eq_nil_iff.mp h.symm |>.2
  · rfl
  · exact .nil
  · exact .nil
  · intro entry h
    cases h
  · intro entry h
    cases h
  · exact .nil
  · intro timer h
    cases h
  · intro command recipient timer h
    cases h
  · intro entry h
    cases h
  · intro first command recipient timer rest h
    cases List.append_eq_nil_iff.mp h.symm |>.2
  · exact Nat.zero_le _

/-- An event appended comes after all those of a split, or is its middle. -/
theorem split_append {event next : Event} {first rest : List Event}
    (h : log ++ [event] = first ++ next :: rest) :
    (∃ rest', log = first ++ next :: rest' ∧ rest = rest' ++ [event]) ∨
      first = log ∧ next = event ∧ rest = [] := by
  obtain rfl | ⟨rest', last, rfl⟩ := List.eq_nil_or_concat rest
  · obtain ⟨rfl, hnext⟩ := List.append_inj' h rfl
    exact .inr ⟨rfl, (List.singleton_inj.mp hnext).symm, rfl⟩
  · rw [List.concat_eq_append, ← List.cons_append, ← List.append_assoc] at h
    obtain ⟨hlog, hlast⟩ := List.append_inj' h rfl
    rw [List.concat_eq_append, ← List.singleton_inj.mp hlast]
    exact .inl ⟨rest', hlog, rfl⟩

/-! ### Ending -/

/-- A command that ends waits no longer, and its end is in the log once. -/
theorem relays_finish (h : Relays log commands) {entry : String × Waiting}
    (hentry : entry ∈ commands.waiting) {result : CommandResult} (hid : result.commandId = entry.1)
    {cause : Cause} (hcause : cause.Fits result entry.2) {timers : List Timer}
    (htimers : timers.Sublist commands.timers)
    (hkeep : ∀ timer ∈ commands.timers, timer.commandId ≠ entry.1 → timer ∈ timers) :
    Relays (log ++ [.ended result entry.2 cause])
      ⟨commands.waiting.filter fun other => other.1 ≠ entry.1, remember commands.finished result,
        timers, commands.nextTimer⟩ := by
  have hwaits := h.waits entry hentry
  have hresults : results (log ++ [.ended result entry.2 cause]) = results log ++ [result] :=
    results_append log _
  have hfinished : remember commands.finished result =
      (results log ++ [result]).drop ((results log ++ [result]).length - REMEMBERED) := by
    rw [h.finished, remember_latest]
  have hsub : (remember commands.finished result).Sublist (commands.finished ++ [result]) := by
    rw [remember]
    split_ifs
    · exact (List.tail_sublist _).append (List.Sublist.refl _)
    · exact List.Sublist.refl _
  have hother : ∀ other ∈ commands.waiting.filter fun other => other.1 ≠ entry.1,
      other ∈ commands.waiting ∧ other.1 ≠ entry.1 := by
    intro other ho
    obtain ⟨hmem, hne⟩ := List.mem_filter.mp ho
    exact ⟨hmem, of_decide_eq_true hne⟩
  -- Two waiting commands have different timers.
  have hdiffer : ∀ other ∈ commands.waiting, other.1 ≠ entry.1 →
      other.2.timer ≠ entry.2.timer := by
    intro other ho hne hsame
    obtain ⟨a, ha, haid, hac⟩ := h.timed other ho
    obtain ⟨b, hb, hbid, hbc⟩ := h.timed entry hentry
    have hab := List.inj_on_of_nodup_map h.timers ha hb (haid.trans (hsame.trans hbid.symm))
    rw [hab, hbc] at hac
    exact hne hac.symm
  constructor
  · apply each_append h.each
    refine ⟨?_, ?_, ?_, hcause⟩
    · rw [hid]
      exact hwaits.passed
    · exact hwaits.unended
    · rw [hid]
      exact hwaits.reply
  · rw [hresults]
    exact hfinished
  · exact (List.filter_sublist.map _).nodup h.keys
  · refine (hsub.map _).nodup ?_
    rw [List.map_append, List.map_singleton, hid]
    refine List.nodup_append.mpr ⟨h.distinct, List.nodup_singleton _, ?_⟩
    intro a ha b hb hab
    rw [hab, List.mem_singleton.mp hb] at ha
    exact h.apart entry hentry ha
  · intro other ho hmem
    obtain ⟨hmem', hne⟩ := hother other ho
    have hmem'' := (hsub.map CommandResult.commandId).subset hmem
    rw [List.map_append, List.map_singleton, hid] at hmem''
    obtain hold | hnew := List.mem_append.mp hmem''
    · exact h.apart other hmem' hold
    · exact hne (List.mem_singleton.mp hnew)
  · intro other ho
    obtain ⟨hmem, hne⟩ := hother other ho
    obtain ⟨timer, ht, htid, htc⟩ := h.timed other hmem
    exact ⟨timer, hkeep timer ht (by rwa [htc]), htid, htc⟩
  · exact (htimers.map _).nodup h.timers
  · intro timer ht
    exact h.next timer (htimers.subset ht)
  · intro command recipient timer hpassed
    obtain hpassed | hpassed := List.mem_append.mp hpassed
    · exact h.fresh command recipient timer hpassed
    · cases List.mem_singleton.mp hpassed
  · intro other ho
    obtain ⟨hmem, hne⟩ := hother other ho
    have hwaits' := h.waits other hmem
    obtain ⟨command, hcommand, hpassed⟩ := hwaits'.passed
    refine ⟨⟨command, hcommand, List.mem_append_left _ hpassed⟩, ?_, ?_⟩
    · intro result' waiting' cause' hended
      obtain hended | hended := List.mem_append.mp hended
      · exact hwaits'.unended _ _ _ hended
      · obtain ⟨-, rfl, -⟩ := Event.ended.inj (List.mem_singleton.mp hended)
        exact (hdiffer other hmem hne).symm
    · rw [lastReply_append]
      · exact hwaits'.reply
      · intro reply hr
        cases hr
  · intro first command recipient timer rest hsplit
    obtain ⟨rest', hlog, rfl⟩ | ⟨-, hnext, -⟩ := split_append hsplit
    · obtain ⟨other, ho, hoid, hor, hot⟩ | ⟨result', waiting', cause', hended, htimer⟩ :=
        h.closed first command recipient timer rest' hlog
      · by_cases hne : other.1 = entry.1
        · right
          have hsame := List.inj_on_of_nodup_map h.keys ho hentry hne
          refine ⟨result, entry.2, cause, List.mem_append_right _ List.mem_cons_self, ?_, ?_⟩
          · rw [← hsame]
            exact hot
          · rw [hid, ← hsame]
            exact hoid
        · exact .inl ⟨other, List.mem_filter.mpr ⟨ho, decide_eq_true hne⟩, hoid, hor, hot⟩
      · exact .inr ⟨result', waiting', cause', List.mem_append_left _ hended, htimer⟩
    · cases hnext
  · exact (List.length_filter_le _ _).trans h.bound

theorem abort_sublist (timers : List Timer) (id : Nat) : (abort timers id).Sublist timers :=
  List.filter_sublist

theorem abort_keeps (h : Relays log commands) {entry : String × Waiting}
    (hentry : entry ∈ commands.waiting) {timer : Timer} (ht : timer ∈ commands.timers)
    (hne : timer.commandId ≠ entry.1) : timer.id ≠ entry.2.timer := by
  intro hsame
  obtain ⟨own, ho, hid, hcommand⟩ := h.timed entry hentry
  have hown := List.inj_on_of_nodup_map h.timers ht ho (hsame.trans hid.symm)
  rw [hown] at hne
  exact hne hcommand

theorem relays_finishAll (h : Relays log commands) {result : String → CommandResult} {cause : Cause}
    {entries : List (String × Waiting)} (hkeys : (entries.map Prod.fst).Nodup)
    (hentries : ∀ entry ∈ entries, entry ∈ commands.waiting ∧
      (result entry.1).commandId = entry.1 ∧ cause.Fits (result entry.1) entry.2) :
    Relays (log ++ (commands.finishAll result cause entries).2)
      (commands.finishAll result cause entries).1 := by
  induction entries generalizing log commands with
  | nil =>
    rw [Commands.finishAll, List.append_nil]
    exact h
  | cons entry entries ih =>
    obtain ⟨hmem, hid, hcause⟩ := hentries entry List.mem_cons_self
    have hfinish : Relays (log ++ [.ended (result entry.1) entry.2 cause])
        (commands.finish entry (result entry.1)) := by
      refine relays_finish h hmem hid hcause (abort_sublist _ _) ?_
      intro timer ht hne
      refine List.mem_filter.mpr ⟨ht, decide_eq_true ?_⟩
      intro hsame
      exact abort_keeps h hmem ht hne hsame.1
    rw [List.map_cons, List.nodup_cons] at hkeys
    have hrest := ih hfinish hkeys.2 ?_
    · rw [List.append_assoc] at hrest
      exact hrest
    · intro other ho
      obtain ⟨homem, hoid, hocause⟩ := hentries other (List.mem_cons_of_mem _ ho)
      refine ⟨List.mem_filter.mpr ⟨homem, decide_eq_true ?_⟩, hoid, hocause⟩
      intro hsame
      exact hkeys.1 (List.mem_map.mpr ⟨other, ho, hsame⟩)

/-- The commands picked to end, in the order that a map gives them. -/
def picked (commands : Commands) (order : List String) (ends : String → Waiting → Bool) :
    List (String × Waiting) :=
  (commands.waiting.filter fun entry => ends entry.1 entry.2).insertionSort
    fun a b => order.idxOf a.1 ≤ order.idxOf b.1

theorem mem_picked {order : List String} {ends : String → Waiting → Bool}
    {entry : String × Waiting} : entry ∈ picked commands order ends ↔
      entry ∈ commands.waiting ∧ ends entry.1 entry.2 = true := by
  rw [picked, (List.perm_insertionSort _ _).mem_iff, List.mem_filter]

theorem picked_keys (h : (commands.waiting.map Prod.fst).Nodup) (order : List String)
    (ends : String → Waiting → Bool) : ((picked commands order ends).map Prod.fst).Nodup := by
  rw [picked, ((List.perm_insertionSort _ _).map Prod.fst).nodup_iff]
  exact (List.filter_sublist.map _).nodup h

theorem relays_endEach (h : Relays log commands) {order : List String} {cause : Cause}
    {ends : String → Waiting → Bool} {result : String → CommandResult}
    (hends : ∀ id waiting, (id, waiting) ∈ commands.waiting → ends id waiting = true →
      (result id).commandId = id ∧ cause.Fits (result id) waiting) :
    Relays (log ++ (commands.endEach order cause ends result).2)
      (commands.endEach order cause ends result).1 := by
  refine relays_finishAll h (picked_keys h.keys order ends) ?_
  intro entry hentry
  obtain ⟨hmem, hpicked⟩ := mem_picked.1 hentry
  exact ⟨hmem, hends entry.1 entry.2 hmem hpicked⟩

/-- An answer ends the command it is of, or nothing. -/
theorem relays_answered (h : Relays log commands) (connection : Nat) (result : CommandResult) :
    Relays (log ++ (commands.answered connection result).2)
      (commands.answered connection result).1 := by
  rw [Commands.answered]
  split_ifs with hpending
  · rw [List.append_nil]
    exact h
  · refine relays_endEach h ?_
    intro id waiting _ hends
    simp only [Bool.and_eq_true, decide_eq_true_eq] at hends
    exact ⟨hends.1.symm, hends.2.symm, hpending⟩

theorem relays_failCommandsTo (h : Relays log commands) (connection : Nat) (order : List String) :
    Relays (log ++ (commands.failCommandsTo connection order).2)
      (commands.failCommandsTo connection order).1 := by
  refine relays_endEach h ?_
  intro id waiting _ hends
  exact ⟨rfl, (of_decide_eq_true hends).symm, rfl⟩

/-- Timers may go that no waiting command has. -/
theorem relays_timers (h : Relays log commands) {timers : List Timer}
    (htimers : timers.Sublist commands.timers) (hkeep : ∀ entry ∈ commands.waiting,
      ∀ timer ∈ commands.timers, timer.commandId = entry.1 → timer ∈ timers) :
    Relays log { commands with timers := timers } := by
  refine ⟨h.each, h.finished, h.keys, h.distinct, h.apart, ?_, (htimers.map _).nodup h.timers,
    fun timer ht => h.next timer (htimers.subset ht), h.fresh, h.waits, h.closed, h.bound⟩
  intro entry hentry
  obtain ⟨timer, ht, hid, hcommand⟩ := h.timed entry hentry
  exact ⟨timer, hkeep entry hentry timer ht hcommand, hid, hcommand⟩

/-- A waiting command's own timer fails it. -/
theorem relays_fail (h : Relays log commands) {timer : Timer}
    (hown : ∀ waiting, (timer.commandId, waiting) ∈ commands.waiting → waiting.timer = timer.id) :
    Relays (log ++ (commands.fail timer).2) (commands.fail timer).1 := by
  have herase : (commands.timers.erase timer).Sublist commands.timers := List.erase_sublist
  have hfail : commands.fail timer =
      ({ commands with timers := commands.timers.erase timer } : Commands).finishAll
        (fun id => ⟨id, .failed, some "The device did not answer."⟩) (.timer timer.id)
        (picked { commands with timers := commands.timers.erase timer } []
          fun id _ => id = timer.commandId) := rfl
  rw [hfail]
  have hkeys := @picked_keys { commands with timers := commands.timers.erase timer } h.keys []
    fun id _ => id = timer.commandId
  have hpicked : ∀ entry ∈ picked { commands with timers := commands.timers.erase timer } []
      (fun id _ => id = timer.commandId), entry ∈ commands.waiting ∧ entry.1 = timer.commandId := by
    intro entry hentry
    obtain ⟨hmem, hends⟩ := mem_picked.1 hentry
    exact ⟨hmem, of_decide_eq_true hends⟩
  have hnone : ∀ entry ∈ commands.waiting, entry.1 = timer.commandId →
      entry ∈ picked { commands with timers := commands.timers.erase timer } []
        (fun id _ => id = timer.commandId) := by
    intro entry hmem hid
    exact mem_picked.2 ⟨hmem, decide_eq_true hid⟩
  generalize picked { commands with timers := commands.timers.erase timer } []
    (fun id _ => id = timer.commandId) = entries at *
  cases entries with
  | nil =>
    rw [Commands.finishAll, List.append_nil]
    refine relays_timers h herase ?_
    intro entry hmem other ho hcommand
    refine (List.mem_erase_of_ne ?_).mpr ho
    rintro rfl
    cases hnone entry hmem hcommand.symm
  | cons entry rest =>
    cases rest with
    | cons other rest =>
      rw [List.map_cons, List.map_cons, List.nodup_cons] at hkeys
      refine absurd ?_ hkeys.1
      rw [(hpicked entry List.mem_cons_self).2,
        (hpicked other (List.mem_cons_of_mem _ List.mem_cons_self)).2]
      exact List.mem_cons_self
    | nil =>
      obtain ⟨hmem, hid⟩ := hpicked entry List.mem_cons_self
      have htimer := hown entry.2 (by rw [← hid]; exact hmem)
      have hcause : (Cause.timer timer.id).Fits
          ⟨entry.1, .failed, some "The device did not answer."⟩ entry.2 := ⟨htimer.symm, rfl⟩
      refine relays_finish h hmem rfl hcause ((abort_sublist _ _).trans herase) ?_
      intro other ho hne
      refine List.mem_filter.mpr ⟨(List.mem_erase_of_ne ?_).mpr ho, decide_eq_true ?_⟩
      · rintro rfl
        exact hne hid.symm
      · intro hsame
        exact abort_keeps h hmem ho hne hsame.1

/-! ### Sending -/

theorem relays_wake (h : Relays log commands) (id : Nat) : Relays log (commands.wake id) := by
  have hids : (commands.timers.map fun timer =>
      if timer.id = id then { timer with woken := true } else timer).map Timer.id =
        commands.timers.map Timer.id := by
    rw [List.map_map]
    apply List.map_congr_left
    intro timer _
    rw [Function.comp_apply]
    split_ifs
    all_goals rfl
  refine ⟨h.each, h.finished, h.keys, h.distinct, h.apart, ?_, ?_, ?_, h.fresh, h.waits, h.closed,
    h.bound⟩
  · intro entry hentry
    obtain ⟨timer, ht, htid, hcommand⟩ := h.timed entry hentry
    refine ⟨_, List.mem_map_of_mem ht, ?_⟩
    split_ifs
    all_goals exact ⟨htid, hcommand⟩
  · rw [Commands.wake, hids]
    exact h.timers
  · intro timer ht
    obtain ⟨old, ho, rfl⟩ := List.mem_map.mp ht
    have hlt := h.next old ho
    split_ifs
    all_goals exact hlt

/-- A command sent again goes to where it was sent from last. -/
theorem relays_resend (h : Relays log commands) {id : String}
    (hid : id ∈ commands.waiting.map Prod.fst) (reply : Reply) :
    Relays (log ++ (commands.resend id reply).2) (commands.resend id reply).1 := by
  have hkeys : (commands.resend id reply).1.waiting.map Prod.fst =
      commands.waiting.map Prod.fst := by
    rw [Commands.resend, List.map_map]
    apply List.map_congr_left
    intro entry _
    rw [Function.comp_apply]
    split_ifs
    all_goals rfl
  have hold : ∀ entry ∈ (commands.resend id reply).1.waiting, ∃ old ∈ commands.waiting,
      entry.1 = old.1 ∧ entry.2.timer = old.2.timer ∧ entry.2.recipient = old.2.recipient ∧
        entry.2.reply = if old.1 = id then reply else old.2.reply := by
    intro entry hentry
    obtain ⟨old, ho, rfl⟩ := List.mem_map.mp hentry
    refine ⟨old, ho, ?_⟩
    split_ifs
    all_goals exact ⟨rfl, rfl, rfl, rfl⟩
  have hnew : ∀ old ∈ commands.waiting, ∃ entry ∈ (commands.resend id reply).1.waiting,
      entry.1 = old.1 ∧ entry.2.timer = old.2.timer ∧ entry.2.recipient = old.2.recipient := by
    intro old ho
    refine ⟨_, List.mem_map_of_mem ho, ?_⟩
    split_ifs
    all_goals exact ⟨rfl, rfl, rfl⟩
  have hresults : results (log ++ [.pending id reply]) = results log := by
    rw [results_append]
    exact List.append_nil _
  rw [show (commands.resend id reply).2 = [.pending id reply] from rfl]
  constructor
  · apply each_append h.each
    obtain ⟨entry, hentry, rfl⟩ := List.mem_map.mp hid
    obtain ⟨command, hcommand, hpassed⟩ := (h.waits entry hentry).passed
    exact ⟨command, _, _, hcommand, hpassed, (h.waits entry hentry).unended⟩
  · rw [hresults]
    exact h.finished
  · rw [hkeys]
    exact h.keys
  · exact h.distinct
  · intro entry hentry
    obtain ⟨old, ho, hkey, -⟩ := hold entry hentry
    rw [hkey]
    exact h.apart old ho
  · intro entry hentry
    obtain ⟨old, ho, hkey, htimer, -⟩ := hold entry hentry
    rw [hkey, htimer]
    exact h.timed old ho
  · exact h.timers
  · exact h.next
  · intro command recipient timer hpassed
    obtain hpassed | hpassed := List.mem_append.mp hpassed
    · exact h.fresh command recipient timer hpassed
    · cases List.mem_singleton.mp hpassed
  · intro entry hentry
    obtain ⟨old, ho, hkey, htimer, hrecipient, hreply⟩ := hold entry hentry
    have hwaits := h.waits old ho
    refine ⟨?_, ?_, ?_⟩
    · rw [hkey, htimer, hrecipient]
      obtain ⟨command, hcommand, hpassed⟩ := hwaits.passed
      exact ⟨command, hcommand, List.mem_append_left _ hpassed⟩
    · intro result other cause hended
      obtain hended | hended := List.mem_append.mp hended
      · rw [htimer]
        exact hwaits.unended result other cause hended
      · cases List.mem_singleton.mp hended
    · rw [hkey, hreply]
      split_ifs with hsame
      · rw [hsame]
        exact lastReply_pending id reply
      · rw [lastReply_append]
        · exact hwaits.reply
        · intro other hother
          exact hsame (Event.pending.inj hother).1.symm
  · intro first command recipient timer rest hsplit
    obtain ⟨rest', hlog, rfl⟩ | ⟨-, hnext, -⟩ := split_append hsplit
    · obtain ⟨old, ho, hoid, hor, hot⟩ | ⟨result, waiting, cause, hended, htimer⟩ :=
        h.closed first command recipient timer rest' hlog
      · obtain ⟨entry, hentry, hkey, htimer, hrecipient⟩ := hnew old ho
        exact .inl ⟨entry, hentry, hkey.trans hoid, hrecipient.trans hor, htimer.trans hot⟩
      · exact .inr ⟨result, waiting, cause, List.mem_append_left _ hended, htimer⟩
    · cases hnext
  · rw [Commands.resend, List.length_map]
    exact h.bound

theorem find_none {id : String} (h : (commands.find id).isSome = false) :
    id ∉ commands.waiting.map Prod.fst := by
  intro hmem
  obtain ⟨entry, hentry, rfl⟩ := List.mem_map.mp hmem
  rw [Commands.find, Option.isSome_map, List.find?_isSome.mpr ⟨entry, hentry, decide_eq_true rfl⟩] at h
  cases h

theorem result_none {id : String} (h : commands.result id = none) :
    id ∉ commands.finished.map CommandResult.commandId := by
  intro hmem
  obtain ⟨result, hresult, rfl⟩ := List.mem_map.mp hmem
  exact List.find?_eq_none.mp h result hresult (decide_eq_true rfl)

/-- A command whose result is no longer kept came before as many others. -/
theorem forgotten_result (h : Relays log commands) {first rest : List Event} {result : CommandResult}
    {waiting : Waiting} {cause : Cause} (hlog : log = first ++ .ended result waiting cause :: rest)
    (hnone : result.commandId ∉ commands.finished.map CommandResult.commandId) :
    REMEMBERED ≤ (results rest).length := by
  by_contra hfew
  have hresults : results log = results first ++ result :: results rest := by
    rw [hlog, results_append]
    rfl
  refine hnone (List.mem_map_of_mem ?_)
  rw [h.finished, hresults, List.length_append, List.length_cons,
    List.drop_append_of_le_length (by omega)]
  exact List.mem_append_right _ List.mem_cons_self

/-- A command that neither waits nor is kept is passed on. -/
theorem relays_pass (h : Relays log commands) {command : PlayerCommand}
    (hwaiting : command.commandId ∉ commands.waiting.map Prod.fst)
    (hfinished : command.commandId ∉ commands.finished.map CommandResult.commandId)
    (hroom : commands.waiting.length < MAX_WAITING) (reply : Reply) (recipient : Nat) :
    Relays (log ++ (commands.pass command reply recipient).2)
      (commands.pass command reply recipient).1 := by
  have hevents : log ++ (commands.pass command reply recipient).2 =
      log ++ [.passed command recipient commands.nextTimer] ++
        [.pending command.commandId reply] := by
    rw [List.append_assoc]
    rfl
  have hended : ∀ result waiting cause, .ended result waiting cause ∈
      log ++ [.passed command recipient commands.nextTimer] ++ [.pending command.commandId reply] →
        .ended result waiting cause ∈ log := by
    intro result waiting cause hmem
    obtain hmem | hmem := List.mem_append.mp hmem
    · obtain hmem | hmem := List.mem_append.mp hmem
      · exact hmem
      · cases List.mem_singleton.mp hmem
    · cases List.mem_singleton.mp hmem
  -- A timer that some command ended with is an older one.
  have hused : ∀ result waiting cause, .ended result waiting cause ∈ log →
      waiting.timer ≠ commands.nextTimer := by
    intro result waiting cause hmem hsame
    obtain ⟨first, rest, rfl⟩ := List.append_of_mem hmem
    obtain ⟨⟨passed, -, hpassed⟩, -⟩ := h.each first _ rest rfl
    have hlt := h.fresh _ _ _ (List.mem_append_left _ hpassed)
    omega
  have hresults : results (log ++ [.passed command recipient commands.nextTimer] ++
      [.pending command.commandId reply]) = results log := by
    rw [results_append, results_append]
    exact (List.append_nil _).trans (List.append_nil _)
  rw [hevents]
  constructor
  · refine each_append (each_append h.each ⟨?_, ?_⟩) ?_
    · intro other recipient' hmem
      exact Nat.lt_irrefl _ (h.fresh other recipient' _ hmem)
    · intro first other recipient' timer' rest hlog hid
      obtain ⟨entry, hentry, heid, -⟩ | ⟨result, waiting, cause, hmem, htimer, hresult⟩ :=
        h.closed first other recipient' timer' rest hlog
      · refine absurd ?_ hwaiting
        rw [← hid, ← heid]
        exact List.mem_map_of_mem hentry
      · obtain ⟨rest1, rest2, rfl⟩ := List.append_of_mem hmem
        refine ⟨result, waiting, cause, rest1, rest2, rfl, htimer, ?_⟩
        refine @forgotten_result _ _ h
          (first ++ .passed other recipient' timer' :: rest1) rest2 result waiting cause ?_ ?_
        · rw [hlog]
          simp
        · rw [hresult, hid]
          exact hfinished
    · refine ⟨command, recipient, commands.nextTimer, rfl,
        List.mem_append_right _ List.mem_cons_self, ?_⟩
      intro result waiting cause hmem
      exact hused result waiting cause (hended _ _ _ (List.mem_append_left _ hmem))
  · rw [hresults]
    exact h.finished
  · rw [Commands.pass, List.map_append]
    refine List.nodup_append.mpr ⟨h.keys, List.nodup_singleton _, ?_⟩
    intro a ha b hb hab
    rw [hab, List.mem_singleton.mp hb] at ha
    exact hwaiting ha
  · exact h.distinct
  · intro entry hentry
    obtain hentry | hentry := List.mem_append.mp hentry
    · exact h.apart entry hentry
    · rw [List.mem_singleton.mp hentry]
      exact hfinished
  · intro entry hentry
    obtain hentry | hentry := List.mem_append.mp hentry
    · obtain ⟨timer, ht, hid, hcommand⟩ := h.timed entry hentry
      exact ⟨timer, List.mem_append_left _ ht, hid, hcommand⟩
    · rw [List.mem_singleton.mp hentry]
      exact ⟨_, List.mem_append_right _ List.mem_cons_self, rfl, rfl⟩
  · rw [Commands.pass, List.map_append]
    refine List.nodup_append.mpr ⟨h.timers, List.nodup_singleton _, ?_⟩
    intro a ha b hb hab
    obtain ⟨timer, ht, rfl⟩ := List.mem_map.mp ha
    have hlt := h.next timer ht
    rw [hab, List.mem_singleton.mp hb] at hlt
    exact Nat.lt_irrefl _ hlt
  · intro timer ht
    obtain ht | ht := List.mem_append.mp ht
    · exact Nat.lt_succ_of_lt (h.next timer ht)
    · rw [List.mem_singleton.mp ht]
      exact Nat.lt_succ_self _
  · intro other recipient' timer hmem
    obtain hmem | hmem := List.mem_append.mp hmem
    · obtain hmem | hmem := List.mem_append.mp hmem
      · exact Nat.lt_succ_of_lt (h.fresh other recipient' timer hmem)
      · obtain ⟨-, -, rfl⟩ := Event.passed.inj (List.mem_singleton.mp hmem)
        exact Nat.lt_succ_self _
    · cases List.mem_singleton.mp hmem
  · intro entry hentry
    obtain hentry | hentry := List.mem_append.mp hentry
    · have hwaits := h.waits entry hentry
      obtain ⟨passed, hpassed, hmem⟩ := hwaits.passed
      refine ⟨⟨passed, hpassed, List.mem_append_left _ (List.mem_append_left _ hmem)⟩, ?_, ?_⟩
      · intro result other cause hmem
        exact hwaits.unended result other cause (hended _ _ _ hmem)
      · rw [lastReply_append, lastReply_append]
        · exact hwaits.reply
        · intro other hother
          cases hother
        · intro other hother
          rw [(Event.pending.inj hother).1] at hwaiting
          exact hwaiting (List.mem_map_of_mem hentry)
    · rw [List.mem_singleton.mp hentry]
      refine ⟨⟨command, rfl, ?_⟩, ?_, lastReply_pending _ reply⟩
      · exact List.mem_append_left _ (List.mem_append_right _ List.mem_cons_self)
      · intro result other cause hmem
        exact hused result other cause (hended _ _ _ hmem)
  · intro first other recipient' timer rest hsplit
    obtain ⟨rest', hlog, rfl⟩ | ⟨-, hnext, -⟩ := split_append hsplit
    · obtain ⟨rest'', hlog', rfl⟩ | ⟨-, hnext, -⟩ := split_append hlog
      · obtain ⟨entry, hentry, hrest⟩ | ⟨result, waiting, cause, hmem, hrest⟩ :=
          h.closed first other recipient' timer rest'' hlog'
        · exact .inl ⟨entry, List.mem_append_left _ hentry, hrest⟩
        · exact .inr ⟨result, waiting, cause,
            List.mem_append_left _ (List.mem_append_left _ hmem), hrest⟩
      · obtain ⟨rfl, rfl, rfl⟩ := Event.passed.inj hnext
        exact .inl ⟨_, List.mem_append_right _ List.mem_cons_self, rfl, rfl, rfl⟩
    · cases hnext
  · rw [Commands.pass, List.length_append, List.length_singleton]
    exact hroom

end JewelCase.Player
