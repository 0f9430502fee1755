import JewelCase.Network.Turns

/-!
# Queues that are forgotten

A queue that is idle holds no turn up, so forgetting it changes none, but for its run of pauses: one
that was kept would still count them, and pause longer. A queue whose run is over once it is idle
may be kept or forgotten alike.
-/
namespace JewelCase.Network

set_option autoImplicit false

variable {parseHttpDate : List Char → Option Int} {kept full : Queues} {host : String}
  {queues : List (Scope × Nat)} {now start : Nat}

/-! ### Forgotten or kept -/

/-- A queue that is forgotten and the one that is kept. -/
def Forgot (now : Nat) (kept full : Option Queue) : Prop :=
  kept = full ∨ kept = none ∧ ∃ queue, full = some queue ∧ queue.next ≤ now ∧ queue.throttled = 0

theorem Forgot.mono {kept full : Option Queue} {later : Nat} (h : Forgot now kept full)
    (hle : now ≤ later) : Forgot later kept full := by
  obtain h | ⟨hk, queue, hf, hn, ht⟩ := h
  · exact .inl h
  · exact .inr ⟨hk, queue, hf, Nat.le_trans hn hle, ht⟩

/-- A queue that is forgotten counts no pause. -/
theorem forgot_throttled {kept full : Option Queue} (h : Forgot now kept full) :
    (kept.getD ⟨now, 0⟩).throttled = (full.getD ⟨now, 0⟩).throttled := by
  obtain rfl | ⟨rfl, queue, rfl, -, ht⟩ := h
  · rfl
  · exact ht.symm

/-- It holds no turn up. -/
theorem forgot_startOf (h : ∀ key, Forgot now (kept key) (full key)) :
    startOf kept host queues now = startOf full host queues now := by
  apply Nat.le_antisymm
  · obtain hnow | ⟨queue, hq, entry, hentry, he⟩ := @startOf_mem kept host queues now
    · rw [hnow]
      exact now_le_startOf
    · rw [← he]
      obtain heq | ⟨hnone, -⟩ := h (host, queue.1)
      · rw [heq] at hentry
        exact next_le_startOf hq hentry
      · rw [hnone] at hentry
        cases hentry
  · obtain hnow | ⟨queue, hq, entry, hentry, he⟩ := @startOf_mem full host queues now
    · rw [hnow]
      exact now_le_startOf
    · rw [← he]
      obtain heq | ⟨-, other, hfull, hn, -⟩ := h (host, queue.1)
      · rw [← heq] at hentry
        exact next_le_startOf hq hentry
      · rw [hfull] at hentry
        obtain rfl := Option.some.inj hentry
        exact Nat.le_trans hn now_le_startOf

theorem forgot_set (h : ∀ key, Forgot now (kept key) (full key)) {key : Key}
    {entry other : Option Queue} (he : Forgot now entry other) (k : Key) :
    Forgot now (kept.set key entry k) (full.set key other k) := by
  by_cases hk : k = key
  · rw [hk, set_self, set_self]
    exact he
  · rw [set_ne _ hk, set_ne _ hk]
    exact h k

/-- A pause set is the same: it ends no sooner than any idle queue. -/
theorem forgot_paused {kept full : Option Queue} (h : Forgot now kept full) (wait : Nat → Nat) :
    max (kept.getD ⟨now, 0⟩).next (now + wait (kept.getD ⟨now, 0⟩).throttled) =
      max (full.getD ⟨now, 0⟩).next (now + wait (full.getD ⟨now, 0⟩).throttled) := by
  rw [forgot_throttled h]
  obtain rfl | ⟨rfl, queue, rfl, hn, -⟩ := h
  · rfl
  · rw [Option.getD_none, Option.getD_some, Nat.max_eq_right (Nat.le_add_right _ _),
      Nat.max_eq_right (Nat.le_trans hn (Nat.le_add_right _ _))]

theorem set_get (kept : Queues) (key : Key) : kept.set key (kept key) = kept := by
  funext other
  by_cases h : other = key
  · rw [h, set_self]
  · exact set_ne _ h _

section
variable [Clock]

/-- A queue is kept for ever. -/
def Queue.keep (_now : Nat) (queue : Queue) : Option Queue := some queue

/-- A queue is kept for ever, and its run of pauses is over once it is idle. -/
def Queue.settle (now : Nat) (queue : Queue) : Option Queue :=
  some (if queue.idle now then { queue with throttled := 0 } else queue)

/-- Tidied and settled, a queue is forgotten or kept. -/
theorem forgot_tidy (now : Nat) (queue : Queue) :
    Forgot now (queue.tidy now) (queue.settle now) := by
  unfold Queue.tidy Queue.settle
  by_cases hidle : queue.idle now = true
  · rw [if_pos hidle, if_pos hidle]
    exact .inr ⟨rfl, _, rfl, (of_decide_eq_true hidle).1, rfl⟩
  · rw [if_neg hidle, if_neg hidle]
    exact .inl rfl

/-- Tidied once more, it still is. -/
theorem forgot_bind {kept full : Option Queue} (h : Forgot now kept full) :
    Forgot now (kept.bind (Queue.tidy now)) (full.bind (Queue.settle now)) := by
  obtain rfl | ⟨rfl, queue, rfl, hn, ht⟩ := h
  · cases kept with
    | none => exact .inl rfl
    | some queue => exact forgot_tidy now queue
  · have hidle : queue.idle now = true := decide_eq_true ⟨hn, .inl ht⟩
    refine .inr ⟨rfl, { queue with throttled := 0 }, ?_, hn, rfl⟩
    rw [Option.bind_some, Queue.settle, if_pos hidle]

theorem forgot_take (h : ∀ key, Forgot now (kept key) (full key)) (k : Key) :
    Forgot now (queues.foldl (take Queue.tidy host start now) kept k)
      (queues.foldl (take Queue.settle host start now) full k) := by
  induction queues generalizing kept full with
  | nil => exact h k
  | cons queue queues ih =>
    rw [List.foldl_cons, List.foldl_cons]
    apply ih
    intro key
    apply forgot_set h
    have ht := forgot_throttled (h (host, queue.1))
    rw [ht]
    exact forgot_tidy now _

/-- A turn is the same, and takes the same. -/
theorem forgot_turn (h : ∀ key, Forgot now (kept key) (full key)) :
    (turn Queue.tidy kept host queues now).1 = (turn Queue.settle full host queues now).1 ∧
    ∀ key, Forgot now ((turn Queue.tidy kept host queues now).2 key)
      ((turn Queue.settle full host queues now).2 key) := by
  have hstart : startOf kept host queues now = startOf full host queues now := forgot_startOf h
  by_cases hlate : now + MAX_WAIT < startOf kept host queues now
  · rw [turn_late hlate, hstart] at *
    rw [turn_late hlate]
    exact ⟨rfl, h⟩
  · rw [turn_soon hlate, hstart] at *
    rw [turn_soon hlate]
    exact ⟨rfl, fun key => forgot_take h key⟩

theorem forgot_answered (answer : Answer)
    (h : ∀ key, Forgot answer.now (kept key) (full key)) (key : Key) :
    Forgot answer.now (answered parseHttpDate Queue.tidy kept answer key)
      (answered parseHttpDate Queue.settle full answer key) := by
  cases ht : answer.throttles with
  | true =>
    rw [answered_throttled Queue.tidy ht rfl rfl, answered_throttled Queue.settle ht rfl rfl]
    have hk := forgot_bind (h (answer.host, answer.scope))
    apply forgot_set (fun key => forgot_bind (h key))
    rw [forgot_paused hk, forgot_throttled hk]
    exact .inl rfl
  | false =>
    cases hfull : full (answer.host, answer.scope) with
    | none =>
      have hk : kept (answer.host, answer.scope) = none := by
        obtain heq | ⟨hnone, -⟩ := h (answer.host, answer.scope)
        · rw [heq, hfull]
        · exact hnone
      rw [answered_none Queue.tidy ht hk, answered_none Queue.settle ht hfull]
      exact h key
    | some queue =>
      rw [answered_some Queue.settle ht hfull]
      obtain heq | ⟨hnone, other, hother, hn, -⟩ := h (answer.host, answer.scope)
      · rw [hfull] at heq
        rw [answered_some Queue.tidy ht heq]
        exact forgot_set h (forgot_tidy _ _) key
      · rw [hfull] at hother
        obtain rfl := Option.some.inj hother
        rw [answered_none Queue.tidy ht hnone, ← set_get kept (answer.host, answer.scope), hnone]
        have hidle : (⟨queue.next, 0⟩ : Queue).idle answer.now = true :=
          decide_eq_true ⟨hn, .inl rfl⟩
        apply forgot_set h
        rw [Queue.settle, if_pos hidle]
        exact .inr ⟨rfl, _, rfl, hn, rfl⟩

/-- **A call leaves what is kept and what is forgotten in step.** -/
theorem forgot_step (call : Call) (h : ∀ key, Forgot now (kept key) (full key))
    (hle : now ≤ call.now) (key : Key) :
    Forgot call.now (step parseHttpDate Queue.tidy kept call key)
      (step parseHttpDate Queue.settle full call key) := by
  have hlater := fun key => (h key).mono hle
  cases call with
  | turn host queues time => exact (forgot_turn hlater).2 key
  | answered answer => exact forgot_answered answer hlater key

/-- **So does a run.** -/
theorem forgot_run (calls : List Call) (h : ∀ key, Forgot now (kept key) (full key))
    (hsorted : (now :: calls.map Call.now).Pairwise (· ≤ ·)) (key : Key) :
    Forgot ((now :: calls.map Call.now).getLast (by simp))
      (calls.foldl (step parseHttpDate Queue.tidy) kept key)
      (calls.foldl (step parseHttpDate Queue.settle) full key) := by
  induction calls generalizing kept full now with
  | nil => exact h key
  | cons call calls ih =>
    rw [List.map_cons, List.pairwise_cons] at hsorted
    exact ih (forgot_step call h (hsorted.1 _ List.mem_cons_self)) hsorted.2

/-- **Forgotten or kept until it settles, a queue lets the same turns go.** -/
theorem forgot_after {calls : List Call}
    (hsorted : (calls.map Call.now ++ [now]).Pairwise (· ≤ ·)) :
    (turn Queue.tidy (after parseHttpDate Queue.tidy calls) host queues now).1 =
      (turn Queue.settle (after parseHttpDate Queue.settle calls) host queues now).1 := by
  have hrun := fun key => @forgot_run parseHttpDate noQueues noQueues 0 _ calls
    (fun _ => .inl rfl) (sorted_from hsorted) key
  exact (forgot_turn fun key => (hrun key).mono (last_le hsorted)).1

/-! ### Turns after any run -/

/-- A pause asked for is as long as that, up to the longest. -/
theorem pauseSet_asked {answer : Answer} {asked : Nat}
    (h : (answer.retryAfter.bind fun value =>
      parseRetryAfter parseHttpDate value answer.clock) = some asked) :
    pauseSet parseHttpDate kept answer = min asked MAX_PAUSE := by
  rw [pauseSet, Answer.pause, h, pause, Option.getD_some]

/-- A granted turn is the latest of what is owed, and a refused one is that far. -/
theorem turn_latest {owed : List Demand} (h : Paced kept owed now) :
    (∀ start, (turn Queue.tidy kept host queues now).1 = .ok start →
      Latest owed host queues now start ∧ start ≤ now + MAX_WAIT) ∧
    ∀ wait, (turn Queue.tidy kept host queues now).1 = .error wait →
      Latest owed host queues now (now + wait) ∧ MAX_WAIT < wait ∧
        (turn Queue.tidy kept host queues now).2 = kept := by
  have hlatest := @startOf_latest kept host queues now owed h
  constructor
  · intro start hstart
    obtain ⟨rfl, hle, -⟩ := turn_granted hstart
    exact ⟨hlatest, hle⟩
  · intro wait hwait
    obtain ⟨rfl, hlt, hkept⟩ := turn_refused hwait
    rw [show now + (startOf kept host queues now - now) = startOf kept host queues now by omega]
    exact ⟨hlatest, by omega, hkept⟩

/-- **Requests to a host keep their gaps and their pauses.** After any run of calls, a turn goes at
the latest of now and what the run demanded of its scopes, or is refused with the time left when
that is too far. No queue that was forgotten lets it go earlier, but that a run of pauses is over
once its last has long passed. -/
theorem turns_paced (parseHttpDate : List Char → Option Int) (calls : List Call) (host : String)
    (queues : List (Scope × Nat)) (now : Nat)
    (hsorted : (calls.map Call.now ++ [now]).Pairwise (· ≤ ·)) :
    (∀ start, (turn Queue.tidy (after parseHttpDate Queue.tidy calls) host queues now).1 = .ok start →
      (Latest (ledger parseHttpDate noQueues calls) host queues now start ∧ start ≤ now + MAX_WAIT) ∧
      (∀ before between earlier time first scope gap,
        calls = before ++ .turn host earlier time :: between →
        (turn Queue.tidy (after parseHttpDate Queue.tidy before) host earlier time).1 = .ok first →
        gapOf earlier scope = some gap → (∃ queue ∈ queues, queue.1 = scope) →
          first + gap ≤ start) ∧
      ∀ before between answer, calls = before ++ .answered answer :: between →
        answer.throttles = true → answer.host = host →
        (∃ queue ∈ queues, queue.1 = answer.scope) →
          answer.now + pauseSet parseHttpDate (after parseHttpDate Queue.tidy before) answer ≤ start) ∧
    (∀ wait, (turn Queue.tidy (after parseHttpDate Queue.tidy calls) host queues now).1 =
        .error wait →
      Latest (ledger parseHttpDate noQueues calls) host queues now (now + wait) ∧ MAX_WAIT < wait ∧
        (turn Queue.tidy (after parseHttpDate Queue.tidy calls) host queues now).2 =
          after parseHttpDate Queue.tidy calls) ∧
    (∀ kept (answer : Answer) asked, (answer.retryAfter.bind fun value =>
        parseRetryAfter parseHttpDate value answer.clock) = some asked →
      pauseSet parseHttpDate kept answer = min asked MAX_PAUSE) ∧
    (turn Queue.tidy (after parseHttpDate Queue.tidy calls) host queues now).1 =
      (turn Queue.settle (after parseHttpDate Queue.settle calls) host queues now).1 := by
  have hlatest := @turn_latest (after parseHttpDate Queue.tidy calls) host queues now _ _
    (paced_after hsorted)
  refine ⟨?_, hlatest.2, fun kept answer asked => pauseSet_asked, forgot_after hsorted⟩
  intro start hstart
  have hgranted := hlatest.1 start hstart
  refine ⟨hgranted, ?_, ?_⟩
  · intro before between earlier time first scope gap hcalls hfirst hgap hwaits
    have hdemand : ⟨host, scope, first + gap⟩ ∈ demands parseHttpDate
        (after parseHttpDate Queue.tidy before) (.turn host earlier time) :=
      (mem_demands hfirst).mpr ⟨rfl, gap, hgap, rfl⟩
    have hmem := @mem_ledger parseHttpDate _ _ between _ _ hdemand
    rw [← hcalls] at hmem
    exact hgranted.1.time_le _ hmem rfl hwaits
  · intro before between answer hcalls hthrottles hhost hwaits
    have hdemand : ⟨answer.host, answer.scope, answer.now +
        pauseSet parseHttpDate (after parseHttpDate Queue.tidy before) answer⟩ ∈
        demands parseHttpDate (after parseHttpDate Queue.tidy before) (.answered answer) := by
      rw [demands, if_pos hthrottles]
      exact List.mem_singleton_self _
    have hmem := @mem_ledger parseHttpDate _ _ between _ _ hdemand
    rw [← hcalls] at hmem
    exact hgranted.1.time_le _ hmem hhost hwaits

end

/-- A request, answered with a `503` a second later. A second is a tick. -/
def throttledOnce : List Call :=
  [.turn "api.example" [(.host, 3)] 0,
    .answered ⟨"api.example", .host, 503, some ['5'], 1, 0, fun wait => wait⟩]

/-- The next waits for the pause. -/
theorem turns_paced_once :
    (throttledOnce.map Call.now ++ [2]).Pairwise (· ≤ ·) ∧
    (@turn seconds (@Queue.tidy seconds) (@after seconds (fun _ => none) (@Queue.tidy seconds) throttledOnce)
      "api.example" [(.host, 3)] 2).1 = .ok 6 ∧
    @pauseSet seconds (fun _ => none) noQueues
      ⟨"api.example", .host, 503, some ['5'], 1, 0, fun wait => wait⟩ = 5 := by
  have hsorted : (throttledOnce.map Call.now ++ [2]).Pairwise (· ≤ ·) := by decide
  have hpaced := @turns_paced seconds (fun _ => none) throttledOnce "api.example" [(.host, 3)] 2 hsorted
  refine ⟨hsorted, ?_, ?_⟩
  · rw [hpaced.2.2.2]
    decide +kernel
  · rw [hpaced.2.2.1 noQueues _ 5 (by decide +kernel)]
    decide +kernel

/-- An hour after one `429`, another. A draw is half of what it is from. -/
def anHourApart : List Call :=
  [.answered ⟨"api.example", .host, 429, some ['0'], 0, 0, fun wait => wait / 2⟩,
    .answered ⟨"api.example", .host, 429, none, 3600 * 1000000000, 0, fun wait => wait / 2⟩]

/-- Its queue forgotten, the second pauses half as long as it would have. -/
theorem forgotten_sooner :
    (anHourApart.map Call.now ++ [3600 * 1000000000]).Pairwise (· ≤ ·) ∧
    (@turn nanoseconds (@Queue.tidy nanoseconds)
      (@after nanoseconds (fun _ => none) (@Queue.tidy nanoseconds) anHourApart)
      "api.example" [(.host, 0)] (3600 * 1000000000)).1 = .ok 3600500000000 ∧
    (@turn nanoseconds Queue.keep (@after nanoseconds (fun _ => none) Queue.keep anHourApart)
      "api.example" [(.host, 0)] (3600 * 1000000000)).1 = .ok 3601000000000 := by
  decide +kernel

end JewelCase.Network
