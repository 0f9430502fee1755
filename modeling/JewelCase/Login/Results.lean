import JewelCase.Login.Bounded

/-!
# What the sign-in limits promise

Over every run: how many checks an hour holds, how long a refusal lasts, what an owner waits for
where they signed in before, and which sums fit.
-/
namespace JewelCase.Login

open JewelCase.Network.Cache (Text IpAddr)

set_option autoImplicit false

/-! ### Waits end -/

/-- An attempt older than the longest wait holds no one up. -/
theorem waitMs_of_old {attempts : List Attempt} {now : Int}
    (hold : ∀ a ∈ attempts, a.attemptedAt + MAX_WAIT_MS ≤ now) (username : Text)
    (account : Option Account) (origin : IpAddr) :
    waitMs attempts username account origin now ≤ 0 := by
  refine Int.max_le.mpr ⟨?_, ?_⟩
  · exact wait_failures_of_old fun a ha => hold a (List.mem_of_mem_filter ha)
  · exact wait_failures_of_old fun a ha => hold a (List.mem_of_mem_filter ha)

/-- No one waits longer than the longest wait. -/
theorem waitMs_le {attempts : List Attempt} {now : Int}
    (hpast : ∀ a ∈ attempts, a.attemptedAt ≤ now) (username : Text) (account : Option Account)
    (origin : IpAddr) : waitMs attempts username account origin now ≤ MAX_WAIT_MS := by
  refine Int.max_le.mpr ⟨?_, ?_⟩
  · exact wait_failures_le fun a ha => hpast a (List.mem_of_mem_filter ha)
  · exact wait_failures_le fun a ha => hpast a (List.mem_of_mem_filter ha)

namespace Server

theorem Agree.attempts_past {s : Server} (h : s.Agree) {a : Attempt} (ha : a ∈ s.attempts) :
    a.attemptedAt ≤ s.now := by
  obtain ⟨c, hc, hrow⟩ := h.checked a ha
  exact hrow.attemptedAt ▸ h.past c hc

/-- When the checks of a server were made. -/
def checkTimes (s : Server) : List Int := s.checks.map (·.checkedAt)

theorem checkTimes_ended {s s' : Server} {attempt : Nat} {outcome : Outcome}
    (hchecks : s'.checks = s.checks.map (ended attempt outcome)) :
    s'.checkTimes = s.checkTimes := by
  rw [checkTimes, hchecks, List.map_map]
  exact List.map_congr_left fun c _ => ended_checkedAt attempt outcome c

/-- A step makes at most one check, at its own time. -/
theorem checkTimes_step (s : Server) (event : Event) :
    (s.step event).checkTimes = s.checkTimes ∨
      (s.step event).checkTimes = (s.step event).now :: s.checkTimes := by
  cases event with
  | login elapsed username account origin =>
    obtain ⟨hsame, -⟩ | ⟨-, -, hnew⟩ := (s.after elapsed).login_cases username account origin
    · exact Or.inl (by rw [step, hsame]; rfl)
    · exact Or.inr (by rw [step, hnew]; rfl)
  | verified elapsed attempt right =>
    obtain ⟨-, he⟩ | he := (s.after elapsed).verified_cases attempt right
    · exact Or.inl (by rw [step, he]; exact checkTimes_ended rfl)
    · exact Or.inl (by rw [step, he]; exact checkTimes_ended rfl)
  | setup elapsed username user origin => exact Or.inr rfl
  | sweep elapsed ids => exact Or.inl rfl
  | forget user => exact Or.inl rfl

theorem now_step (s : Server) (event : Event) : s.now ≤ (s.step event).now := by
  have hafter : ∀ elapsed, s.now ≤ (s.after elapsed).now := fun elapsed => by
    simp only [after]
    omega
  cases event with
  | login elapsed username account origin =>
    obtain ⟨hsame, -⟩ | ⟨-, -, hnew⟩ := (s.after elapsed).login_cases username account origin
    · rw [step, hsame]
      exact hafter elapsed
    · rw [step, hnew]
      exact hafter elapsed
  | verified elapsed attempt right => exact hafter elapsed
  | setup elapsed username user origin => exact hafter elapsed
  | sweep elapsed ids => exact hafter elapsed
  | forget user => exact Int.le_refl _

theorem run_append (start : Nat) (events more : List Event) :
    run start (events ++ more) = more.foldl step (run start events) :=
  List.foldl_append

/-- The checks made before stay, after those made since. -/
theorem checkTimes_suffix (s : Server) (events : List Event) :
    s.checkTimes <:+ (events.foldl step s).checkTimes := by
  induction events generalizing s with
  | nil => exact List.suffix_rfl
  | cons event events ih =>
    refine List.IsSuffix.trans ?_ (ih (s.step event))
    rcases s.checkTimes_step event with he | he
    · exact he ▸ List.suffix_rfl
    · exact he ▸ List.suffix_cons _ _

/-- Nothing happens before the epoch. -/
theorem run_times (start : Nat) (events : List Event) :
    0 ≤ (run start events).now ∧ ∀ time ∈ (run start events).checkTimes, 0 ≤ time := by
  induction events using List.reverseRecOn with
  | nil => exact ⟨Int.natCast_nonneg _, fun time ht => by cases ht⟩
  | append_singleton events event ih =>
    rw [run_append, List.foldl_cons, List.foldl_nil]
    have hnow := Int.le_trans ih.1 ((run start events).now_step event)
    refine ⟨hnow, fun time ht => ?_⟩
    rcases (run start events).checkTimes_step event with he | he
    · exact ih.2 time (he ▸ ht)
    · rw [he] at ht
      rcases List.mem_cons.mp ht with rfl | ht
      · exact hnow
      · exact ih.2 time ht

/-- With no check made since a refusal, the longest wait after it lets a login through. -/
theorem allowed_later (start : Nat) (events between : List Event) (elapsed later : Nat)
    (hnone : (run start (events ++ between)).checks.length = (run start events).checks.length)
    (hlater : (run start events).now + elapsed + MAX_WAIT_MS ≤
      (run start (events ++ between)).now + later) {username : Text}
    (hname : checkUsername username) (account : Option Account) (origin : IpAddr) :
    ∃ id, (((run start (events ++ between)).after later).login username account origin).1 =
      .checking id := by
  have htimes : (run start (events ++ between)).checkTimes = (run start events).checkTimes := by
    have hsuffix := (run start events).checkTimes_suffix between
    rw [← run_append] at hsuffix
    refine (hsuffix.eq_of_length ?_).symm
    rw [checkTimes, checkTimes, List.length_map, List.length_map, hnone]
  have hold : ∀ a ∈ (run start (events ++ between)).attempts,
      a.attemptedAt + MAX_WAIT_MS ≤ ((run start (events ++ between)).after later).now := by
    intro a ha
    obtain ⟨c, hc, hrow⟩ := (run_agree start (events ++ between)).checked a ha
    have hmem : c.checkedAt ∈ (run start events).checkTimes := by
      rw [← htimes]
      exact List.mem_map_of_mem hc
    obtain ⟨d, hd, hat⟩ := List.mem_map.mp hmem
    have := (run_agree start events).past d hd
    rw [hrow.attemptedAt, ← hat]
    simp only [after]
    omega
  have hwait := waitMs_of_old hold username account origin
  obtain ⟨-, hinvalid | ⟨hpos, -⟩⟩ | ⟨-, -, hnew⟩ :=
    ((run start (events ++ between)).after later).login_cases username account origin
  · exact absurd hname hinvalid
  · exact absurd hpos (Int.not_lt.mpr hwait)
  · exact ⟨_, congrArg Prod.fst hnew⟩

theorem login_rateLimited {s : Server} {username : Text} {account : Option Account}
    {origin : IpAddr} {wait : Int}
    (h : (s.login username account origin).1 = .rateLimited wait) :
    checkUsername username ∧ wait = waitMs s.attempts username account origin s.now ∧ 0 < wait := by
  unfold Server.login at h
  by_cases hname : checkUsername username
  · rw [if_neg (by simpa using hname)] at h
    by_cases hwait : 0 < waitMs s.attempts username account origin s.now
    · simp only [if_pos hwait, Answer.rateLimited.injEq] at h
      exact ⟨hname, h.symm, h ▸ hwait⟩
    · simp only [if_neg hwait] at h
      cases h
  · rw [if_pos hname] at h
    cases h

end Server

/-! ### Where the owner signed in before -/

/-- At an origin the account has a kept success at, the failures from elsewhere do not matter to
its limit. -/
theorem accountWait_elsewhere {attempts : List Attempt} {account : Option Account}
    {origin : IpAddr} (hknown : signedInFrom attempts account (originKey origin) = true)
    (username : Text) (now : Int) :
    accountWait attempts username account origin now =
      accountWait (attempts.filter fun a => a.origin = originKey origin ∨ a.succeeded) username
        account origin now := by
  have hkept : signedInFrom (attempts.filter fun a => a.origin = originKey origin ∨ a.succeeded)
      account (originKey origin) = true := by
    rw [signedInFrom, List.any_eq_true] at hknown ⊢
    obtain ⟨a, ha, hsigned⟩ := hknown
    have horigin := (of_decide_eq_true hsigned).1
    exact ⟨a, List.mem_filter.mpr ⟨ha, decide_eq_true (Or.inl horigin)⟩, hsigned⟩
  have hlast : lastSuccess (attempts.filter fun a => a.origin = originKey origin ∨ a.succeeded)
      username (now - WINDOW_MS) = lastSuccess attempts username (now - WINDOW_MS) := by
    unfold lastSuccess
    rw [List.filter_filter]
    congr 2
    refine List.filter_congr fun a _ => ?_
    by_cases ha : a.succeeded = true <;> simp [ha]
  rw [accountWait, accountWait, onlyFrom, onlyFrom, hknown, hkept, accountFailures, accountFailures,
    hlast, List.filter_filter]
  congr 3
  funext a
  by_cases ha : a.origin = originKey origin <;> simp [ha]

/-! ### Sums that fit -/

theorem shift_fits (failures free : Nat) :
    doublings failures free < 64 ∧ Fits ((1000 <<< doublings failures free : Nat) : Int) := by
  have hdoublings : doublings failures free ≤ 20 := Nat.min_le_right _ _
  have hpow : 2 ^ doublings failures free ≤ 2 ^ 20 := Nat.pow_le_pow_right (by omega) hdoublings
  refine ⟨by omega, ?_⟩
  rw [Nat.shiftLeft_eq]
  have hle : 1000 * 2 ^ doublings failures free ≤ 1048576000 := by omega
  unfold Fits I64_MAX
  omega

theorem waitSums_fit {rows : List Attempt} {free : Nat} {now : Int}
    (htimes : ∀ a ∈ rows, 0 ≤ a.attemptedAt ∧ a.attemptedAt ≤ now)
    (hnow : now + MAX_WAIT_MS ≤ I64_MAX) : ∀ sum ∈ waitSums (failures rows) free now, Fits sum := by
  unfold waitSums failures
  cases hlatest : latestOf (rows.map (·.attemptedAt)) with
  | none => simp
  | some latest =>
    obtain ⟨a, ha, rfl⟩ := List.mem_map.mp (latestOf_mem hlatest)
    have hat := htimes a ha
    by_cases hfree : free ≤ rows.length
    · simp only [Option.filter_some, hfree, decide_true, if_true]
      have hmost := Int.min_le_right ((1000 <<< doublings rows.length free : Nat) : Int) MAX_WAIT_MS
      have hleast : 0 ≤ min ((1000 <<< doublings rows.length free : Nat) : Int) MAX_WAIT_MS :=
        Int.le_min.mpr ⟨Int.natCast_nonneg _, by decide⟩
      intro sum hsum
      unfold Fits
      rcases List.mem_cons.mp hsum with rfl | hsum
      · omega
      · rw [List.mem_singleton.mp hsum]
        omega
    · simp [hfree]

namespace Server

/-- In every run: an hour with no success of a name holds at most 17 checks of it from origins
where its account has no kept success, and a check has `known` only after a success of its account
at its origin. An hour holds at most 32 checks of an origin that have not succeeded. A refusal asks
for at most 15 minutes, and with no check recorded in between a login then is let through. Where an
account has a kept success, its limit there counts no failure from elsewhere. The shift fits, and the
sums do while the clock is 15 minutes short of the last millisecond. -/
theorem attempts_bounded (start : Nat) (events : List Event) (elapsed : Nat) :
    let s := (run start events).after elapsed
    (∀ username since,
      (∀ c ∈ s.checks, SameName c.username username → InHour since c → c.outcome ≠ .succeeded) →
        (s.checks.filter fun c => Guess username since c).length ≤ 17) ∧
    (∀ c ∈ s.checks, c.known = true → ∃ d ∈ s.checks, d.checkedAt ≤ c.checkedAt ∧
      d.origin = c.origin ∧ d.outcome = .succeeded ∧
        ∃ account ∈ c.account, ∃ earlier ∈ d.account, earlier.id = account.id) ∧
    (∀ origin since, (s.checks.filter fun c => Failing origin since c).length ≤ 32) ∧
    (∀ username account origin wait,
      (s.login username account origin).1 = .rateLimited wait →
        0 < wait ∧ wait ≤ MAX_WAIT_MS ∧
        ∀ between (later : Nat) account', (run start (events ++ between)).checks.length = s.checks.length →
          s.now + MAX_WAIT_MS ≤ (run start (events ++ between)).now + later →
            ∃ id, (((run start (events ++ between)).after later).login username account' origin).1 =
              .checking id) ∧
    (∀ username account origin, signedInFrom s.attempts account (originKey origin) = true →
      accountWait s.attempts username account origin s.now =
        accountWait (s.attempts.filter fun a => a.origin = originKey origin ∨ a.succeeded) username
          account origin s.now) ∧
    (∀ failures free, doublings failures free < 64 ∧
      Fits ((1000 <<< doublings failures free : Nat) : Int)) ∧
    (s.now + MAX_WAIT_MS ≤ I64_MAX →
      ∀ username account origin, ∀ sum ∈ waitMsSums s.attempts username account origin s.now,
        Fits sum) := by
  intro s
  have hagree : s.Agree := (run_agree start events).after elapsed
  have hbounded : s.Bounded :=
    ⟨(run_bounded start events).guesses, (run_bounded start events).failing,
      (run_bounded start events).known⟩
  refine ⟨fun username since hfailed => hbounded.guesses_le hfailed, hbounded.known,
    hbounded.failing_le, ?_, fun username account origin hknown =>
      accountWait_elsewhere hknown username s.now, shift_fits, ?_⟩
  · intro username account origin wait hrefused
    obtain ⟨hname, rfl, hpos⟩ := login_rateLimited hrefused
    refine ⟨hpos, waitMs_le (fun a ha => hagree.attempts_past ha) _ _ _, ?_⟩
    intro between later account' hnone hlater
    exact allowed_later start events between elapsed later hnone hlater hname account' origin
  · intro hnow username account origin sum hsum
    obtain ⟨hstart, htimes⟩ := run_times start events
    have hrows : ∀ a ∈ s.attempts, 0 ≤ a.attemptedAt ∧ a.attemptedAt ≤ s.now := by
      intro a ha
      obtain ⟨c, hc, hrow⟩ := hagree.checked a ha
      refine ⟨?_, hagree.attempts_past ha⟩
      rw [hrow.attemptedAt]
      exact htimes _ (List.mem_map_of_mem hc)
    have hsince : Fits (s.now - WINDOW_MS) := by
      have hnonneg : 0 ≤ s.now := by
        simp only [s, after]
        omega
      unfold Fits
      unfold MAX_WAIT_MS I64_MAX at hnow
      unfold WINDOW_MS I64_MAX
      omega
    rw [waitMsSums, List.mem_append, List.mem_cons] at hsum
    rcases hsum with (rfl | hsum) | hsum
    · exact hsince
    · exact waitSums_fit (fun a ha => hrows a (List.mem_of_mem_filter ha)) hnow sum hsum
    · exact waitSums_fit (fun a ha => hrows a (List.mem_of_mem_filter ha)) hnow sum hsum

/-- At the last millisecond a 64-bit clock reads, the wait after five failures does not fit. -/
theorem sums_overflow :
    ∃ (start : Nat) (events : List Event) (username : Text) (account : Option Account)
      (origin : IpAddr),
      (run start events).now ≤ I64_MAX ∧
        ∃ sum ∈ waitMsSums (run start events).attempts username account origin
          (run start events).now, ¬ Fits sum :=
  ⟨9223372036854775807, List.replicate 5 (.login 0 ['s', 'a', 'm'] none (.v4 1)), ['s', 'a', 'm'],
    none, .v4 1, by decide +kernel⟩

end Server

end JewelCase.Login
