import JewelCase.Login.Recorded

/-!
# How many checks an hour holds

The checks that a limit counts come each after its wait for those before, so an hour, which is its
1 ms to 3 600 000 ms, holds few. Recording and ending checks keeps that.
-/
namespace JewelCase.Login

open JewelCase.Library (Paced waited)
open JewelCase.Network.Cache (Text IpAddr)

set_option autoImplicit false

/-- A check in the hour after `since`. -/
def InHour (since : Int) (c : Check) : Prop :=
  since < c.checkedAt ∧ c.checkedAt ≤ since + WINDOW_MS

/-- A check of a name, in an hour, from an origin its account has no kept success at. -/
def Guess (username : Text) (since : Int) (c : Check) : Prop :=
  SameName c.username username ∧ c.known = false ∧ InHour since c

/-- A check from an origin, in an hour, that has not succeeded. -/
def Failing (origin : IpAddr) (since : Int) (c : Check) : Prop :=
  c.origin = origin ∧ c.outcome ≠ .succeeded ∧ InHour since c

instance (since : Int) (c : Check) : Decidable (InHour since c) :=
  inferInstanceAs (Decidable (_ ∧ _))

instance (username : Text) (since : Int) (c : Check) : Decidable (Guess username since c) :=
  inferInstanceAs (Decidable (_ ∧ _))

instance (origin : IpAddr) (since : Int) (c : Check) : Decidable (Failing origin since c) :=
  inferInstanceAs (Decidable (_ ∧ _))

/-- When the checks of a kind were made. -/
def timesOf (p : Check → Prop) [DecidablePred p] (checks : List Check) : List Int :=
  (checks.filter fun c => p c).map (·.checkedAt)

section Times

variable {p : Check → Prop} [DecidablePred p]

theorem timesOf_cons_pos {c : Check} {checks : List Check} (hc : p c) :
    timesOf p (c :: checks) = c.checkedAt :: timesOf p checks := by
  rw [timesOf, List.filter_cons_of_pos (by simpa using hc)]
  rfl

theorem timesOf_cons_neg {c : Check} {checks : List Check} (hc : ¬ p c) :
    timesOf p (c :: checks) = timesOf p checks := by
  rw [timesOf, List.filter_cons_of_neg (by simpa using hc)]
  rfl

/-- Ending a check adds none of a kind that it was not of. -/
theorem timesOf_ended {attempt : Nat} {outcome : Outcome}
    (hp : ∀ c, p (Server.ended attempt outcome c) → p c) (checks : List Check) :
    (timesOf p (checks.map (Server.ended attempt outcome))).Sublist (timesOf p checks) := by
  induction checks with
  | nil => exact List.Sublist.refl _
  | cons c checks ih =>
    rw [List.map_cons]
    by_cases hended : p (Server.ended attempt outcome c)
    · rw [timesOf_cons_pos hended, timesOf_cons_pos (hp c hended), Server.ended_checkedAt]
      exact ih.cons_cons _
    · rw [timesOf_cons_neg hended]
      by_cases hc : p c
      · rw [timesOf_cons_pos hc]
        exact ih.cons _
      · rw [timesOf_cons_neg hc]
        exact ih

namespace Server

/-- A limit that counts the rows of some checks has a new one wait for them all. -/
theorem Agree.spaced {s : Server} (h : s.Agree) {q : Attempt → Prop} [DecidablePred q] {free : Nat}
    (hlive : ∀ c ∈ s.checks, p c → s.Live c)
    (hrows : ∀ c ∈ s.checks, ∀ a ∈ s.attempts, p c → RecordOf c a → q a)
    (hwait : wait (failures (s.attempts.filter fun a => q a)) free s.now ≤ 0) :
    ∀ t ∈ timesOf p s.checks, t + waitAfter free (timesOf p s.checks).length ≤ s.now := by
  have hcount : (timesOf p s.checks).length ≤ (s.attempts.filter fun a => q a).length := by
    have hnodup : ((s.checks.filter fun c => p c).map (·.attempt)).Nodup := by
      refine List.pairwise_map.mpr ?_
      refine List.Pairwise.imp_of_mem ?_ (h.checks.sublist List.filter_sublist)
      intro c d hc hd hcd
      rw [List.mem_filter, decide_eq_true_eq] at hc hd
      exact hcd (hlive c hc.1 hc.2) (hlive d hd.1 hd.2)
    have hsub : ((s.checks.filter fun c => p c).map (·.attempt)) ⊆
        ((s.attempts.filter fun a => q a).map (·.id)) := by
      intro id hid
      obtain ⟨c, hc, rfl⟩ := List.mem_map.mp hid
      rw [List.mem_filter, decide_eq_true_eq] at hc
      obtain ⟨a, ha, hrow⟩ := h.recorded c hc.1 (hlive c hc.1 hc.2)
      refine List.mem_map.mpr ⟨a, List.mem_filter.mpr ⟨ha, ?_⟩, hrow.id⟩
      exact decide_eq_true (hrows c hc.1 a ha hc.2 hrow)
    have := List.Nodup.length_le_of_subset hnodup hsub
    simpa [timesOf] using this
  intro t ht
  obtain ⟨c, hc, rfl⟩ := List.mem_map.mp ht
  rw [List.mem_filter, decide_eq_true_eq] at hc
  obtain ⟨a, ha, hrow⟩ := h.recorded c hc.1 (hlive c hc.1 hc.2)
  rw [← hrow.attemptedAt]
  refine waitAfter_of_wait hwait hcount ?_ (hrow.attemptedAt ▸ h.past c hc.1)
  exact List.mem_filter.mpr ⟨ha, decide_eq_true (hrows c hc.1 a ha hc.2 hrow)⟩

end Server

end Times

namespace Server

/-- What the checks of a server keep to. -/
structure Bounded (s : Server) : Prop where
  guesses : ∀ username since,
    (∀ c ∈ s.checks, SameName c.username username → InHour since c → c.outcome ≠ .succeeded) →
      Paced (waitAfter ACCOUNT_FREE) (timesOf (Guess username since) s.checks)
  failing : ∀ origin since,
    Paced (waitAfter ORIGIN_FREE) (timesOf (Failing origin since) s.checks)
  known : ∀ c ∈ s.checks, c.known = true → ∃ d ∈ s.checks, d.checkedAt ≤ c.checkedAt ∧
    d.origin = c.origin ∧ d.outcome = .succeeded ∧
      ∃ account ∈ c.account, ∃ earlier ∈ d.account, earlier.id = account.id

theorem live_of_hour {s : Server} {since : Int} {c : Check} (h : InHour since c)
    (hnow : s.now ≤ since + WINDOW_MS) : s.Live c := by
  refine Or.inr ?_
  have := h.1
  unfold RETENTION_MS
  unfold WINDOW_MS at hnow
  omega

/-- A login that is let through waited for the name's guesses in the hour. -/
theorem Agree.guess_spaced {s : Server} (h : s.Agree) {username : Text} {account : Option Account}
    {origin : IpAddr} (hwait : waitMs s.attempts username account origin s.now ≤ 0)
    (hknown : signedInFrom s.attempts account (originKey origin) = false) {name : Text} {since : Int}
    (hname : SameName username name) (hhour : since < s.now ∧ s.now ≤ since + WINDOW_MS)
    (hfailed : ∀ c ∈ s.checks, SameName c.username name → InHour since c → c.outcome ≠ .succeeded) :
    ∀ t ∈ timesOf (Guess name since) s.checks,
      t + waitAfter ACCOUNT_FREE (timesOf (Guess name since) s.checks).length ≤ s.now := by
  have haccount : accountWait s.attempts username account origin s.now ≤ 0 :=
    Int.le_trans (Int.le_max_left _ _) hwait
  rw [accountWait, onlyFrom, hknown, if_neg (by simp), accountFailures] at haccount
  refine h.spaced (fun c hc hguess => live_of_hour hguess.2.2 hhour.2) ?_ haccount
  intro c hc a ha hguess hrow
  have hlast : (lastSuccess s.attempts username (s.now - WINDOW_MS)).getD (s.now - WINDOW_MS) ≤
      since := by
    cases hl : lastSuccess s.attempts username (s.now - WINDOW_MS) with
    | none =>
      rw [Option.getD_none]
      omega
    | some last =>
      rw [Option.getD_some]
      obtain ⟨b, hb, rfl⟩ := List.mem_map.mp (latestOf_mem hl)
      rw [List.mem_filter, decide_eq_true_eq] at hb
      obtain ⟨hb, hsame, hsucceeded, -⟩ := hb
      obtain ⟨d, hd, hrowd⟩ := h.checked b hb
      refine Int.not_lt.mp fun hlater => ?_
      refine hfailed d hd ?_ ⟨by rw [← hrowd.attemptedAt]; exact hlater, ?_⟩
        (hrowd.succeeded.mp hsucceeded)
      · rw [← hrowd.username]
        exact hsame.trans hname
      · exact Int.le_trans (h.past d hd) hhour.2
  refine ⟨?_, ?_, by simp, ?_⟩
  · rw [hrow.username]
    exact hguess.1.trans hname.symm
  · rw [hrow.succeeded]
    exact hfailed c hc hguess.1 hguess.2.2
  · rw [hrow.attemptedAt]
    exact Int.lt_of_le_of_lt hlast hguess.2.2.1

/-- A login that is let through waited for the origin's failures in the hour. -/
theorem Agree.failing_spaced {s : Server} (h : s.Agree) {username : Text} {account : Option Account}
    {origin : IpAddr} (hwait : waitMs s.attempts username account origin s.now ≤ 0) {since : Int}
    (hhour : s.now ≤ since + WINDOW_MS) :
    ∀ t ∈ timesOf (Failing (originKey origin) since) s.checks,
      t + waitAfter ORIGIN_FREE (timesOf (Failing (originKey origin) since) s.checks).length ≤
        s.now := by
  have horigin : originWait s.attempts origin s.now ≤ 0 :=
    Int.le_trans (Int.le_max_right _ _) hwait
  rw [originWait, originFailures] at horigin
  refine h.spaced (fun c hc hfailing => live_of_hour hfailing.2.2 hhour) ?_ horigin
  intro c hc a ha hfailing hrow
  refine ⟨hrow.origin.trans hfailing.1, ?_, ?_⟩
  · rw [hrow.succeeded]
    exact hfailing.2.1
  · rw [hrow.attemptedAt]
    have := hfailing.2.2.1
    omega

/-- A check is added only where the limits have room for it. -/
theorem Bounded.login {s : Server} (h : s.Bounded) (hagree : s.Agree) (username : Text)
    (account : Option Account) (origin : IpAddr) :
    (s.login username account origin).2.Bounded := by
  obtain ⟨hsame, -⟩ | ⟨-, hwait, hnew⟩ := s.login_cases username account origin
  · rw [hsame]
    exact h
  rw [hnew]
  refine ⟨?_, ?_, ?_⟩
  · intro name since hfailed
    have hpaced := h.guesses name since fun c hc => hfailed c (List.mem_cons_of_mem _ hc)
    by_cases hguess : Guess name since (s.newCheck username account origin)
    · rw [timesOf_cons_pos hguess]
      exact ⟨hpaced, hagree.guess_spaced hwait hguess.2.1 hguess.1 hguess.2.2
        fun c hc => hfailed c (List.mem_cons_of_mem _ hc)⟩
    · rw [timesOf_cons_neg hguess]
      exact hpaced
  · intro key since
    have hpaced := h.failing key since
    by_cases hfailing : Failing key since (s.newCheck username account origin)
    · rw [timesOf_cons_pos hfailing]
      obtain rfl : originKey origin = key := hfailing.1
      exact ⟨hpaced, hagree.failing_spaced hwait hfailing.2.2.2⟩
    · rw [timesOf_cons_neg hfailing]
      exact hpaced
  · intro c hc hknown
    rcases List.mem_cons.mp hc with rfl | hc
    · have hsigned : signedInFrom s.attempts account (originKey origin) = true := hknown
      rw [signedInFrom, List.any_eq_true] at hsigned
      obtain ⟨a, ha, hsigned⟩ := hsigned
      rw [decide_eq_true_eq] at hsigned
      obtain ⟨horigin, hsucceeded, named, hnamed, -, huser⟩ := hsigned
      obtain ⟨d, hd, hrow⟩ := hagree.checked a ha
      obtain ⟨earlier, hearlier, hid⟩ := hrow.user _ huser
      exact ⟨d, List.mem_cons_of_mem _ hd, hagree.past d hd, hrow.origin ▸ horigin,
        hrow.succeeded.mp hsucceeded, named, hnamed, earlier, hearlier, hid⟩
    · obtain ⟨d, hd, hbefore⟩ := h.known c hc hknown
      exact ⟨d, List.mem_cons_of_mem _ hd, hbefore⟩

theorem Bounded.setup {s : Server} (h : s.Bounded) (username : Text) (user : Int)
    (origin : IpAddr) : (s.setup username user origin).Bounded := by
  refine ⟨?_, ?_, ?_⟩
  · intro name since hfailed
    have hnot : ¬ Guess name since ⟨nextId s.attempts, s.now, username, some ⟨user, true⟩,
        originKey origin, false, .succeeded⟩ :=
      fun hguess => hfailed _ List.mem_cons_self hguess.1 hguess.2.2 rfl
    refine (timesOf_cons_neg hnot).symm ▸ h.guesses name since fun c hc => ?_
    exact hfailed c (List.mem_cons_of_mem _ hc)
  · intro key since
    have hnot : ¬ Failing key since ⟨nextId s.attempts, s.now, username, some ⟨user, true⟩,
        originKey origin, false, .succeeded⟩ := fun hfailing => hfailing.2.1 rfl
    exact (timesOf_cons_neg hnot).symm ▸ h.failing key since
  · intro c hc hknown
    rcases List.mem_cons.mp hc with rfl | hc
    · cases hknown
    · obtain ⟨d, hd, hbefore⟩ := h.known c hc hknown
      exact ⟨d, List.mem_cons_of_mem _ hd, hbefore⟩

@[simp] theorem ended_username (attempt : Nat) (outcome : Outcome) (c : Check) :
    (ended attempt outcome c).username = c.username := by
  unfold ended
  split <;> rfl

@[simp] theorem ended_known (attempt : Nat) (outcome : Outcome) (c : Check) :
    (ended attempt outcome c).known = c.known := by
  unfold ended
  split <;> rfl

@[simp] theorem ended_origin (attempt : Nat) (outcome : Outcome) (c : Check) :
    (ended attempt outcome c).origin = c.origin := by
  unfold ended
  split <;> rfl

@[simp] theorem ended_account (attempt : Nat) (outcome : Outcome) (c : Check) :
    (ended attempt outcome c).account = c.account := by
  unfold ended
  split <;> rfl

theorem Bounded.of_ended {s s' : Server} (h : s.Bounded) {attempt : Nat} {outcome : Outcome}
    (hchecks : s'.checks = s.checks.map (ended attempt outcome)) : s'.Bounded := by
  have hsuccess : ∀ {c : Check}, c.outcome = .succeeded → ended attempt outcome c = c := by
    intro c hc
    exact if_neg fun hpending => by simp [hc] at hpending
  refine ⟨?_, ?_, ?_⟩
  · intro name since hfailed
    rw [hchecks]
    refine (h.guesses name since fun c hc hname hhour hwon => ?_).sublist
      (waitAfter_mono ACCOUNT_FREE) (timesOf_ended ?_ s.checks)
    · refine hfailed c ?_ hname hhour hwon
      rw [hchecks]
      exact List.mem_map.mpr ⟨c, hc, hsuccess hwon⟩
    · intro c hc
      simpa only [Guess, InHour, ended_username, ended_known, ended_checkedAt] using hc
  · intro key since
    rw [hchecks]
    refine (h.failing key since).sublist (waitAfter_mono ORIGIN_FREE) (timesOf_ended ?_ s.checks)
    intro c hc
    refine ⟨?_, fun hwon => ?_, ?_⟩
    · simpa only [ended_origin] using hc.1
    · exact hc.2.1 (by rw [hsuccess hwon, hwon])
    · simpa only [InHour, ended_checkedAt] using hc.2.2
  · intro c' hc' hknown
    rw [hchecks] at hc'
    obtain ⟨c, hc, rfl⟩ := List.mem_map.mp hc'
    rw [ended_known] at hknown
    obtain ⟨d, hd, hbefore, horigin, hwon, haccount⟩ := h.known c hc hknown
    refine ⟨d, ?_, ?_, ?_, hwon, ?_⟩
    · rw [hchecks]
      exact List.mem_map.mpr ⟨d, hd, hsuccess hwon⟩
    · rwa [ended_checkedAt]
    · rwa [ended_origin]
    · rwa [ended_account]

theorem Bounded.verified {s : Server} (h : s.Bounded) (attempt : Nat) (right : Bool) :
    (s.verified attempt right).Bounded := by
  obtain ⟨-, he⟩ | he := s.verified_cases attempt right
  · rw [he]
    exact h.of_ended rfl
  · rw [he]
    exact h.of_ended rfl

/-- Whatever comes next, no hour holds more checks than the limits let through. -/
theorem Bounded.step {s : Server} (h : s.Bounded) (hagree : s.Agree) (event : Event) :
    (s.step event).Bounded := by
  have hafter : ∀ elapsed, (s.after elapsed).Bounded :=
    fun elapsed => ⟨h.guesses, h.failing, h.known⟩
  cases event with
  | login elapsed username account origin =>
    exact (hafter elapsed).login (hagree.after elapsed) username account origin
  | verified elapsed attempt right => exact (hafter elapsed).verified attempt right
  | setup elapsed username user origin => exact (hafter elapsed).setup username user origin
  | sweep elapsed ids => exact ⟨h.guesses, h.failing, h.known⟩
  | forget user => exact ⟨h.guesses, h.failing, h.known⟩

theorem run_bounded (start : Nat) (events : List Event) : (run start events).Bounded := by
  induction events using List.reverseRecOn with
  | nil => exact ⟨fun _ _ _ => trivial, fun _ _ => trivial, fun c hc => by cases hc⟩
  | append_singleton events event ih =>
    have hstep := ih.step (run_agree start events) event
    rwa [run, List.foldl_append]

/-! ### How many -/

theorem length_timesOf {p : Check → Prop} [DecidablePred p] (checks : List Check) :
    (timesOf p checks).length = (checks.filter fun c => p c).length :=
  List.length_map _

/-- An hour with no success of a name holds at most 17 of its guesses. -/
theorem Bounded.guesses_le {s : Server} (h : s.Bounded) {username : Text} {since : Int}
    (hfailed : ∀ c ∈ s.checks, SameName c.username username → InHour since c →
      c.outcome ≠ .succeeded) :
    (s.checks.filter fun c => Guess username since c).length ≤ 17 := by
  have hin : ∀ t ∈ timesOf (Guess username since) s.checks, since < t ∧ t ≤ since + WINDOW_MS := by
    intro t ht
    obtain ⟨c, hc, rfl⟩ := List.mem_map.mp ht
    exact (of_decide_eq_true (List.mem_filter.mp hc).2).2.2
  have hwaits : WINDOW_MS ≤ waited (waitAfter ACCOUNT_FREE) 17 := by decide +kernel
  rw [← length_timesOf]
  exact (h.guesses username since hfailed).length_le (waitAfter_nonneg _) hin hwaits

/-- An hour holds at most 32 failing checks from an origin. -/
theorem Bounded.failing_le {s : Server} (h : s.Bounded) (origin : IpAddr) (since : Int) :
    (s.checks.filter fun c => Failing origin since c).length ≤ 32 := by
  have hin : ∀ t ∈ timesOf (Failing origin since) s.checks, since < t ∧ t ≤ since + WINDOW_MS := by
    intro t ht
    obtain ⟨c, hc, rfl⟩ := List.mem_map.mp ht
    exact (of_decide_eq_true (List.mem_filter.mp hc).2).2.2
  have hwaits : WINDOW_MS ≤ waited (waitAfter ORIGIN_FREE) 32 := by decide +kernel
  rw [← length_timesOf]
  exact (h.failing origin since).length_le (waitAfter_nonneg _) hin hwaits

end Server

end JewelCase.Login
