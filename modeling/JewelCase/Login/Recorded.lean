import Mathlib.Data.List.Induction
import Mathlib.Data.List.Pairwise
import JewelCase.Library.Timers
import JewelCase.Login.Limits

/-!
# What the table of attempts says of the checks

Each check lately made, or still under way, has its own row, which says how it came out, and each row
is of a check.
-/
namespace JewelCase.Login

open JewelCase.Network.Cache (Text IpAddr)

set_option autoImplicit false

/-! ### The sums of a limit -/

theorem latestOf_eq_none {times : List Int} : latestOf times = none ↔ times = [] := by
  cases times with
  | nil => simp [latestOf]
  | cons time times => simp [latestOf]

theorem le_latestOf {times : List Int} {latest : Int} (h : latestOf times = some latest) :
    ∀ time ∈ times, time ≤ latest := by
  induction times generalizing latest with
  | nil => simp
  | cons first times ih =>
    rw [latestOf, Option.some.injEq] at h
    intro time htime
    cases hrest : latestOf times with
    | none =>
      rw [latestOf_eq_none.1 hrest] at htime
      rw [hrest, Option.elim_none] at h
      rw [List.mem_singleton.mp htime]
      exact Int.le_of_eq h
    | some last =>
      rw [hrest, Option.elim_some] at h
      rcases List.mem_cons.mp htime with rfl | htime
      · exact h ▸ Int.le_max_left _ _
      · exact Int.le_trans (ih hrest time htime) (h ▸ Int.le_max_right _ _)

theorem latestOf_mem {times : List Int} {latest : Int} (h : latestOf times = some latest) :
    latest ∈ times := by
  induction times generalizing latest with
  | nil => cases h
  | cons first times ih =>
    rw [latestOf, Option.some.injEq] at h
    cases hrest : latestOf times with
    | none =>
      rw [hrest, Option.elim_none] at h
      exact h ▸ List.mem_cons_self
    | some last =>
      rw [hrest, Option.elim_some] at h
      rcases Int.le_total first last with hle | hle
      · exact List.mem_cons_of_mem _ (by rw [← h, Int.max_eq_right hle]; exact ih hrest)
      · rw [← h, Int.max_eq_left hle]
        exact List.mem_cons_self

/-- The wait after `n` failures of which `free` are free. -/
def waitAfter (free n : Nat) : Int :=
  if free ≤ n then min ((1000 <<< doublings n free : Nat) : Int) MAX_WAIT_MS else 0

theorem waitAfter_nonneg (free n : Nat) : 0 ≤ waitAfter free n := by
  unfold waitAfter
  split
  · exact Int.le_min.mpr ⟨Int.natCast_nonneg _, by decide⟩
  · exact Int.le_refl _

theorem waitAfter_le (free n : Nat) : waitAfter free n ≤ MAX_WAIT_MS := by
  unfold waitAfter
  split
  · exact Int.min_le_right _ _
  · decide

/-- A wait never shortens with more failures. -/
theorem waitAfter_mono (free : Nat) {m n : Nat} (hle : m ≤ n) :
    waitAfter free m ≤ waitAfter free n := by
  unfold waitAfter
  by_cases hm : free ≤ m
  · have hdoublings : doublings m free ≤ doublings n free := by
      unfold doublings
      omega
    have hpow : 1000 <<< doublings m free ≤ 1000 <<< doublings n free := by
      rw [Nat.shiftLeft_eq, Nat.shiftLeft_eq]
      exact Nat.mul_le_mul_left _ (Nat.pow_le_pow_right (by omega) hdoublings)
    rw [if_pos hm, if_pos (by omega)]
    exact Int.le_min.mpr ⟨Int.le_trans (Int.min_le_left _ _) (Int.ofNat_le.mpr hpow),
      Int.min_le_right _ _⟩
  · rw [if_neg hm]
    exact waitAfter_nonneg free n

/-- With no wait left, each failure past the free ones was long enough ago. -/
theorem wait_failures {rows : List Attempt} {free : Nat} {now : Int} :
    wait (failures rows) free now ≤ 0 ↔
      (free ≤ rows.length → ∀ a ∈ rows, a.attemptedAt + waitAfter free rows.length ≤ now) := by
  unfold wait failures
  cases hlatest : latestOf (rows.map (·.attemptedAt)) with
  | none =>
    rw [latestOf_eq_none, List.map_eq_nil_iff] at hlatest
    subst hlatest
    simp
  | some latest =>
    by_cases hfree : free ≤ rows.length
    · have hwait : waitAfter free rows.length =
          min ((1000 <<< doublings rows.length free : Nat) : Int) MAX_WAIT_MS := if_pos hfree
      simp only [Option.filter_some, hfree, decide_true, if_true, true_implies, ← hwait]
      constructor
      · intro hle a ha
        have := le_latestOf hlatest a.attemptedAt (List.mem_map_of_mem ha)
        have := Int.le_trans (Int.le_max_left _ _) hle
        omega
      · intro hall
        obtain ⟨a, ha, rfl⟩ := List.mem_map.mp (latestOf_mem hlatest)
        have := hall a ha
        exact Int.max_le.mpr ⟨by omega, Int.le_refl _⟩
    · simp [hfree]

/-- Failures all a longest wait ago leave none. -/
theorem wait_failures_of_old {rows : List Attempt} {free : Nat} {now : Int}
    (hold : ∀ a ∈ rows, a.attemptedAt + MAX_WAIT_MS ≤ now) :
    wait (failures rows) free now ≤ 0 := by
  refine wait_failures.2 fun _ a ha => ?_
  have := hold a ha
  have := waitAfter_le free rows.length
  omega

/-- No wait is longer than the longest. -/
theorem wait_failures_le {rows : List Attempt} {free : Nat} {now : Int}
    (hpast : ∀ a ∈ rows, a.attemptedAt ≤ now) : wait (failures rows) free now ≤ MAX_WAIT_MS := by
  unfold wait failures
  cases hlatest : latestOf (rows.map (·.attemptedAt)) with
  | none => exact show (0 : Int) ≤ MAX_WAIT_MS by decide
  | some latest =>
    obtain ⟨a, ha, rfl⟩ := List.mem_map.mp (latestOf_mem hlatest)
    have := hpast a ha
    by_cases hfree : free ≤ rows.length
    · simp only [Option.filter_some, hfree, decide_true, if_true]
      have hmin := Int.min_le_right ((1000 <<< doublings rows.length free : Nat) : Int) MAX_WAIT_MS
      exact Int.max_le.mpr ⟨by omega, by decide⟩
    · simp only [Option.filter_some, hfree, decide_false, Bool.false_eq_true, if_false]
      decide

/-- Attempts left out of a limit's rows do not lengthen its wait. -/
theorem waitAfter_of_wait {rows : List Attempt} {free n : Nat} {now : Int}
    (h : wait (failures rows) free now ≤ 0) (hn : n ≤ rows.length) {a : Attempt} (ha : a ∈ rows)
    (hpast : a.attemptedAt ≤ now) : a.attemptedAt + waitAfter free n ≤ now := by
  by_cases hfree : free ≤ rows.length
  · have := wait_failures.1 h hfree a ha
    have := waitAfter_mono free hn
    omega
  · rw [waitAfter, if_neg (by omega)]
    omega

/-! ### Rows and checks -/

theorem lt_nextId {attempts : List Attempt} {a : Attempt} (ha : a ∈ attempts) :
    a.id < nextId attempts := by
  unfold nextId
  induction attempts with
  | nil => cases ha
  | cons b attempts ih =>
    rw [List.map_cons, List.foldr_cons]
    rcases List.mem_cons.mp ha with rfl | ha
    · exact Nat.lt_succ_of_le (Nat.le_max_left _ _)
    · have := ih ha
      have := Nat.le_max_right b.id ((attempts.map (·.id)).foldr max 0)
      omega

/-- A row is the record of a check. -/
structure RecordOf (c : Check) (a : Attempt) : Prop where
  id : a.id = c.attempt
  attemptedAt : a.attemptedAt = c.checkedAt
  username : a.username = c.username
  origin : a.origin = c.origin
  succeeded : a.succeeded = true ↔ c.outcome = .succeeded
  user : ∀ user ∈ a.user, ∃ named ∈ c.account, named.id = user

theorem RecordOf.failed {c : Check} {a : Attempt} (h : RecordOf c a) (hpending : c.outcome = .pending) :
    RecordOf { c with outcome := .failed } a := by
  refine ⟨h.id, h.attemptedAt, h.username, h.origin, ?_, h.user⟩
  rw [h.succeeded, hpending]
  simp

theorem RecordOf.marked {c : Check} {a : Attempt} (h : RecordOf c a) :
    RecordOf { c with outcome := .succeeded } { a with succeeded := true } :=
  ⟨h.id, h.attemptedAt, h.username, h.origin, by simp, h.user⟩

namespace Server

/-- A check whose row is not swept yet. -/
def Live (s : Server) (c : Check) : Prop :=
  c.outcome = .pending ∨ s.now - RETENTION_MS ≤ c.checkedAt

/-- The table and the checks agree. -/
structure Agree (s : Server) : Prop where
  past : ∀ c ∈ s.checks, c.checkedAt ≤ s.now
  recorded : ∀ c ∈ s.checks, s.Live c → ∃ a ∈ s.attempts, RecordOf c a
  checked : ∀ a ∈ s.attempts, ∃ c ∈ s.checks, RecordOf c a
  rows : s.attempts.Pairwise fun a b => a.id ≠ b.id
  checks : s.checks.Pairwise fun c d => s.Live c → s.Live d → c.attempt ≠ d.attempt

theorem Agree.distinct {s : Server} (h : s.Agree) {c d : Check} (hc : c ∈ s.checks)
    (hd : d ∈ s.checks) (hlive : s.Live c) (hlive' : s.Live d) (hsame : c.attempt = d.attempt) :
    c = d := by
  by_contra hne
  have hsymm : Std.Symm fun c d : Check => s.Live c → s.Live d → c.attempt ≠ d.attempt :=
    ⟨fun c d hcd hd hc he => hcd hc hd he.symm⟩
  exact h.checks.forall hc hd hne hlive hlive' hsame

theorem Agree.row_eq {s : Server} (h : s.Agree) {a b : Attempt} (ha : a ∈ s.attempts)
    (hb : b ∈ s.attempts) (hsame : a.id = b.id) : a = b := by
  by_contra hne
  have hsymm : Std.Symm fun a b : Attempt => a.id ≠ b.id := ⟨fun a b hab => hab.symm⟩
  exact h.rows.forall ha hb hne hsame

theorem Agree.after {s : Server} (h : s.Agree) (elapsed : Nat) : (s.after elapsed).Agree := by
  have hlive : ∀ {c}, (s.after elapsed).Live c → s.Live c := by
    rintro c (hpending | hkept)
    · exact Or.inl hpending
    · refine Or.inr (Int.le_trans ?_ hkept)
      simp only [Server.after]
      omega
  refine ⟨fun c hc => ?_, fun c hc hl => h.recorded c hc (hlive hl), h.checked, h.rows, ?_⟩
  · have := h.past c hc
    simp only [Server.after]
    omega
  · exact h.checks.imp fun hcd hc hd => hcd (hlive hc) (hlive hd)

/-- A new row and its check. -/
theorem Agree.cons {s : Server} (h : s.Agree) {c : Check} {a : Attempt}
    (hid : a.id = nextId s.attempts) (hnow : c.checkedAt = s.now) (hrecord : RecordOf c a) :
    Agree { s with attempts := a :: s.attempts, checks := c :: s.checks } := by
  have hnew : ∀ d ∈ s.checks, s.Live d → d.attempt ≠ c.attempt := by
    intro d hd hlive he
    obtain ⟨b, hb, hrow⟩ := h.recorded d hd hlive
    have hlt := lt_nextId hb
    rw [hrow.id, he, ← hrecord.id, hid] at hlt
    exact Nat.lt_irrefl _ hlt
  refine ⟨?_, ?_, ?_, ?_, ?_⟩
  · intro d hd
    rcases List.mem_cons.mp hd with rfl | hd
    · exact Int.le_of_eq hnow
    · exact h.past d hd
  · intro d hd hlive
    rcases List.mem_cons.mp hd with rfl | hd
    · exact ⟨a, List.mem_cons_self, hrecord⟩
    · obtain ⟨b, hb, hrow⟩ := h.recorded d hd hlive
      exact ⟨b, List.mem_cons_of_mem _ hb, hrow⟩
  · intro b hb
    rcases List.mem_cons.mp hb with rfl | hb
    · exact ⟨c, List.mem_cons_self, hrecord⟩
    · obtain ⟨d, hd, hrow⟩ := h.checked b hb
      exact ⟨d, List.mem_cons_of_mem _ hd, hrow⟩
  · refine List.pairwise_cons.mpr ⟨fun b hb he => ?_, h.rows⟩
    have := lt_nextId hb
    omega
  · exact List.pairwise_cons.mpr ⟨fun d hd _ hlive he => hnew d hd hlive he.symm, h.checks⟩

/-- The check a login makes. -/
def newCheck (s : Server) (username : Text) (account : Option Account) (origin : IpAddr) : Check :=
  ⟨nextId s.attempts, s.now, username, account, originKey origin,
    signedInFrom s.attempts account (originKey origin), .pending⟩

/-- A login is refused, changing nothing, or its check is recorded. -/
theorem login_cases (s : Server) (username : Text) (account : Option Account) (origin : IpAddr) :
    ((s.login username account origin).2 = s ∧
      (¬ checkUsername username ∨
        (0 < waitMs s.attempts username account origin s.now ∧
          (s.login username account origin).1 =
            .rateLimited (waitMs s.attempts username account origin s.now)))) ∨
    (checkUsername username ∧ waitMs s.attempts username account origin s.now ≤ 0 ∧
      s.login username account origin = (.checking (nextId s.attempts), { s with
        attempts := (record s.attempts username (account.map (·.id)) origin s.now).2
        checks := s.newCheck username account origin :: s.checks })) := by
  unfold Server.login
  by_cases hname : checkUsername username
  · rw [if_neg (by simpa using hname)]
    by_cases hwait : 0 < waitMs s.attempts username account origin s.now
    · refine Or.inl ⟨?_, Or.inr ⟨hwait, ?_⟩⟩ <;> simp only [if_pos hwait]
    · refine Or.inr ⟨hname, Int.not_lt.mp hwait, ?_⟩
      simp only [if_neg hwait]
      rfl
  · rw [if_pos hname]
    exact Or.inl ⟨rfl, Or.inl hname⟩

/-- A check that begins is recorded as it does. -/
theorem Agree.login {s : Server} (h : s.Agree) (username : Text) (account : Option Account)
    (origin : IpAddr) : (s.login username account origin).2.Agree := by
  obtain ⟨hsame, -⟩ | ⟨-, -, hnew⟩ := s.login_cases username account origin
  · rw [hsame]
    exact h
  · rw [hnew]
    refine h.cons rfl rfl ⟨rfl, rfl, rfl, rfl, by simp [newCheck], ?_⟩
    intro user huser
    obtain ⟨named, hnamed, rfl⟩ := Option.map_eq_some_iff.mp huser
    exact ⟨named, hnamed, rfl⟩

theorem Agree.setup {s : Server} (h : s.Agree) (username : Text) (user : Int) (origin : IpAddr) :
    (s.setup username user origin).Agree := by
  have hothers : ∀ a ∈ s.attempts, a.id ≠ nextId s.attempts :=
    fun a ha => Nat.ne_of_lt (lt_nextId ha)
  have hrows : succeeded (record s.attempts username (some user) origin s.now).2
      (nextId s.attempts) =
        ⟨nextId s.attempts, s.now, username, some user, originKey origin, true⟩ :: s.attempts := by
    simp only [succeeded, record, List.map_cons, if_true]
    congr 1
    refine (List.map_congr_left fun a ha => ?_).trans (List.map_id _)
    exact if_neg (hothers a ha)
  have hsetup : s.setup username user origin = { s with
      attempts := ⟨nextId s.attempts, s.now, username, some user, originKey origin, true⟩ ::
        s.attempts
      checks := ⟨nextId s.attempts, s.now, username, some ⟨user, true⟩, originKey origin, false,
        .succeeded⟩ :: s.checks } := by
    unfold Server.setup
    rw [← hrows]
    rfl
  rw [hsetup]
  refine h.cons rfl rfl ⟨rfl, rfl, rfl, rfl, by simp, ?_⟩
  intro u hu
  exact ⟨_, rfl, Option.some.inj hu⟩

/-- A check as it is once the one under way for an attempt ends. -/
def ended (attempt : Nat) (outcome : Outcome) (c : Check) : Check :=
  if c.attempt = attempt ∧ c.outcome = .pending then { c with outcome } else c

theorem ended_cases (attempt : Nat) (outcome : Outcome) (c : Check) :
    (c.attempt = attempt ∧ c.outcome = .pending ∧ ended attempt outcome c = { c with outcome }) ∨
      (¬ (c.attempt = attempt ∧ c.outcome = .pending) ∧ ended attempt outcome c = c) := by
  by_cases hc : c.attempt = attempt ∧ c.outcome = .pending
  · exact Or.inl ⟨hc.1, hc.2, if_pos hc⟩
  · exact Or.inr ⟨hc, if_neg hc⟩

/-- A check under way ends as a success, marking its row, or else as a failure. -/
theorem verified_cases (s : Server) (attempt : Nat) (right : Bool) :
    ((∃ d ∈ s.checks, d.attempt = attempt ∧ d.outcome = .pending) ∧
      s.verified attempt right = { s with
        attempts := succeeded s.attempts attempt
        checks := s.checks.map (ended attempt .succeeded) }) ∨
    s.verified attempt right = { s with checks := s.checks.map (ended attempt .failed) } := by
  by_cases hsuccess : right = true ∧ s.maySignIn attempt
  · obtain ⟨d, hd, hattempt, hpending, -⟩ := hsuccess.2
    refine Or.inl ⟨⟨d, hd, hattempt, hpending⟩, ?_⟩
    simp only [Server.verified, hsuccess, and_self, if_true]
    rfl
  · refine Or.inr ?_
    simp only [Server.verified, hsuccess, if_false]
    rfl

theorem Live.of_ended {s s' : Server} (hnow : s'.now = s.now) {attempt : Nat} {outcome : Outcome}
    (hended : outcome ≠ .pending) {c : Check} (h : s'.Live (ended attempt outcome c)) : s.Live c := by
  obtain ⟨-, -, he⟩ | ⟨-, he⟩ := ended_cases attempt outcome c
  · rw [he] at h
    rcases h with h | h
    · exact absurd h hended
    · exact Or.inr (hnow ▸ h)
  · rw [he] at h
    exact h.imp_right fun h => hnow ▸ h

@[simp] theorem ended_attempt (attempt : Nat) (outcome : Outcome) (c : Check) :
    (ended attempt outcome c).attempt = c.attempt := by
  unfold ended
  split <;> rfl

@[simp] theorem ended_checkedAt (attempt : Nat) (outcome : Outcome) (c : Check) :
    (ended attempt outcome c).checkedAt = c.checkedAt := by
  unfold ended
  split <;> rfl

theorem Agree.ended_checks {s : Server} (h : s.Agree) (s' : Server) (hnow : s'.now = s.now) {attempt : Nat}
    {outcome : Outcome} (hended : outcome ≠ .pending)
    (hchecks : s'.checks = s.checks.map (ended attempt outcome)) :
    (∀ c ∈ s'.checks, c.checkedAt ≤ s'.now) ∧
      s'.checks.Pairwise fun c d => s'.Live c → s'.Live d → c.attempt ≠ d.attempt := by
  rw [hchecks, hnow]
  constructor
  · intro c hc
    obtain ⟨d, hd, rfl⟩ := List.mem_map.mp hc
    rw [ended_checkedAt]
    exact h.past d hd
  · refine List.pairwise_map.mpr (h.checks.imp fun hcd hc hd => ?_)
    rw [ended_attempt, ended_attempt]
    exact hcd (hc.of_ended hnow hended) (hd.of_ended hnow hended)

/-- A check that ends changes its own row, if it is still there. -/
theorem Agree.verified {s : Server} (h : s.Agree) (attempt : Nat) (right : Bool) :
    (s.verified attempt right).Agree := by
  obtain ⟨⟨d, hd, hattempt, hpending⟩, he⟩ | he := s.verified_cases attempt right
  · rw [he]
    obtain ⟨hpast, hapart⟩ := h.ended_checks { s with
      attempts := succeeded s.attempts attempt
      checks := s.checks.map (ended attempt .succeeded) } rfl (by simp) rfl
    obtain ⟨b, hb, hrowd⟩ := h.recorded d hd (Or.inl hpending)
    have hdended : ended attempt .succeeded d = { d with outcome := .succeeded } :=
      if_pos ⟨hattempt, hpending⟩
    refine ⟨hpast, ?_, ?_, ?_, hapart⟩
    · intro c' hc' hlive'
      obtain ⟨c, hc, rfl⟩ := List.mem_map.mp hc'
      have hlive : s.Live c := hlive'.of_ended rfl (by simp)
      obtain ⟨a, ha, hrow⟩ := h.recorded c hc hlive
      refine ⟨_, List.mem_map_of_mem ha, ?_⟩
      by_cases hsame : c.attempt = attempt
      · -- the check for that attempt is the one under way
        have hcd : c = d :=
          h.distinct hc hd hlive (Or.inl hpending) (hsame.trans hattempt.symm)
        rw [if_pos (hrow.id.trans hsame), hcd, hdended, ← hcd]
        exact hrow.marked
      · rw [if_neg (hrow.id ▸ hsame), ended, if_neg fun hc => hsame hc.1]
        exact hrow
    · intro a' ha'
      obtain ⟨a, ha, rfl⟩ := List.mem_map.mp ha'
      by_cases hsame : a.id = attempt
      · have hab : a = b := h.row_eq ha hb (by rw [hrowd.id, hsame, hattempt])
        refine ⟨_, List.mem_map_of_mem hd, ?_⟩
        rw [if_pos hsame, hdended, hab]
        exact hrowd.marked
      · obtain ⟨c, hc, hrow⟩ := h.checked a ha
        refine ⟨_, List.mem_map_of_mem hc, ?_⟩
        rw [if_neg hsame, ended, if_neg fun hc => hsame (hrow.id.trans hc.1)]
        exact hrow
    · refine List.pairwise_map.mpr (h.rows.imp fun {a b} hab => ?_)
      have hid : ∀ a : Attempt,
          (if a.id = attempt then { a with succeeded := true } else a).id = a.id := fun a => by
        split <;> rfl
      rw [hid, hid]
      exact hab
  · rw [he]
    obtain ⟨hpast, hapart⟩ := h.ended_checks { s with
      checks := s.checks.map (ended attempt .failed) } rfl (by simp) rfl
    have hrecord : ∀ {c a}, RecordOf c a → RecordOf (ended attempt .failed c) a := by
      intro c a hrow
      obtain ⟨-, hpending, he⟩ | ⟨-, he⟩ := ended_cases attempt .failed c
      · exact he ▸ hrow.failed hpending
      · exact he.symm ▸ hrow
    refine ⟨hpast, ?_, ?_, h.rows, hapart⟩
    · intro c' hc' hlive'
      obtain ⟨c, hc, rfl⟩ := List.mem_map.mp hc'
      obtain ⟨a, ha, hrow⟩ := h.recorded c hc (hlive'.of_ended rfl (by simp))
      exact ⟨a, ha, hrecord hrow⟩
    · intro a ha
      obtain ⟨c, hc, hrow⟩ := h.checked a ha
      exact ⟨_, List.mem_map_of_mem hc, hrecord hrow⟩

/-- The sweep takes rows only of checks no longer live. -/
theorem Agree.sweep {s : Server} (h : s.Agree) (ids : List Nat) : (s.sweep ids).Agree := by
  have hkept : ∀ {a}, a ∈ (s.sweep ids).attempts ↔ a ∈ s.attempts ∧
      ¬ (a.id ∈ ids ∧ a.attemptedAt < s.now - RETENTION_MS ∧ ¬ s.Pending a.id) := by
    intro a
    rw [Server.sweep, List.mem_filter, decide_eq_true_eq]
  refine ⟨h.past, ?_, ?_, h.rows.sublist List.filter_sublist, h.checks⟩
  · intro c hc hlive
    obtain ⟨a, ha, hrow⟩ := h.recorded c hc hlive
    refine ⟨a, hkept.mpr ⟨ha, fun ⟨_, hold, hidle⟩ => ?_⟩, hrow⟩
    rcases hlive with hpending | hlate
    · exact hidle ⟨c, hc, hrow.id.symm, hpending⟩
    · rw [hrow.attemptedAt] at hold
      have hlate' : s.now - RETENTION_MS ≤ c.checkedAt := hlate
      omega
  · intro a ha
    exact h.checked a (hkept.mp ha).1

theorem Agree.forget {s : Server} (h : s.Agree) (user : Int) : (s.forget user).Agree := by
  let g : Attempt → Attempt := fun a => if a.user = some user then { a with user := none } else a
  have hid : ∀ a, (g a).id = a.id := fun a => by
    simp only [g]
    split <;> rfl
  have hrecord : ∀ {c a}, RecordOf c a → RecordOf c (g a) := by
    intro c a hrow
    simp only [g]
    split
    · exact ⟨hrow.id, hrow.attemptedAt, hrow.username, hrow.origin, hrow.succeeded, by simp⟩
    · exact hrow
  refine ⟨h.past, ?_, ?_, ?_, h.checks⟩
  · intro c hc hlive
    obtain ⟨a, ha, hrow⟩ := h.recorded c hc hlive
    exact ⟨g a, List.mem_map_of_mem ha, hrecord hrow⟩
  · intro a ha
    obtain ⟨b, hb, rfl⟩ := List.mem_map.mp ha
    obtain ⟨c, hc, hrow⟩ := h.checked b hb
    exact ⟨c, hc, hrecord hrow⟩
  · refine List.pairwise_map.mpr (h.rows.imp fun {a b} hab => ?_)
    have := hid a
    have := hid b
    simp only [g] at *
    omega

/-- Whatever comes next, the table says what the live checks are. -/
theorem Agree.step {s : Server} (h : s.Agree) (event : Event) : (s.step event).Agree := by
  cases event with
  | login elapsed username account origin => exact (h.after elapsed).login username account origin
  | verified elapsed attempt right => exact (h.after elapsed).verified attempt right
  | setup elapsed username user origin => exact (h.after elapsed).setup username user origin
  | sweep elapsed ids => exact (h.after elapsed).sweep ids
  | forget user => exact h.forget user

theorem run_agree (start : Nat) (events : List Event) : (run start events).Agree := by
  unfold run
  induction events using List.reverseRecOn with
  | nil => exact ⟨by simp, by simp, by simp, List.Pairwise.nil, List.Pairwise.nil⟩
  | append_singleton events event ih =>
    rw [List.foldl_append]
    exact ih.step event

end Server

end JewelCase.Login
