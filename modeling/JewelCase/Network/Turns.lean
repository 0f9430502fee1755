import Mathlib.Data.List.Induction
import JewelCase.Network.Limits

/-!
# Turns keep their gaps and pauses

Each granted turn demands that the next in each of its scopes is its gap later, and each throttle
that the next in its scope is its pause later. A turn goes at the latest of `now` and all that was
ever demanded of its scopes, though most queues are forgotten on the way.
-/
namespace JewelCase.Network

set_option autoImplicit false

variable {parseHttpDate : List Char → Option Int} {kept : Queues} {host : String}
  {queues : List (Scope × Nat)} {now start : Nat}

/-! ### The latest -/

theorem le_foldl_max (times : List Nat) (now : Nat) : now ≤ times.foldl max now := by
  induction times generalizing now with
  | nil => exact Nat.le_refl _
  | cons time times ih => exact Nat.le_trans (Nat.le_max_left _ _) (ih _)

theorem mem_le_foldl_max {times : List Nat} {time : Nat} (h : time ∈ times) (now : Nat) :
    time ≤ times.foldl max now := by
  induction times generalizing now with
  | nil => cases h
  | cons first times ih =>
    obtain rfl | h := List.mem_cons.mp h
    · exact Nat.le_trans (Nat.le_max_right _ _) (le_foldl_max _ _)
    · exact ih h _

theorem foldl_max_mem (times : List Nat) (now : Nat) :
    times.foldl max now = now ∨ times.foldl max now ∈ times := by
  induction times generalizing now with
  | nil => exact .inl rfl
  | cons first times ih =>
    rw [List.foldl_cons]
    obtain h | h := ih (max now first)
    · obtain hle | hle := Nat.le_total now first
      · rw [Nat.max_eq_right hle] at h ⊢
        rw [h]
        exact .inr List.mem_cons_self
      · rw [Nat.max_eq_left hle] at h ⊢
        exact .inl h
    · exact .inr (List.mem_cons_of_mem _ h)

theorem now_le_startOf : now ≤ startOf kept host queues now := le_foldl_max _ _

theorem next_le_startOf {queue : Scope × Nat} (hq : queue ∈ queues) {entry : Queue}
    (h : kept (host, queue.1) = some entry) : entry.next ≤ startOf kept host queues now := by
  apply mem_le_foldl_max
  exact List.mem_map_of_mem (List.mem_filterMap.mpr ⟨queue, hq, h⟩)

theorem startOf_mem : startOf kept host queues now = now ∨ ∃ queue ∈ queues, ∃ entry,
    kept (host, queue.1) = some entry ∧ entry.next = startOf kept host queues now := by
  obtain h | h := foldl_max_mem
    ((queues.filterMap fun queue => kept (host, queue.1)).map Queue.next) now
  · exact .inl h
  · obtain ⟨entry, hentry, he⟩ := List.mem_map.mp h
    obtain ⟨queue, hq, hk⟩ := List.mem_filterMap.mp hentry
    exact .inr ⟨queue, hq, entry, hk, he⟩

/-! ### Queues -/

@[simp] theorem set_self (kept : Queues) (key : Key) (queue : Option Queue) :
    kept.set key queue key = queue := if_pos rfl

theorem set_ne (kept : Queues) {key other : Key} (h : other ≠ key) (queue : Option Queue) :
    kept.set key queue other = kept other := if_neg h

/-- The gap a turn keeps in a scope: that of the scope's last queue. -/
def gapOf (queues : List (Scope × Nat)) (scope : Scope) : Option Nat :=
  (queues.reverse.find? fun queue => queue.1 = scope).map Prod.snd

theorem gapOf_append (queues : List (Scope × Nat)) (queue : Scope × Nat) (scope : Scope) :
    gapOf (queues ++ [queue]) scope = if queue.1 = scope then some queue.2 else gapOf queues scope := by
  unfold gapOf
  rw [List.reverse_append, List.reverse_singleton, List.singleton_append, List.find?_cons]
  by_cases h : queue.1 = scope <;> simp [h]

theorem gapOf_none {queues : List (Scope × Nat)} {scope : Scope} :
    gapOf queues scope = none ↔ ∀ queue ∈ queues, queue.1 ≠ scope := by
  simp [gapOf]

/-- A queue no turn waits in stays as it is. -/
theorem taken_other {tidy : Nat → Queue → Option Queue} {key : Key}
    (h : ∀ queue ∈ queues, (host, queue.1) ≠ key) :
    queues.foldl (take tidy host start now) kept key = kept key := by
  induction queues generalizing kept with
  | nil => rfl
  | cons queue queues ih =>
    rw [List.foldl_cons, ih fun other ho => h other (List.mem_cons_of_mem _ ho), take]
    exact set_ne _ (Ne.symm (h queue List.mem_cons_self)) _

theorem gapOf_mem {scope : Scope} {gap : Nat} (h : gapOf queues scope = some gap) :
    ∃ queue ∈ queues, queue.1 = scope := by
  by_contra hno
  have hnone : gapOf queues scope = none := by
    rw [gapOf_none]
    intro queue hq he
    exact hno ⟨queue, hq, he⟩
  rw [hnone] at h
  cases h

/-! ### What is owed -/

/-- A time before which no request in a scope of a host may go. -/
structure Demand where
  host : String
  scope : Scope
  time : Nat
deriving DecidableEq, Repr

/-- The queues keep what was demanded, but what has come. -/
structure Paced (kept : Queues) (owed : List Demand) (now : Nat) : Prop where
  held : ∀ demand ∈ owed, demand.time ≤ now ∨
    ∃ queue, kept (demand.host, demand.scope) = some queue ∧ demand.time ≤ queue.next
  owed : ∀ key queue, kept key = some queue → ⟨key.1, key.2, queue.next⟩ ∈ owed

theorem paced_none (now : Nat) : Paced noQueues [] now := by
  constructor
  · intro demand h
    cases h
  · intro key queue h
    cases h

variable {owed : List Demand} {later : Nat}

theorem Paced.mono (h : Paced kept owed now) (hle : now ≤ later) : Paced kept owed later := by
  refine ⟨?_, h.owed⟩
  intro demand hd
  obtain ht | hq := h.held demand hd
  · exact .inl (Nat.le_trans ht hle)
  · exact .inr hq

/-- One queue of several changed to another that owes no less. -/
theorem paced_set (h : Paced kept owed now) {key : Key} {entry : Option Queue} {more : List Demand}
    (hmore : ∀ demand ∈ more, (demand.host, demand.scope) = key)
    (hheld : ∀ demand ∈ owed ++ more, (demand.host, demand.scope) = key →
      demand.time ≤ now ∨ ∃ queue, entry = some queue ∧ demand.time ≤ queue.next)
    (howed : ∀ queue, entry = some queue → ⟨key.1, key.2, queue.next⟩ ∈ owed ++ more) :
    Paced (kept.set key entry) (owed ++ more) now := by
  constructor
  · intro demand hd
    by_cases hk : (demand.host, demand.scope) = key
    · rw [hk, set_self]
      exact hheld demand hd hk
    · rw [set_ne _ hk]
      obtain hd | hd := List.mem_append.mp hd
      · exact h.held demand hd
      · exact absurd (hmore demand hd) hk
  · intro other queue hq
    by_cases hk : other = key
    · rw [hk, set_self] at hq
      rw [hk]
      exact howed queue hq
    · rw [set_ne _ hk] at hq
      exact List.mem_append_left _ (h.owed other queue hq)

/-- A pause set on the queues that are left keeps what was demanded. -/
theorem paced_paused {key : Key} {queue : Queue} {wait count : Nat} (h : Paced kept owed now)
    (hqueue : (kept key).getD ⟨now, 0⟩ = queue) :
    Paced (kept.set key (some ⟨max queue.next (now + wait), count⟩))
      (owed ++ [⟨key.1, key.2, now + wait⟩]) now := by
  refine paced_set h ?_ ?_ ?_
  · intro demand hd
    rw [List.mem_singleton] at hd
    rw [hd]
  · intro demand hd hkey
    refine .inr ⟨_, rfl, ?_⟩
    obtain hd | hd := List.mem_append.mp hd
    · obtain hle | ⟨other, ho, hle⟩ := h.held demand hd
      · exact Nat.le_trans hle (Nat.le_trans (Nat.le_add_right _ _) (Nat.le_max_right _ _))
      · rw [hkey] at ho
        rw [ho, Option.getD_some] at hqueue
        rw [← hqueue]
        exact Nat.le_trans hle (Nat.le_max_left _ _)
    · rw [List.mem_singleton] at hd
      rw [hd]
      exact Nat.le_max_right _ _
  · intro paused hq
    obtain rfl := Option.some.inj hq
    cases hentry : kept key with
    | none =>
      -- its next turn is then the pause's end
      rw [hentry, Option.getD_none] at hqueue
      rw [← hqueue, Nat.max_eq_right (Nat.le_add_right _ _)]
      exact List.mem_append_right _ List.mem_cons_self
    | some entry =>
      rw [hentry, Option.getD_some] at hqueue
      subst hqueue
      obtain hle | hle := Nat.le_total entry.next (now + wait)
      · rw [Nat.max_eq_right hle]
        exact List.mem_append_right _ List.mem_cons_self
      · rw [Nat.max_eq_left hle]
        exact List.mem_append_left _ (h.owed _ entry hentry)

/-- The latest of `now` and all that is owed in the scopes of `queues`. -/
structure Latest (owed : List Demand) (host : String) (queues : List (Scope × Nat))
    (now start : Nat) : Prop where
  now_le : now ≤ start
  time_le : ∀ demand ∈ owed, demand.host = host → (∃ queue ∈ queues, queue.1 = demand.scope) →
    demand.time ≤ start
  reached : start = now ∨ ∃ demand ∈ owed, demand.host = host ∧
    (∃ queue ∈ queues, queue.1 = demand.scope) ∧ demand.time = start

/-- **A turn goes at the latest of now and what is owed in its scopes.** -/
theorem startOf_latest (h : Paced kept owed now) :
    Latest owed host queues now (startOf kept host queues now) := by
  refine ⟨now_le_startOf, ?_, ?_⟩
  · intro demand hd hhost hscope
    obtain ⟨queue, hq, hs⟩ := hscope
    obtain hle | ⟨entry, hentry, hle⟩ := h.held demand hd
    · exact Nat.le_trans hle now_le_startOf
    · rw [hhost, ← hs] at hentry
      exact Nat.le_trans hle (next_le_startOf hq hentry)
  · obtain hnow | ⟨queue, hq, entry, hentry, he⟩ := @startOf_mem kept host queues now
    · exact .inl hnow
    · exact .inr ⟨_, h.owed _ entry hentry, rfl, ⟨queue, hq, rfl⟩, he⟩

variable {calls : List Call}

/-- The last call of a run is no later than what comes after it. -/
theorem last_le (hsorted : (calls.map Call.now ++ [now]).Pairwise (· ≤ ·)) :
    (0 :: calls.map Call.now).getLast (by simp) ≤ now := by
  obtain ⟨-, -, hnow⟩ := List.pairwise_append.mp hsorted
  have hlast := List.getLast_mem (l := 0 :: calls.map Call.now) (by simp)
  obtain h0 | hlast := List.mem_cons.mp hlast
  · rw [h0]
    exact Nat.zero_le _
  · exact hnow _ hlast now List.mem_cons_self

theorem sorted_from (hsorted : (calls.map Call.now ++ [now]).Pairwise (· ≤ ·)) :
    (0 :: calls.map Call.now).Pairwise (· ≤ ·) :=
  List.pairwise_cons.mpr ⟨fun _ _ => Nat.zero_le _, (List.pairwise_append.mp hsorted).1⟩

/-! ### What turns and answers demand -/

variable [Clock]

theorem tidy_some {queue kept : Queue} (h : queue.tidy now = some kept) : kept = queue := by
  unfold Queue.tidy at h
  split_ifs at h
  exact (Option.some.inj h).symm

theorem tidy_none {queue : Queue} (h : queue.tidy now = none) : queue.next ≤ now := by
  unfold Queue.tidy at h
  split_ifs at h with hidle
  exact (of_decide_eq_true hidle).1

/-- **A turn leaves each queue it waits in at its gap after it, unless that has come.** -/
theorem taken {scope : Scope} {gap : Nat} (h : gapOf queues scope = some gap) :
    (∃ throttled, queues.foldl (take Queue.tidy host start now) kept (host, scope) =
        some ⟨start + gap, throttled⟩) ∨
      queues.foldl (take Queue.tidy host start now) kept (host, scope) = none ∧
        start + gap ≤ now := by
  induction queues using List.reverseRecOn with
  | nil => cases h
  | append_singleton queues queue ih =>
    rw [gapOf_append] at h
    rw [List.foldl_append, List.foldl_cons, List.foldl_nil]
    generalize queues.foldl (take Queue.tidy host start now) kept = before at *
    rw [take]
    by_cases hs : queue.1 = scope
    · rw [if_pos hs, Option.some.injEq] at h
      rw [hs, set_self]
      subst h
      cases ht : Queue.tidy now { (before (host, scope)).getD ⟨now, 0⟩ with
        next := start + queue.2 } with
      | none => exact .inr ⟨rfl, tidy_none ht⟩
      | some entry =>
        rw [tidy_some ht]
        exact .inl ⟨_, rfl⟩
    · rw [if_neg hs] at h
      have hkey : ((host, scope) : Key) ≠ (host, queue.1) := by
        intro he
        exact hs (congrArg Prod.snd he).symm
      rw [set_ne _ hkey]
      exact ih h

theorem turn_late {tidy : Nat → Queue → Option Queue}
    (h : now + MAX_WAIT < startOf kept host queues now) :
    turn tidy kept host queues now = (.error (startOf kept host queues now - now), kept) := by
  rw [turn]
  exact if_pos h

theorem turn_soon {tidy : Nat → Queue → Option Queue}
    (h : ¬ now + MAX_WAIT < startOf kept host queues now) :
    turn tidy kept host queues now = (.ok (startOf kept host queues now),
      queues.foldl (take tidy host (startOf kept host queues now) now) kept) := by
  rw [turn]
  exact if_neg h

theorem turn_granted (h : (turn Queue.tidy kept host queues now).1 = .ok start) :
    start = startOf kept host queues now ∧ start ≤ now + MAX_WAIT ∧
      (turn Queue.tidy kept host queues now).2 =
        queues.foldl (take Queue.tidy host start now) kept := by
  by_cases hlate : now + MAX_WAIT < startOf kept host queues now
  · rw [turn_late hlate] at h
    cases h
  · rw [turn_soon hlate] at h ⊢
    obtain rfl := Except.ok.inj h
    exact ⟨rfl, Nat.le_of_not_lt hlate, rfl⟩

theorem turn_refused {wait : Nat} (h : (turn Queue.tidy kept host queues now).1 = .error wait) :
    wait = startOf kept host queues now - now ∧ now + MAX_WAIT < startOf kept host queues now ∧
      (turn Queue.tidy kept host queues now).2 = kept := by
  by_cases hlate : now + MAX_WAIT < startOf kept host queues now
  · rw [turn_late hlate] at h ⊢
    obtain rfl := Except.error.inj h
    exact ⟨rfl, hlate, rfl⟩
  · rw [turn_soon hlate] at h
    cases h

/-- What a turn demands of later ones, once it is granted. -/
def turnDemands (host : String) (queues : List (Scope × Nat)) : Except Nat Nat → List Demand
  | .error _ => []
  | .ok start => queues.filterMap fun queue => (gapOf queues queue.1).map fun gap =>
      ⟨host, queue.1, start + gap⟩

/-- The pause that an answer sets, after those in a row that are still counted. -/
def pauseSet (parseHttpDate : List Char → Option Int) (kept : Queues) (answer : Answer) : Nat :=
  answer.pause parseHttpDate
    (((kept (answer.host, answer.scope)).bind (Queue.tidy answer.now)).getD ⟨answer.now, 0⟩).throttled

/-- What a call demands of later turns. -/
def demands (parseHttpDate : List Char → Option Int) (kept : Queues) : Call → List Demand
  | .turn host queues now => turnDemands host queues (turn Queue.tidy kept host queues now).1
  | .answered answer =>
    if answer.throttles then
      [⟨answer.host, answer.scope, answer.now + pauseSet parseHttpDate kept answer⟩]
    else []

/-- What is demanded by calls from `kept` on. -/
def ledger (parseHttpDate : List Char → Option Int) : Queues → List Call → List Demand
  | _, [] => []
  | kept, call :: calls =>
    demands parseHttpDate kept call ++
      ledger parseHttpDate (step parseHttpDate Queue.tidy kept call) calls

theorem mem_demands {demand : Demand}
    (hstart : (turn Queue.tidy kept host queues now).1 = .ok start) :
    demand ∈ demands parseHttpDate kept (.turn host queues now) ↔
      demand.host = host ∧ ∃ gap, gapOf queues demand.scope = some gap ∧
        demand.time = start + gap := by
  rw [demands, hstart, turnDemands, List.mem_filterMap]
  simp only [Option.map_eq_some_iff]
  constructor
  · intro h
    obtain ⟨queue, hq, gap, hgap, rfl⟩ := h
    exact ⟨rfl, gap, hgap, rfl⟩
  · intro h
    obtain ⟨rfl, gap, hgap, htime⟩ := h
    obtain ⟨queue, hq, hs⟩ := gapOf_mem hgap
    refine ⟨queue, hq, gap, by rw [hs, hgap], ?_⟩
    obtain ⟨host, scope, time⟩ := demand
    simp only at hs htime
    rw [hs, htime]

/-- A turn keeps what was demanded, and what it demands itself. -/
theorem paced_turn (h : Paced kept owed now) :
    Paced (turn Queue.tidy kept host queues now).2
      (owed ++ demands parseHttpDate kept (.turn host queues now)) now := by
  cases ht : (turn Queue.tidy kept host queues now).1 with
  | error wait =>
    rw [(turn_refused ht).2.2, demands, ht, turnDemands, List.append_nil]
    exact h
  | ok start =>
    obtain ⟨hs, -, hkept⟩ := turn_granted ht
    rw [hkept]
    have hother : ∀ key : Key, (key.1 = host → gapOf queues key.2 = none) →
        queues.foldl (take Queue.tidy host start now) kept key = kept key := by
      intro key hkey
      apply taken_other
      intro queue hq he
      have hhost : key.1 = host := (congrArg Prod.fst he).symm
      exact gapOf_none.1 (hkey hhost) queue hq (congrArg Prod.snd he)
    constructor
    · intro demand hd
      by_cases hkey : demand.host = host ∧ ∃ gap, gapOf queues demand.scope = some gap
      · obtain ⟨hhost, gap, hgap⟩ := hkey
        -- what was demanded of the scope is no later than the turn
        have hle : demand.time ≤ now ∨ demand.time ≤ start + gap := by
          obtain hd | hd := List.mem_append.mp hd
          · obtain hle | ⟨queue, hq, hle⟩ := h.held demand hd
            · exact .inl hle
            · obtain ⟨waiting, hw, hws⟩ := gapOf_mem hgap
              rw [hhost, ← hws] at hq
              have hnext := @next_le_startOf _ _ _ now _ hw _ hq
              exact .inr (by omega)
          · obtain ⟨-, gap', hgap', htime⟩ := (mem_demands ht).mp hd
            obtain rfl := Option.some.inj (hgap.symm.trans hgap')
            exact .inr (Nat.le_of_eq htime)
        rw [hhost]
        obtain ⟨throttled, ht'⟩ | ⟨-, hpast⟩ := taken hgap
        · obtain hle | hle := hle
          · exact .inl hle
          · exact .inr ⟨_, ht', hle⟩
        · exact .inl (by omega)
      · have hnone : demand.host = host → gapOf queues demand.scope = none := by
          intro hhost
          by_contra hne
          obtain ⟨gap, hgap⟩ := Option.ne_none_iff_exists'.mp hne
          exact hkey ⟨hhost, gap, hgap⟩
        rw [hother (demand.host, demand.scope) hnone]
        obtain hd | hd := List.mem_append.mp hd
        · exact h.held demand hd
        · obtain ⟨hhost, gap, hgap, -⟩ := (mem_demands ht).mp hd
          exact absurd ⟨hhost, gap, hgap⟩ hkey
    · intro key queue hq
      by_cases hkey : key.1 = host ∧ ∃ gap, gapOf queues key.2 = some gap
      · obtain ⟨hhost, gap, hgap⟩ := hkey
        have hk : key = (host, key.2) := Prod.ext hhost rfl
        rw [hk] at hq
        obtain ⟨throttled, ht'⟩ | ⟨hnone, -⟩ := taken hgap
        · rw [ht'] at hq
          obtain rfl := Option.some.inj hq
          exact List.mem_append_right _ ((mem_demands ht).mpr ⟨hhost, gap, hgap, rfl⟩)
        · rw [hnone] at hq
          cases hq
      · have hnone : key.1 = host → gapOf queues key.2 = none := by
          intro hhost
          by_contra hne
          obtain ⟨gap, hgap⟩ := Option.ne_none_iff_exists'.mp hne
          exact hkey ⟨hhost, gap, hgap⟩
        rw [hother key hnone] at hq
        exact List.mem_append_left _ (h.owed key queue hq)

/-- A queue that is tidied away owes nothing any more. -/
theorem paced_tidied (h : Paced kept owed now) :
    Paced (fun other => (kept other).bind (Queue.tidy now)) owed now := by
  constructor
  · intro demand hd
    obtain hle | ⟨queue, hq, hle⟩ := h.held demand hd
    · exact .inl hle
    · cases ht : queue.tidy now with
      | none => exact .inl (Nat.le_trans hle (tidy_none ht))
      | some entry =>
        refine .inr ⟨entry, ?_, by rw [tidy_some ht]; exact hle⟩
        rw [hq, Option.bind_some, ht]
  · intro key queue hq
    obtain ⟨entry, hk, ht⟩ := Option.bind_eq_some_iff.mp hq
    obtain rfl := tidy_some ht
    exact h.owed key queue hk

theorem answered_throttled {answer : Answer} (tidy : Nat → Queue → Option Queue)
    (h : answer.throttles = true) {tidied : Queues} {queue : Queue}
    (htidied : (fun other => (kept other).bind (tidy answer.now)) = tidied)
    (hqueue : (tidied (answer.host, answer.scope)).getD ⟨answer.now, 0⟩ = queue) :
    answered parseHttpDate tidy kept answer = tidied.set (answer.host, answer.scope)
      (some ⟨max queue.next (answer.now + answer.pause parseHttpDate queue.throttled),
        min (queue.throttled + 1) (2 ^ 32 - 1)⟩) := by
  subst htidied hqueue
  rw [answered]
  exact if_pos h

theorem answered_none {answer : Answer} (tidy : Nat → Queue → Option Queue)
    (h : answer.throttles = false) (hentry : kept (answer.host, answer.scope) = none) :
    answered parseHttpDate tidy kept answer = kept := by
  simp only [answered, h, hentry, Bool.false_eq_true, if_false]

theorem answered_some {answer : Answer} (tidy : Nat → Queue → Option Queue)
    (h : answer.throttles = false) {entry : Queue}
    (hentry : kept (answer.host, answer.scope) = some entry) :
    answered parseHttpDate tidy kept answer =
      kept.set (answer.host, answer.scope) (tidy answer.now ⟨entry.next, 0⟩) := by
  simp only [answered, h, hentry, Bool.false_eq_true, if_false]

/-- Any other answer keeps what was demanded, and forgets the pauses in a row. -/
theorem paced_counted {key : Key} {entry : Queue} (h : Paced kept owed now)
    (hentry : kept key = some entry) :
    Paced (kept.set key (Queue.tidy now ⟨entry.next, 0⟩)) owed now := by
  rw [← List.append_nil owed]
  refine paced_set h (fun demand hd => absurd hd List.not_mem_nil) ?_ ?_
  · intro demand hd hkey
    rw [List.append_nil] at hd
    obtain hle | ⟨queue, hq, hle⟩ := h.held demand hd
    · exact .inl hle
    · rw [hkey, hentry, Option.some.injEq] at hq
      rw [← hq] at hle
      cases htidy : Queue.tidy now ⟨entry.next, 0⟩ with
      | none =>
        have hnext := tidy_none htidy
        exact .inl (Nat.le_trans hle hnext)
      | some left =>
        refine .inr ⟨left, rfl, ?_⟩
        rw [tidy_some htidy]
        exact hle
  · intro left hq
    rw [tidy_some hq]
    exact List.mem_append_left _ (h.owed _ entry hentry)

theorem paced_answered (answer : Answer) (h : Paced kept owed answer.now) :
    Paced (answered parseHttpDate Queue.tidy kept answer)
      (owed ++ demands parseHttpDate kept (.answered answer)) answer.now := by
  rw [demands]
  cases ht : answer.throttles with
  | true =>
    rw [if_pos rfl, answered_throttled Queue.tidy ht rfl rfl]
    exact paced_paused (paced_tidied h) rfl
  | false =>
    rw [if_neg Bool.false_ne_true, List.append_nil]
    cases hentry : kept (answer.host, answer.scope) with
    | none =>
      rw [answered_none Queue.tidy ht hentry]
      exact h
    | some entry =>
      rw [answered_some Queue.tidy ht hentry]
      exact paced_counted h hentry

/-- **A call keeps what was demanded, and what it demands itself.** -/
theorem paced_step (call : Call) (h : Paced kept owed now) (hle : now ≤ call.now) :
    Paced (step parseHttpDate Queue.tidy kept call) (owed ++ demands parseHttpDate kept call)
      call.now := by
  cases call with
  | turn host queues time =>
    rw [Call.now] at hle ⊢
    exact paced_turn (h.mono hle)
  | answered answer =>
    rw [Call.now] at hle ⊢
    exact paced_answered answer (h.mono hle)

/-- **So does a run.** -/
theorem paced_run (calls : List Call) (h : Paced kept owed now)
    (hsorted : (now :: calls.map Call.now).Pairwise (· ≤ ·)) :
    Paced (calls.foldl (step parseHttpDate Queue.tidy) kept) (owed ++ ledger parseHttpDate kept calls)
      ((now :: calls.map Call.now).getLast (by simp)) := by
  induction calls generalizing kept owed now with
  | nil =>
    rw [ledger, List.append_nil]
    exact h
  | cons call calls ih =>
    rw [ledger, ← List.append_assoc]
    rw [List.map_cons, List.pairwise_cons] at hsorted
    have hstep := @paced_step parseHttpDate kept now owed _ call h
      (hsorted.1 _ List.mem_cons_self)
    exact ih hstep hsorted.2

/-! ### A turn after a run -/

theorem ledger_append (before calls : List Call) :
    ledger parseHttpDate kept (before ++ calls) = ledger parseHttpDate kept before ++
      ledger parseHttpDate (before.foldl (step parseHttpDate Queue.tidy) kept) calls := by
  induction before generalizing kept with
  | nil => rfl
  | cons call before ih =>
    rw [List.cons_append, ledger, ih, ledger, List.append_assoc]
    rfl

/-- What a call of a run demanded is in the run's ledger. -/
theorem mem_ledger {before between : List Call} {call : Call} {demand : Demand}
    (h : demand ∈ demands parseHttpDate (after parseHttpDate Queue.tidy before) call) :
    demand ∈ ledger parseHttpDate noQueues (before ++ call :: between) := by
  rw [ledger_append, ledger]
  exact List.mem_append_right _ (List.mem_append_left _ h)

/-- **The queues after a run hold what it demanded.** -/
theorem paced_after (hsorted : (calls.map Call.now ++ [now]).Pairwise (· ≤ ·)) :
    Paced (after parseHttpDate Queue.tidy calls) (ledger parseHttpDate noQueues calls) now := by
  have hrun := @paced_run parseHttpDate noQueues 0 [] _ calls (paced_none 0) (sorted_from hsorted)
  exact hrun.mono (last_le hsorted)

end JewelCase.Network
