import JewelCase.Scanner.Pool
import Mathlib.Data.List.GetD
import Mathlib.Data.List.Perm.Subperm
import Mathlib.Data.List.TakeWhile
import Mathlib.Data.Nat.ModEq

/-!
# Jobs in turn

No library runs more passes than its share, a thread that looks for a job finds one or how long to
wait, and a job that stays ready is taken before any other is taken twice.
-/
namespace JewelCase.Scanner.Decode

set_option autoImplicit false

variable {schedule : Schedule} {pool : Pool}

/-! ### Passes at once -/

/-- How many threads run a pass of a job of `library`. -/
def Pool.passes (pool : Pool) (schedule : Schedule) (library : Int) : Nat :=
  (List.range schedule.threads).countP fun thread =>
    (pool.pass thread).any fun job => schedule.library job = library

/-- What is counted of a function once its value at a place below `n` has changed. -/
theorem countP_update {n place : Nat} (hplace : place < n) (pass : Nat → Option Nat)
    (value : Option Nat) (p : Option Nat → Bool) :
    ((List.range n).countP fun i => p (Function.update pass place value i)) +
        (if p (pass place) then 1 else 0) =
      ((List.range n).countP fun i => p (pass i)) + if p value then 1 else 0 := by
  induction n with
  | zero => exact absurd hplace (Nat.not_lt_zero _)
  | succ n ih =>
    rw [List.range_succ, List.countP_append, List.countP_append, List.countP_singleton,
      List.countP_singleton]
    rcases Nat.lt_succ_iff_lt_or_eq.mp hplace with hlt | rfl
    · rw [Function.update_of_ne hlt.ne']
      have hrest := ih hlt
      omega
    · have hrest : ((List.range place).countP fun i => p (Function.update pass place value i)) =
          (List.range place).countP fun i => p (pass i) := by
        apply List.countP_congr
        intro i hi
        rw [Function.update_of_ne (List.mem_range.mp hi).ne]
      rw [hrest, Function.update_self]
      omega

/-- What holds of a pool: its counts are those of its passes, within each library's share. -/
structure Pool.Sound (schedule : Schedule) (pool : Pool) : Prop where
  running : ∀ library, pool.due.running library = pool.passes schedule library
  share : ∀ library, pool.due.running library ≤ schedule.perLibrary
  passes : ∀ thread job, pool.pass thread = some job →
    thread < schedule.threads ∧ job < schedule.count

theorem sound_start (schedule : Schedule) (now : Instant) : (Pool.start now).Sound schedule where
  running library := by
    have hnone : (List.range schedule.threads).countP (fun _ : Nat => false) = 0 :=
      List.countP_eq_zero.mpr fun _ _ h => Bool.false_ne_true h
    exact hnone.symm
  share _ := Nat.zero_le _
  passes _ _ h := absurd h.symm (Option.some_ne_none _)

/-- The job that a call takes is the first ready one in the order. -/
theorem find_job {due : Due} {now : Instant} {job : Nat} (h : schedule.find due now = .job job) :
    (schedule.order due).find? (schedule.ready due now) = some job := by
  unfold Schedule.find at h
  split at h
  · rename_i found hfound
    cases h
    exact hfound
  · split at h <;> cases h

theorem mem_order {due : Due} {job : Nat} (h : job ∈ schedule.order due) : job < schedule.count := by
  obtain ⟨i, hi, rfl⟩ := List.mem_map.mp h
  exact Nat.mod_lt _ (Nat.lt_of_le_of_lt (Nat.zero_le _) (List.mem_range.mp hi))

/-- Every job is in the order. -/
theorem order_mem (due : Due) {job : Nat} (h : job < schedule.count) : job ∈ schedule.order due := by
  have hpos : 0 < schedule.count := Nat.lt_of_le_of_lt (Nat.zero_le _) h
  have hlt := Nat.mod_lt due.next hpos
  refine List.mem_map.mpr ⟨(job + (schedule.count - due.next % schedule.count)) % schedule.count,
    List.mem_range.mpr (Nat.mod_lt _ hpos), ?_⟩
  rw [Nat.add_mod_mod, ← Nat.mod_add_mod]
  have hsum : due.next % schedule.count + (job + (schedule.count - due.next % schedule.count)) =
      job + schedule.count := by omega
  rw [hsum, Nat.add_mod_right, Nat.mod_eq_of_lt h]

/-- What a call that takes a job is: a free thread's, of a ready job. -/
theorem takes_some {event : Event} {job : Nat} (h : pool.takes schedule event = some job) :
    ∃ thread now, event = .call thread now ∧ thread < schedule.threads ∧
      pool.pass thread = none ∧ schedule.find pool.due now = .job job ∧ job < schedule.count ∧
      schedule.ready pool.due now job = true := by
  cases event with
  | ended thread report now => cases h
  | call thread now =>
    unfold Pool.takes at h
    dsimp only at h
    split_ifs at h with hfree
    unfold Pool.free at hfree
    rw [Bool.and_eq_true, decide_eq_true_eq, Option.isNone_iff_eq_none] at hfree
    split at h
    · rename_i found hfound
      cases h
      have hfind := find_job hfound
      exact ⟨thread, now, rfl, hfree.1, hfree.2, hfound,
        mem_order (List.mem_of_find?_eq_some hfind), List.find?_some hfind⟩
    · cases h
    · cases h

/-- A pass of a pool in which one thread's has changed. -/
theorem pass_update {pass : Nat → Option Nat} {thread other job : Nat} {value : Option Nat}
    (h : Function.update pass thread value other = some job) :
    other = thread ∧ value = some job ∨ pass other = some job := by
  by_cases hother : other = thread
  · rw [hother, Function.update_self] at h
    exact .inl ⟨hother, h⟩
  · rw [Function.update_of_ne hother] at h
    exact .inr h

theorem passes_update (pool : Pool) {thread : Nat} (hthread : thread < schedule.threads)
    (due : Due) (value : Option Nat) (library : Int) :
    Pool.passes ⟨due, Function.update pool.pass thread value⟩ schedule library +
        (if (pool.pass thread).any fun job => schedule.library job = library then 1 else 0) =
      pool.passes schedule library +
        if value.any fun job => schedule.library job = library then 1 else 0 :=
  countP_update hthread pool.pass value fun pass => pass.any fun job => schedule.library job = library

/-- **Every event** keeps a pool sound. -/
theorem Pool.Sound.step (h : pool.Sound schedule) (event : Event) :
    (pool.step schedule event).Sound schedule := by
  cases event with
  | call thread now =>
    unfold Pool.step
    dsimp only
    cases htakes : pool.takes schedule (.call thread now) with
    | none => exact h
    | some job =>
      obtain ⟨thread', now', hcall, hthread, hfree, -, hjob, hready⟩ := takes_some htakes
      cases hcall
      unfold Schedule.ready Schedule.isOpen at hready
      rw [Bool.and_eq_true, decide_eq_true_eq, decide_eq_true_eq] at hready
      dsimp only
      have hpasses : ∀ library, Pool.passes ⟨schedule.take pool.due job,
          Function.update pool.pass thread (some job)⟩ schedule library =
          pool.passes schedule library + if schedule.library job = library then 1 else 0 := by
        intro library
        have hupdate := passes_update pool hthread (schedule.take pool.due job) (some job)
          library
        rw [hfree, Option.any_none, Option.any_some] at hupdate
        simpa using hupdate
      refine ⟨?_, ?_, ?_⟩
      · intro library
        rw [hpasses, ← h.running]
        unfold Schedule.take
        dsimp only
        by_cases hlibrary : schedule.library job = library
        · rw [← hlibrary, Function.update_self, if_pos rfl]
        · rw [Function.update_of_ne (Ne.symm hlibrary), if_neg hlibrary]
          rfl
      · intro library
        unfold Schedule.take
        dsimp only
        by_cases hlibrary : library = schedule.library job
        · rw [hlibrary, Function.update_self]
          exact hready.2
        · rw [Function.update_of_ne hlibrary]
          exact h.share library
      · intro other job' hpass
        rcases pass_update hpass with ⟨rfl, hsame⟩ | hold
        · exact ⟨hthread, Option.some_inj.mp hsame ▸ hjob⟩
        · exact h.passes other job' hold
  | ended thread report now =>
    unfold Pool.step
    dsimp only
    cases hpass : pool.pass thread with
    | none => exact h
    | some job =>
      have hthread := (h.passes thread job hpass).1
      dsimp only
      have hpasses : ∀ library, Pool.passes ⟨schedule.ended pool.due job report now,
          Function.update pool.pass thread none⟩ schedule library +
          (if schedule.library job = library then 1 else 0) = pool.passes schedule library := by
        intro library
        have hupdate := passes_update pool hthread (schedule.ended pool.due job report now)
          none library
        rw [hpass, Option.any_none, Option.any_some] at hupdate
        simpa using hupdate
      have hrunning : ∀ library, (schedule.ended pool.due job report now).running library =
          pool.due.running library - if schedule.library job = library then 1 else 0 := by
        intro library
        unfold Schedule.ended
        dsimp only
        by_cases hlibrary : schedule.library job = library
        · rw [← hlibrary, Function.update_self, if_pos rfl]
        · rw [Function.update_of_ne (Ne.symm hlibrary), if_neg hlibrary]
          rfl
      refine ⟨?_, ?_, ?_⟩
      · intro library
        rw [hrunning, h.running]
        have hsum := hpasses library
        omega
      · intro library
        rw [hrunning]
        exact (Nat.sub_le _ _).trans (h.share library)
      · intro other job' hother
        rcases pass_update hother with ⟨-, hnone⟩ | hold
        · cases hnone
        · exact h.passes other job' hold

theorem Pool.Sound.run (h : pool.Sound schedule) (events : List Event) :
    (pool.run schedule events).Sound schedule := by
  induction events generalizing pool with
  | nil => exact h
  | cons event rest ih => exact ih (h.step event)

/-! ### A thread for every library -/

/-- How many threads run a pass. -/
def Pool.busy (pool : Pool) (schedule : Schedule) : Nat :=
  (List.range schedule.threads).countP fun thread => (pool.pass thread).isSome

/-- While a thread is free, the others are the most that run a pass. -/
theorem busy_lt {thread : Nat} (hthread : thread < schedule.threads)
    (hfree : pool.pass thread = none) : pool.busy schedule < schedule.threads := by
  have hle : pool.busy schedule ≤ (List.range schedule.threads).length := List.countP_le_length
  rw [List.length_range] at hle
  refine lt_of_le_of_ne hle ?_
  intro heq
  have hall := List.countP_eq_length.mp (heq.trans (List.length_range).symm) thread
    (List.mem_range.mpr hthread)
  rw [hfree] at hall
  cases hall

theorem countP_add_le {α : Type} {p q r : α → Bool} (hp : ∀ x, p x = true → r x = true)
    (hq : ∀ x, q x = true → r x = true) (hpq : ∀ x, p x = true → q x = false) (xs : List α) :
    xs.countP p + xs.countP q ≤ xs.countP r := by
  induction xs with
  | nil => exact Nat.le_refl _
  | cons x xs ih =>
    rw [List.countP_cons, List.countP_cons, List.countP_cons]
    cases hpx : p x with
    | true =>
      rw [hp x hpx, hpq x hpx]
      simp only [if_true, Bool.false_eq_true, if_false]
      omega
    | false =>
      cases hqx : q x with
      | true =>
        rw [hq x hqx]
        simp only [if_true, Bool.false_eq_true, if_false]
        omega
      | false =>
        simp only [Bool.false_eq_true, if_false]
        omega

theorem isSome_of_any {pass : Option Nat} {p : Nat → Bool} (h : pass.any p = true) :
    pass.isSome = true := by
  obtain ⟨job, hjob, -⟩ := (Option.any_eq_true _ _).mp h
  rw [hjob]
  rfl

theorem passes_le_busy (library : Int) : pool.passes schedule library ≤ pool.busy schedule :=
  List.countP_mono_left fun _ _ => isSome_of_any

/-- Passes of two libraries are on threads of their own. -/
theorem passes_add_le (pool : Pool) (schedule : Schedule) {library library' : Int} (hne : library ≠ library') :
    pool.passes schedule library + pool.passes schedule library' ≤ pool.busy schedule := by
  refine countP_add_le (fun _ => isSome_of_any) (fun _ => isSome_of_any) ?_ _
  intro thread hpass
  obtain ⟨job, hjob, hlibrary⟩ := (Option.any_eq_true _ _).mp hpass
  rw [hjob, Option.any_some, decide_eq_false_iff_not]
  exact fun heq => hne ((of_decide_eq_true hlibrary).symm.trans heq)

/-- The jobs of a schedule are of one library or of two at least. -/
theorem libraries (jobs : List Job) (size : Nat) :
    (∀ job < jobs.length, ∀ job' < jobs.length,
      (Schedule.new jobs size).library job = (Schedule.new jobs size).library job') ∧
        (Schedule.new jobs size).threads = size ∨
      (∃ job < jobs.length, ∃ job' < jobs.length,
        (Schedule.new jobs size).library job ≠ (Schedule.new jobs size).library job') ∧
        (Schedule.new jobs size).threads = size + 1 := by
  have hlibrary : ∀ job (h : job < jobs.length),
      (Schedule.new jobs size).library job = (jobs[job]).library := by
    intro job h
    change (jobs.getD job ⟨0, 0⟩).library = _
    rw [List.getD_eq_getElem _ _ h]
  have hmem : ∀ job (h : job < jobs.length), (jobs[job]).library ∈ (jobs.map Job.library).dedup :=
    fun job h => List.mem_dedup.mpr (List.mem_map_of_mem (List.getElem_mem h))
  unfold Schedule.new
  dsimp only
  by_cases hmany : 1 < (jobs.map Job.library).dedup.length
  · right
    refine ⟨?_, if_pos hmany⟩
    have hnodup := List.nodup_dedup (jobs.map Job.library)
    have hplace : ∀ i (h : i < (jobs.map Job.library).dedup.length),
        ∃ job, ∃ h' : job < jobs.length, (jobs[job]).library = ((jobs.map Job.library).dedup)[i] := by
      intro i h
      obtain ⟨found, hfound, heq⟩ :=
        List.mem_map.mp (List.mem_dedup.mp (List.getElem_mem h))
      obtain ⟨job, hjob, rfl⟩ := List.mem_iff_getElem.mp hfound
      exact ⟨job, hjob, heq⟩
    obtain ⟨job, hjob, heq⟩ := hplace 0 (by omega)
    obtain ⟨job', hjob', heq'⟩ := hplace 1 hmany
    refine ⟨job, hjob, job', hjob', ?_⟩
    rw [← Schedule.new, hlibrary job hjob, hlibrary job' hjob', heq, heq']
    intro hsame
    have hindex := (List.Nodup.getElem_inj_iff hnodup).mp hsame
    omega
  · left
    refine ⟨?_, if_neg hmany⟩
    intro job hjob job' hjob'
    rw [← Schedule.new, hlibrary job hjob, hlibrary job' hjob']
    generalize (jobs.map Job.library).dedup = libraries at hmany hmem
    have h := hmem job hjob
    have h' := hmem job' hjob'
    match libraries, hmany with
    | [], _ => exact absurd h List.not_mem_nil
    | [one], _ => rw [List.mem_singleton.mp h, List.mem_singleton.mp h']
    | _ :: _ :: _, hmany => exact absurd (by simp) hmany

/-- **Some job is open** whenever a thread is free. -/
theorem open_of_free {jobs : List Job} {size : Nat} (hsize : 1 ≤ size) (hjobs : jobs ≠ [])
    (h : pool.Sound (Schedule.new jobs size)) {thread : Nat}
    (hthread : thread < (Schedule.new jobs size).threads) (hfree : pool.pass thread = none) :
    ∃ job < jobs.length, (Schedule.new jobs size).isOpen pool.due job = true := by
  by_contra hnone
  have hfull : ∀ job < jobs.length,
      size ≤ pool.passes (Schedule.new jobs size) ((Schedule.new jobs size).library job) := by
    intro job hjob
    rw [← h.running]
    by_contra hlt
    exact hnone ⟨job, hjob, decide_eq_true (Nat.lt_of_not_le hlt)⟩
  have hbusy := busy_lt hthread hfree
  rcases libraries jobs size with ⟨-, hthreads⟩ | ⟨⟨job, hjob, job', hjob', hne⟩, hthreads⟩
  · have hpos : 0 < jobs.length := List.length_pos_iff.mpr hjobs
    have hle := (hfull 0 hpos).trans (passes_le_busy _)
    omega
  · have hle := passes_add_le pool (Schedule.new jobs size) hne
    have hfirst := hfull job hjob
    have hsecond := hfull job' hjob'
    omega

/-- **A thread that looks for a job** finds one, or how long to wait. -/
theorem find_something {jobs : List Job} {size : Nat} (hsize : 1 ≤ size) (hjobs : jobs ≠ [])
    (h : pool.Sound (Schedule.new jobs size)) {thread : Nat}
    (hthread : thread < (Schedule.new jobs size).threads) (hfree : pool.pass thread = none)
    (now : Instant) : (Schedule.new jobs size).find pool.due now ≠ .nothing := by
  obtain ⟨job, hjob, hopen⟩ := open_of_free hsize hjobs h hthread hfree
  unfold Schedule.find
  split
  · exact Found.noConfusion
  · split
    · exact Found.noConfusion
    · rename_i hnone
      rw [List.min?_eq_none_iff, List.map_eq_nil_iff, List.filter_eq_nil_iff] at hnone
      exact absurd hopen (hnone job (List.mem_range.mpr hjob))

/-- **A library whose passes hang** leaves every other library open, and a thread. -/
theorem open_of_hang {jobs : List Job} {size : Nat} {library : Int} {thread job : Nat}
    (hjob : job < jobs.length) (hother : (Schedule.new jobs size).library job ≠ library)
    (hlibrary : ∃ job < jobs.length, (Schedule.new jobs size).library job = library)
    (h : pool.Sound (Schedule.new jobs size)) (hhangs : 1 ≤ pool.due.running library)
    (hthread : thread < (Schedule.new jobs size).threads) (hfree : pool.pass thread = none) :
    (Schedule.new jobs size).isOpen pool.due job = true := by
  have hbusy := busy_lt hthread hfree
  have hle := passes_add_le pool (Schedule.new jobs size) hother
  rw [← h.running, ← h.running] at hle
  obtain ⟨job', hjob', rfl⟩ := hlibrary
  rcases libraries jobs size with ⟨hsame, -⟩ | ⟨-, hthreads⟩
  · exact absurd (hsame job hjob job' hjob') hother
  · apply decide_eq_true
    change _ < size
    omega

/-! ### In turn -/

/-- The first ready job in the order: those before it are not. -/
theorem order_first {due : Due} {now : Instant} {taken : Nat}
    (h : schedule.find due now = .job taken) :
    ∃ i < schedule.count, taken = (due.next + i) % schedule.count ∧
      ∀ d < i, schedule.ready due now ((due.next + d) % schedule.count) = false := by
  have hfind := find_job h
  unfold Schedule.order at hfind
  rw [List.find?_map, Option.map_eq_some_iff] at hfind
  obtain ⟨i, hi, rfl⟩ := hfind
  obtain ⟨-, hmem, hbefore⟩ := List.find?_range_eq_some.mp hi
  refine ⟨i, List.mem_range.mp hmem, rfl, fun d hd => ?_⟩
  rw [← Bool.not_eq_true']
  exact hbefore d hd

/-- Whether a job is ready at every call of a free thread over a run. -/
def StaysReady (schedule : Schedule) (job : Nat) : Pool → List Event → Prop
  | _, [] => True
  | pool, event :: rest =>
    (∀ thread now, event = .call thread now → pool.free schedule thread = true →
      schedule.ready pool.due now job = true) ∧
    StaysReady schedule job (pool.step schedule event) rest

theorem stays_append {job : Nat} (before : List Event) {rest : List Event}
    (h : StaysReady schedule job pool (before ++ rest)) :
    StaysReady schedule job (pool.run schedule before) rest := by
  induction before generalizing pool with
  | nil => exact h
  | cons event before ih => exact ih h.2

/-- What follows a take. -/
theorem step_takes {event : Event} {taken : Nat} (h : pool.takes schedule event = some taken) :
    (pool.step schedule event).due = schedule.take pool.due taken := by
  obtain ⟨thread, now, rfl, -⟩ := takes_some h
  unfold Pool.step
  dsimp only
  rw [h]

/-- What takes no job leaves the place to look from. -/
theorem step_next {event : Event} (h : pool.takes schedule event = none) :
    (pool.step schedule event).due.next = pool.due.next := by
  unfold Pool.step
  cases event with
  | call thread now =>
    dsimp only
    rw [h]
  | ended thread report now =>
    dsimp only
    split <;> rfl

/-- **The places taken before a job that stays ready** come one after another from where a thread first
looks. -/
theorem taken_before {job : Nat} {events : List Event} (hready : StaysReady schedule job pool events)
    {d : Nat} (hd : d < schedule.count) (hplace : job = (pool.due.next + d) % schedule.count) :
    ∃ places : List Nat, places.Pairwise (· < ·) ∧ (∀ place ∈ places, place < d) ∧
      (pool.taken schedule events).takeWhile (· ≠ job) =
        places.map fun place => (pool.due.next + place) % schedule.count := by
  induction events generalizing pool d with
  | nil => exact ⟨[], List.Pairwise.nil, fun _ h => absurd h List.not_mem_nil, rfl⟩
  | cons event rest ih =>
    rw [Pool.taken]
    cases htakes : pool.takes schedule event with
    | none =>
      have hnext := step_next htakes
      obtain ⟨places, hsorted, hlt, heq⟩ := ih hready.2 hd (hnext.symm ▸ hplace)
      rw [hnext] at heq
      exact ⟨places, hsorted, hlt, heq⟩
    | some taken =>
      obtain ⟨thread, now, rfl, hthread, hfree, hfind, -, -⟩ := takes_some htakes
      obtain ⟨i, hi, htaken, hbefore⟩ := order_first hfind
      have hjob := hready.1 thread now rfl (by
        rw [Pool.free, hfree, decide_eq_true hthread]
        rfl)
      have hle : i ≤ d := by
        by_contra hlt
        have hnot := hbefore d (Nat.lt_of_not_le hlt)
        rw [← hplace, hjob] at hnot
        cases hnot
      rw [Option.toList_some, List.singleton_append]
      by_cases hsame : taken = job
      · refine ⟨[], List.Pairwise.nil, fun _ h => absurd h List.not_mem_nil, ?_⟩
        rw [List.takeWhile_cons_of_neg (by simpa using hsame)]
        rfl
      · have hlt : i < d := by
          refine lt_of_le_of_ne hle ?_
          rintro rfl
          exact hsame (htaken.trans hplace.symm)
        have hnext : (pool.step schedule (.call thread now)).due.next =
            (pool.due.next + (i + 1)) % schedule.count := by
          rw [step_takes htakes, htaken]
          exact (Nat.mod_add_mod _ _ _)
        have hshift : ∀ place, ((pool.due.next + (i + 1)) % schedule.count + place) % schedule.count =
            (pool.due.next + (place + (i + 1))) % schedule.count := by
          intro place
          rw [Nat.mod_add_mod]
          congr 1
          omega
        obtain ⟨places, hsorted, hless, heq⟩ := ih hready.2 (d := d - (i + 1)) (by omega) (by
          rw [hnext, hshift, hplace]
          congr 2
          omega)
        refine ⟨i :: places.map (· + (i + 1)), ?_, ?_, ?_⟩
        · refine List.pairwise_cons.mpr ⟨?_, hsorted.map _ fun a b hab => by omega⟩
          intro place hplace
          obtain ⟨before, -, rfl⟩ := List.mem_map.mp hplace
          omega
        · intro place hmem
          rcases List.mem_cons.mp hmem with rfl | hmem
          · exact hlt
          · obtain ⟨before, hold, rfl⟩ := List.mem_map.mp hmem
            have hbound := hless before hold
            omega
        · rw [List.takeWhile_cons_of_pos (by simpa using hsame), heq, List.map_cons, List.map_map,
            htaken, hnext]
          congr 1
          apply List.map_congr_left
          intro place _
          exact hshift place

/-- **In turn**: a job that stays ready is taken before any other is taken twice. -/
theorem taken_in_turn {job : Nat} (hjob : job < schedule.count) {events : List Event}
    (hready : StaysReady schedule job pool events) :
    ((pool.taken schedule events).takeWhile (· ≠ job)).Nodup := by
  obtain ⟨i, hi, hplace⟩ := List.mem_map.mp (order_mem pool.due hjob)
  have hi := List.mem_range.mp hi
  obtain ⟨places, hsorted, hless, heq⟩ := taken_before hready hi hplace.symm
  rw [heq]
  refine List.Nodup.map_on ?_ (hsorted.imp fun h => h.ne)
  intro a ha b hb hab
  have hmod : a ≡ b [MOD schedule.count] := Nat.ModEq.add_left_cancel' pool.due.next hab
  exact hmod.eq_of_lt_of_lt ((hless a ha).trans hi) ((hless b hb).trans hi)

/-- Every job that is taken has a place. -/
theorem taken_lt (events : List Event) : ∀ job ∈ pool.taken schedule events, job < schedule.count := by
  induction events generalizing pool with
  | nil => exact fun _ h => absurd h List.not_mem_nil
  | cons event rest ih =>
    intro job hjob
    rw [Pool.taken] at hjob
    rcases List.mem_append.mp hjob with hnow | hlater
    · obtain ⟨-, -, -, -, -, -, hlt, -⟩ := takes_some (Option.mem_toList.mp hnow)
      exact hlt
    · exact ih job hlater

/-- A job that stays ready is among the first so many taken. -/
theorem taken_soon {job : Nat} (hjob : job < schedule.count) {events : List Event}
    (hready : StaysReady schedule job pool events)
    (hmany : schedule.count ≤ (pool.taken schedule events).length) :
    job ∈ pool.taken schedule events := by
  by_contra hnot
  have hall : (pool.taken schedule events).takeWhile (· ≠ job) = pool.taken schedule events := by
    rw [List.takeWhile_eq_self_iff]
    intro other hother
    rw [decide_eq_true_iff]
    rintro rfl
    exact hnot hother
  have hnodup := taken_in_turn hjob hready
  rw [hall] at hnodup
  have hsub : (job :: pool.taken schedule events).Nodup := List.nodup_cons.mpr ⟨hnot, hnodup⟩
  have hsubset : job :: pool.taken schedule events ⊆ List.range schedule.count := by
    intro other hother
    rcases List.mem_cons.mp hother with rfl | hmem
    · exact List.mem_range.mpr hjob
    · exact List.mem_range.mpr (taken_lt events other hmem)
  have hle := (hsub.subperm hsubset).length_le
  rw [List.length_cons, List.length_range] at hle
  omega

/-! ### Passes that hang -/

/-- Whether no pass of a library's jobs is over in a run. -/
def Hangs (schedule : Schedule) (library : Int) : Pool → List Event → Prop
  | _, [] => True
  | pool, event :: rest =>
    (∀ thread report now, event = .ended thread report now → ∀ job, pool.pass thread = some job →
      schedule.library job ≠ library) ∧ Hangs schedule library (pool.step schedule event) rest

/-- Whether a job is due at every call of a free thread over a run. -/
def StaysDue (schedule : Schedule) (job : Nat) : Pool → List Event → Prop
  | _, [] => True
  | pool, event :: rest =>
    (∀ thread now, event = .call thread now → pool.free schedule thread = true →
      pool.due.dueAt job ≤ now) ∧ StaysDue schedule job (pool.step schedule event) rest

/-- Where a library's passes hang, none of them is over. -/
theorem running_mono {library : Int} {event : Event}
    (hhangs : ∀ thread report now, event = .ended thread report now → ∀ job,
      pool.pass thread = some job → schedule.library job ≠ library) :
    pool.due.running library ≤ (pool.step schedule event).due.running library := by
  cases event with
  | call thread now =>
    cases htakes : pool.takes schedule (.call thread now) with
    | none =>
      unfold Pool.step
      dsimp only
      rw [htakes]
    | some job =>
      rw [step_takes htakes]
      unfold Schedule.take
      dsimp only
      by_cases hlibrary : library = schedule.library job
      · rw [hlibrary, Function.update_self]
        exact Nat.le_succ _
      · rw [Function.update_of_ne hlibrary]
  | ended thread report now =>
    unfold Pool.step
    dsimp only
    cases hpass : pool.pass thread with
    | none => exact Nat.le_refl _
    | some job =>
      unfold Schedule.ended
      dsimp only
      rw [Function.update_of_ne (hhangs thread report now rfl job hpass).symm]

/-- **A due job of another library** stays ready while a library's passes hang. -/
theorem stays_ready {jobs : List Job} {size : Nat} {library : Int} {job : Nat}
    (hjob : job < jobs.length) (hother : (Schedule.new jobs size).library job ≠ library)
    (hlibrary : ∃ job < jobs.length, (Schedule.new jobs size).library job = library)
    (h : pool.Sound (Schedule.new jobs size)) (hruns : 1 ≤ pool.due.running library)
    {events : List Event} (hhangs : Hangs (Schedule.new jobs size) library pool events)
    (hdue : StaysDue (Schedule.new jobs size) job pool events) :
    StaysReady (Schedule.new jobs size) job pool events := by
  induction events generalizing pool with
  | nil => trivial
  | cons event rest ih =>
    refine ⟨?_, ih (h.step event) (hruns.trans (running_mono hhangs.1)) hhangs.2 hdue.2⟩
    intro thread now hcall hfree
    have hready := hdue.1 thread now hcall hfree
    rw [Pool.free, Bool.and_eq_true, decide_eq_true_eq, Option.isNone_iff_eq_none] at hfree
    rw [Schedule.ready, Bool.and_eq_true, decide_eq_true_eq]
    exact ⟨hready, open_of_hang hjob hother hlibrary h hruns hfree.1 hfree.2⟩

/-- A free thread that calls while a job is ready takes one. -/
theorem takes_of_ready {job thread : Nat} {now : Instant} (hjob : job < schedule.count)
    (hfree : pool.free schedule thread = true) (hready : schedule.ready pool.due now job = true) :
    ∃ taken, pool.takes schedule (.call thread now) = some taken := by
  have hsome : ((schedule.order pool.due).find? (schedule.ready pool.due now)).isSome :=
    List.find?_isSome.mpr ⟨job, order_mem pool.due hjob, hready⟩
  obtain ⟨taken, htaken⟩ := Option.isSome_iff_exists.mp hsome
  refine ⟨taken, ?_⟩
  unfold Pool.takes Schedule.find
  dsimp only
  rw [if_pos hfree, htaken]

/-- Every call of a free thread takes a job over a run in which one stays ready. -/
theorem calls_take {job : Nat} (hjob : job < schedule.count) {events : List Event}
    (hready : StaysReady schedule job pool events) (before : List Event) (thread : Nat)
    (now : Instant) (after : List Event) (hsplit : events = before ++ .call thread now :: after)
    (hfree : (pool.run schedule before).free schedule thread = true) :
    ∃ taken, (pool.run schedule before).takes schedule (.call thread now) = some taken := by
  rw [hsplit] at hready
  exact takes_of_ready hjob hfree ((stays_append before hready).1 thread now rfl hfree)

/-- A thread runs no pass of a library, whatever that library's passes do. -/
theorem thread_left {jobs : List Job} {size : Nat} {library : Int} {job : Nat}
    (hjob : job < jobs.length) (hother : (Schedule.new jobs size).library job ≠ library)
    (hlibrary : ∃ job < jobs.length, (Schedule.new jobs size).library job = library)
    (h : pool.Sound (Schedule.new jobs size)) :
    ∃ thread < (Schedule.new jobs size).threads, ∀ job, pool.pass thread = some job →
      (Schedule.new jobs size).library job ≠ library := by
  by_contra hnone
  have hall : pool.passes (Schedule.new jobs size) library =
      (List.range (Schedule.new jobs size).threads).length := by
    refine List.countP_eq_length.mpr fun thread hthread => ?_
    by_contra hpass
    refine hnone ⟨thread, List.mem_range.mp hthread, fun job hjob hlibrary => hpass ?_⟩
    rw [hjob, Option.any_some, decide_eq_true_iff]
    exact hlibrary
  have hshare : pool.due.running library ≤ size := h.share library
  rw [h.running, hall, List.length_range] at hshare
  obtain ⟨job', hjob', rfl⟩ := hlibrary
  rcases libraries jobs size with ⟨hsame, -⟩ | ⟨-, hthreads⟩
  · exact hother (hsame job hjob job' hjob')
  · omega

/-- **The pool never lets one library take every thread.** Over any run of its threads, no library runs
more than `size` passes at once, and a thread that looks for a job finds one or how long to wait.
While a job stays ready, every call of a free thread takes a job, none other is taken twice before
that one, and that one is among the first so many taken, however many the jobs are. And while all
passes of one library hang, a thread is left, and the same holds while a job of another library stays
due. -/
theorem pool_shared (jobs : List Job) (size : Nat) (start : Instant) (events : List Event)
    (hsize : 1 ≤ size) :
    let schedule := Schedule.new jobs size
    let pool := (Pool.start start).run schedule events
    (∀ library, pool.passes schedule library ≤ size) ∧
    (∀ thread now, jobs ≠ [] → pool.free schedule thread = true →
      schedule.find pool.due now ≠ .nothing) ∧
    (∀ job < jobs.length, ∀ later, StaysReady schedule job pool later →
      (∀ before thread now after, later = before ++ .call thread now :: after →
        (pool.run schedule before).free schedule thread = true →
        ∃ taken, (pool.run schedule before).takes schedule (.call thread now) = some taken) ∧
      ((pool.taken schedule later).takeWhile (· ≠ job)).Nodup ∧
      (jobs.length ≤ (pool.taken schedule later).length → job ∈ pool.taken schedule later)) ∧
    ∀ library, 1 ≤ pool.passes schedule library → ∀ job < jobs.length,
      schedule.library job ≠ library →
      (∃ thread < schedule.threads, ∀ job', pool.pass thread = some job' →
        schedule.library job' ≠ library) ∧
      ∀ later, Hangs schedule library pool later → StaysDue schedule job pool later →
        (∀ before thread now after, later = before ++ .call thread now :: after →
          (pool.run schedule before).free schedule thread = true →
          ∃ taken, (pool.run schedule before).takes schedule (.call thread now) = some taken) ∧
        ((pool.taken schedule later).takeWhile (· ≠ job)).Nodup ∧
        (jobs.length ≤ (pool.taken schedule later).length → job ∈ pool.taken schedule later) := by
  intro schedule pool
  have h : pool.Sound schedule := (sound_start schedule start).run events
  refine ⟨fun library => h.running library ▸ h.share library, ?_, ?_, ?_⟩
  · intro thread now hjobs hfree
    rw [Pool.free, Bool.and_eq_true, decide_eq_true_eq, Option.isNone_iff_eq_none] at hfree
    exact find_something hsize hjobs h hfree.1 hfree.2 now
  · exact fun job hjob later hready =>
      ⟨calls_take hjob hready, taken_in_turn hjob hready, taken_soon hjob hready⟩
  · intro library hruns job hjob hother
    have hlibrary : ∃ job < jobs.length, schedule.library job = library := by
      obtain ⟨thread, -, hpass⟩ := List.countP_pos_iff.mp hruns
      obtain ⟨job', hjob', hsame⟩ := (Option.any_eq_true _ _).mp hpass
      exact ⟨job', (h.passes thread job' hjob').2, of_decide_eq_true hsame⟩
    refine ⟨thread_left hjob hother hlibrary h, fun later hhangs hdue => ?_⟩
    have hready := stays_ready hjob hother hlibrary h (h.running library ▸ hruns) hhangs hdue
    exact ⟨calls_take hjob hready, taken_in_turn hjob hready, taken_soon hjob hready⟩

/-- Two libraries' jobs on a pool of one thread and the one beyond it. While the first thread's pass
hangs, the second finds a job, and the other library's job is taken before so long. -/
theorem pool_shared_by_two :
    let schedule := Schedule.new [⟨1, 0⟩, ⟨2, 0⟩] 1
    let pool := (Pool.start 0).run schedule [.call 0 0]
    let later := [.call 1 0, .ended 1 none 0, .call 1 0]
    schedule.find pool.due 0 ≠ .nothing ∧
      (∃ taken, pool.takes schedule (.call 1 0) = some taken) ∧
      1 ∈ pool.taken schedule later := by
  intro schedule pool later
  obtain ⟨-, hfinds, -, hhanging⟩ := pool_shared [⟨1, 0⟩, ⟨2, 0⟩] 1 0 [.call 0 0] (Nat.le_refl 1)
  obtain ⟨-, hlater⟩ := hhanging 1 (by decide +kernel) 1 (by decide) (by decide +kernel)
  have hhangs : Hangs schedule 1 pool later := by
    refine ⟨fun _ _ _ h => (by cases h), ?_, fun _ _ _ h => (by cases h), trivial⟩
    rintro thread report now h job hpass
    obtain ⟨rfl, -, -⟩ := Event.ended.inj h
    obtain rfl : 1 = job := Option.some.inj hpass
    decide +kernel
  have hdue : StaysDue schedule 1 pool later := by
    refine ⟨fun _ _ _ _ => ?_, fun _ _ h => (by cases h), fun _ _ _ _ => ?_, trivial⟩
    · exact Nat.zero_le _
    · exact Nat.zero_le _
  obtain ⟨hcalls, -, hsoon⟩ := hlater later hhangs hdue
  exact ⟨hfinds 1 0 (List.cons_ne_nil _ _) (by decide +kernel),
    hcalls [] 1 0 _ rfl (by decide +kernel), hsoon (by decide +kernel)⟩

end JewelCase.Scanner.Decode
