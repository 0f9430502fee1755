import JewelCase.Queues.Commits

/-!
# Failed restores and deletes lose nothing, while a run is calm

Where a restore's commit fails, what it changed is put back outside the writer, so a start that runs
in between is undone with it.
-/
namespace JewelCase.Queues

open JewelCase.Queue (Edit)
open Account (placed)
open Library.Lists (filterMap_eraseIdx perm_filterMap_eraseIdx)

set_option autoImplicit false

namespace Sys

variable {s s' : Sys} {r : Request}

namespace Keeps

theorem fail (h : s.Keeps r) (request : Request) (error : KeepError) :
    (s.fail request error).Keeps r :=
  h.frame rfl rfl rfl rfl (fun _ => Iff.rfl) (fun _ => Iff.rfl) h.pending h.old

/-- A job ends without a change of memory or of the database. -/
theorem ended (h : s.Keeps r) {account : Option Account} {follow : List Follow}
    (hactive : account.map Account.active = s.account.map Account.active)
    (hparked : account.elim [] (·.parked) = s.parked)
    (hundo : ∀ undo, undo ∈ follow.filterMap Follow.undo ↔ undo ∈ s.restoring)
    (hremoved : ∀ queue, queue ∈ follow.filterMap Follow.removed ↔ queue ∈ s.deleting) :
    Keeps { s with account, job := none, follow } r :=
  h.frame rfl hactive hparked rfl hundo hremoved (fun _ ht => by cases ht) fun _ ht => by cases ht

theorem marked_active (account : Option Account) :
    (marked account).map Account.active = account.map Account.active := by
  cases account <;> rfl

theorem marked_parked (s : Sys) : (marked s.account).elim [] (·.parked) = s.parked := by
  rw [parked]
  cases s.account <;> rfl

theorem abandon (h : s.Keeps r) (hc : s.Coherent) {task : Task} (htask : s.task = some task)
    (error : KeepError) : (s.abandon task error).Keeps r := by
  have hquiet : s.follow.filterMap Follow.undo = [] := hc.quiet_task htask
  have hundoing := hc.undoing htask
  have hwaiting := Coherent.waiting s htask
  cases task with
  | restore request restored place =>
    have hmem : restored.undo ∈ s.restoring := by
      rw [hundoing]
      exact List.mem_singleton_self _
    obtain ⟨a, ha, hunder⟩ := hc.under restored.undo hmem
    have hback : Keeps { s with job := none, account := Queues.putBack s.account restored.undo } r := by
      refine h.putBack hunder ha hmem rfl rfl rfl hquiet ?_ rfl fun other ho => ?_
      · rw [hwaiting]
        rfl
      · rw [hundoing] at ho
        exact List.mem_singleton.mp ho
    exact hback.fail _ _
  | delete request removed =>
    cases removed with
    | none =>
      refine Keeps.fail (h.ended rfl rfl (fun undo => ?_) fun queue => ?_) _ _
      · rw [hundoing, hquiet]
        exact Iff.rfl
      · rw [hwaiting]
        exact Iff.rfl
    | some queue =>
      obtain ⟨a, ha⟩ : ∃ a, s.account = some a := by
        cases ha : s.account with
        | none =>
          rw [hc.held ha] at hwaiting
          cases hwaiting
        | some a => exact ⟨a, rfl⟩
      have hback : Keeps { s with
          job := none, account := marked (Queues.pushBack s.account queue) } r := by
        refine h.pushBack queue ha ?_ ?_ rfl rfl (fun undo => ?_) (fun other => ?_)
          fun _ ht => by cases ht
        · simp only [parked, ha]
          rfl
        · simp only [ha]
          rfl
        · rw [hundoing, Sys.restoring, hquiet]
          exact Iff.rfl
        · rw [hwaiting]
          exact List.mem_cons
      exact hback.fail _ _
  | save pending =>
    refine h.ended (marked_active _) (marked_parked s) (fun undo => ?_) fun queue => ?_
    · rw [hundoing, hquiet]
      exact Iff.rfl
    · rw [hwaiting]
      exact Iff.rfl

theorem rollBack (h : s.Keeps r) (hc : s.Coherent) {task : Task} (htask : s.task = some task) :
    (s.rollBack task).Keeps r := by
  have hquiet : s.follow.filterMap Follow.undo = [] := hc.quiet_task htask
  have hundoing := hc.undoing htask
  have hwaiting := Coherent.waiting s htask
  cases task with
  | restore request restored place =>
    refine h.ended rfl rfl (fun undo => ?_) fun queue => ?_
    · rw [hundoing, List.filterMap_append, hquiet]
      exact Iff.rfl
    · rw [hwaiting, List.filterMap_append]
      simp [Follow.removed, Task.removed]
  | delete request removed =>
    cases removed with
    | none =>
      refine Keeps.fail (h.ended rfl rfl (fun undo => ?_) fun queue => ?_) _ _
      · rw [hundoing, hquiet]
        exact Iff.rfl
      · rw [hwaiting]
        exact Iff.rfl
    | some queue =>
      refine h.ended rfl rfl (fun undo => ?_) fun other => ?_
      · rw [hundoing, List.filterMap_append, hquiet]
        exact Iff.rfl
      · rw [hwaiting, List.filterMap_append]
        simp [Follow.removed, Task.removed, or_comm]
  | save pending =>
    refine h.ended rfl rfl (fun undo => ?_) fun queue => ?_
    · rw [hundoing, List.filterMap_append, hquiet]
      exact Iff.rfl
    · rw [hwaiting, List.filterMap_append]
      simp [Follow.removed, Task.removed]

theorem settle (h : s.Keeps r) (hc : s.Coherent) {i : Nat} {follow : Follow}
    (hi : s.follow[i]? = some follow) (hcalm : s.LetsGo follow) :
    ({ s with follow := s.follow.eraseIdx i }.settle follow).Keeps r := by
  cases follow with
  | committed saved =>
    exact h.committed hcalm (filterMap_eraseIdx hi rfl) (filterMap_eraseIdx hi rfl)
  | markChanged =>
    refine h.frame rfl (marked_active _) (marked_parked s) rfl (fun undo => ?_) (fun queue => ?_)
      h.pending h.old
    · change undo ∈ (s.task.bind Task.undo).toList ++ (s.follow.eraseIdx i).filterMap Follow.undo ↔ _
      rw [filterMap_eraseIdx hi rfl]
      exact Iff.rfl
    · change queue ∈ (s.task.bind Task.removed).toList ++
        (s.follow.eraseIdx i).filterMap Follow.removed ↔ _
      rw [filterMap_eraseIdx hi rfl]
      exact Iff.rfl
  | pushBack request queue =>
    have hperm := perm_filterMap_eraseIdx (f := Follow.removed) hi rfl
    obtain ⟨a, ha⟩ : ∃ a, s.account = some a := by
      cases ha : s.account with
      | none =>
        have hheld := hc.held ha
        rw [Sys.deleting, List.append_eq_nil_iff] at hheld
        rw [hheld.2, List.nil_perm] at hperm
        cases hperm
      | some a => exact ⟨a, rfl⟩
    have hback : Keeps { s with
        account := Queues.pushBack s.account queue, follow := s.follow.eraseIdx i } r := by
      refine h.pushBack queue ha ?_ ?_ rfl rfl (fun undo => ?_) (fun other => ?_)
        fun _ ht => ht
      · simp only [parked, ha]
        rfl
      · simp only [ha]
        rfl
      · change undo ∈ (s.task.bind Task.undo).toList ++ (s.follow.eraseIdx i).filterMap Follow.undo ↔ _
        rw [filterMap_eraseIdx hi rfl]
        exact Iff.rfl
      · change other ∈ (s.task.bind Task.removed).toList ++ s.follow.filterMap Follow.removed ↔
          other = queue ∨ other ∈ (s.task.bind Task.removed).toList ++
            (s.follow.eraseIdx i).filterMap Follow.removed
        rw [List.mem_append, hperm.mem_iff, List.mem_cons, List.mem_append]
        exact or_left_comm
    exact hback.fail _ _
  | putBack request undo =>
    have hperm := perm_filterMap_eraseIdx (f := Follow.undo) hi rfl
    have hmem : undo ∈ s.restoring :=
      List.mem_append_right _ (hperm.mem_iff.mpr List.mem_cons_self)
    have hone := hc.one
    rw [Sys.restoring, List.length_append, hperm.length_eq, List.length_cons] at hone
    have hfollow : (s.follow.eraseIdx i).filterMap Follow.undo = [] :=
      List.eq_nil_of_length_eq_zero (by omega)
    have hjob : s.job = none := by
      cases hj : s.job with
      | none => rfl
      | some job =>
        have hquiet : s.follow.filterMap Follow.undo = [] := hc.quiet (by rw [hj]; rfl)
        rw [hquiet] at hperm
        cases hperm.length_eq
    have htask : s.task = none := by
      rw [task, hjob]
      rfl
    obtain ⟨a, ha, hunder⟩ := hc.under undo hmem
    have hback : Keeps { s with
        account := Queues.putBack s.account undo, follow := s.follow.eraseIdx i } r := by
      refine h.putBack hunder ha hmem rfl rfl rfl ?_ ?_ htask fun other ho => ?_
      · change (s.task.bind Task.undo).toList ++ (s.follow.eraseIdx i).filterMap Follow.undo = _
        rw [htask, hfollow]
        rfl
      · change (s.task.bind Task.removed).toList ++ (s.follow.eraseIdx i).filterMap Follow.removed = _
        rw [filterMap_eraseIdx hi rfl]
        rfl
      · rw [Sys.restoring, htask] at ho
        have hin := hperm.mem_iff.mp ho
        rw [hfollow] at hin
        exact List.mem_singleton.mp hin
    exact hback.fail _ _

/-- **Every step keeps to the ledger of a request under way.** -/
theorem step (h : s.Keeps r) (hc : s.Coherent) (hs : s.Sound) {event : Event}
    (hcalm : s.Calm event) (hrestart : event ≠ .restart) : (s.step event).Keeps r := by
  cases event with
  | edit queueId editId edit added => exact h.edit hc hs queueId editId edit added
  | start new place =>
    rw [Sys.step]
    split
    · rename_i account hjob hstart
      cases hfresh : fresh new with
      | error error =>
        rw [hfresh] at hstart
        cases hstart
      | ok started =>
        rw [hfresh] at hstart
        exact h.start hjob (hcalm (by rw [hjob]; rfl)) hfresh hstart
    · exact h
  | look queueId =>
    rw [Sys.step]
    split
    · rename_i stored hjob hlook
      have htask : s.task = none := by
        rw [task, hjob]
        rfl
      refine h.frame rfl rfl rfl rfl (fun undo => ?_) (fun queue => ?_) (fun _ ht => by cases ht)
        fun _ ht => by cases ht
      · simp only [Sys.restoring, htask]
        exact Iff.rfl
      · simp only [Sys.deleting, htask]
        exact Iff.rfl
    · exact h.fail _ _
    · exact h
  | take place =>
    rw [Sys.step]
    split
    · rename_i request stored hjob
      have htask : s.task = none := by
        rw [task, hjob]
        rfl
      cases htake : restoreTake s.account request.queueId stored place with
      | error error =>
        refine Keeps.fail (h.ended rfl rfl (fun undo => ?_) fun queue => ?_) _ _
        · simp only [Sys.restoring, htask]
          exact Iff.rfl
        · simp only [Sys.deleting, htask]
          exact Iff.rfl
      | ok found =>
        obtain ⟨restored, account⟩ := found
        exact h.take hc hjob htake
    · exact h
  | delete queueId =>
    rw [Sys.step]
    split
    · rename_i account removed hjob htake
      exact h.takeDelete hjob (hcalm (by rw [hjob]; rfl)).1 htake
    · exact h.fail _ _
    · exact h
  | save =>
    rw [Sys.step]
    split
    · rename_i account hjob hchanged
      exact h.takeSave hjob (hcalm (by rw [hjob]; rfl)) (Option.filter_eq_some_iff.mp hchanged).1
    · exact h
  | write ok now =>
    rw [Sys.step]
    split
    · rename_i task hjob
      have htask : s.task = some task := by
        rw [Sys.task, hjob]
        rfl
      cases ok with
      | false => exact h.abandon hc htask .db
      | true =>
        rw [if_pos rfl]
        cases hwrite : task.write s.disk now with
        | error error => exact h.abandon hc htask error
        | ok disk =>
          refine h.frame rfl rfl rfl rfl (fun undo => ?_) (fun queue => ?_) (fun task' ht => ?_)
            fun task' ht => ?_
          · simp only [Sys.restoring, htask]
            exact Iff.rfl
          · simp only [Sys.deleting, htask]
            exact Iff.rfl
          · exact h.pending task' (htask.trans ht)
          · exact h.old task' (htask.trans ht)
    · exact h
  | commit ok =>
    rw [Sys.step]
    split
    · rename_i task disk hjob
      have htask : s.task = some task := by
        rw [Sys.task, hjob]
        rfl
      cases ok with
      | false => exact h.rollBack hc htask
      | true =>
        rw [if_pos rfl]
        cases task with
        | restore request restored place => exact h.finishRestore hc hjob
        | delete request removed => exact h.finishDelete hc hjob
        | save pending => exact h.finishSave hc hjob
    · exact h
  | settle i =>
    rw [Sys.step]
    split
    · rename_i follow hi
      exact h.settle hc hi (hcalm follow hi)
    · exact h
  | restart => exact absurd rfl hrestart

end Keeps

/-! ### Requests under way -/

/-- A restore or delete whose job begins now. -/
def Opens (s : Sys) (r : Request) : Prop := s.job = none ∧ s.Quiet ∧ ∃ queueId, r = s.request queueId

/-- What a step does to the requests under way, and what it answers. -/
structure Moves (s s' : Sys) : Prop where
  job : ∀ job ∈ s'.job, ∀ r, job.request = some r → r ∈ s.requests ∨ s.Opens r
  follow : ∀ follow ∈ s'.follow, follow ∈ s.follow ∨
    (∀ r, follow.request = some r → r ∈ s.requests) ∧
      ∀ r queue, follow = .pushBack r queue → s.task = some (.delete r (some queue))
  failures : s'.failures = s.failures ∨ ∃ r error,
    s'.failures = s.failures ++ [s'.failure r error] ∧ (r ∈ s.requests ∨ s.Opens r)
  disk : s'.disk = s.disk ∨ s'.failures = s.failures ∧ s'.job = none ∧
    ∀ follow ∈ s'.follow, ∀ r, follow.request = some r → ∃ queue, follow = .pushBack r queue
  removed : ∀ r queue, s'.task = some (.delete r (some queue)) →
    s.task = some (.delete r (some queue)) ∨ r.queueId ∈ r.before.ids

theorem mem_requests {r : Request} : r ∈ s.requests ↔
    (∃ job ∈ s.job, job.request = some r) ∨ ∃ follow ∈ s.follow, follow.request = some r := by
  simp [requests, Option.bind_eq_some_iff]

theorem request_of_task {task : Task} (h : s.task = some task) {r : Request}
    (hr : task.request = some r) : r ∈ s.requests := by
  rw [Sys.task, Option.bind_eq_some_iff] at h
  obtain ⟨job, hjob, htask⟩ := h
  refine mem_requests.2 (Or.inl ⟨job, hjob, ?_⟩)
  cases job with
  | looked request stored => cases htask
  | taken other =>
    cases htask
    exact hr
  | written other disk =>
    cases htask
    exact hr

namespace Moves

/-- Nothing begins and nothing is answered. -/
theorem still {account : Option Account} {follow : List Follow} {changes : List Change}
    (hfollow : ∀ left ∈ follow, left ∈ s.follow) :
    s.Moves { s with account, follow, changes } :=
  ⟨fun job hj _ hr => Or.inl (mem_requests.2 (Or.inl ⟨job, hj, hr⟩)),
    fun left hl => Or.inl (hfollow left hl), Or.inl rfl, Or.inl rfl, fun _ _ ht => Or.inl ht⟩

/-- An error is answered while no job begins. -/
theorem answered {account : Option Account} {job : Option Job} {follow : List Follow} {r : Request}
    {error : KeepError} (hr : r ∈ s.requests ∨ s.Opens r) (hjob : job = none ∨ job = s.job)
    (hfollow : ∀ left ∈ follow, left ∈ s.follow) :
    s.Moves ({ s with account, job, follow }.fail r error) := by
  refine ⟨fun job' hj r' hr' => ?_, fun left hl => Or.inl (hfollow left hl), Or.inr ⟨r, error, rfl, hr⟩,
    Or.inl rfl, fun r' queue ht => ?_⟩
  · obtain rfl | rfl := hjob
    · cases hj
    · exact Or.inl (mem_requests.2 (Or.inl ⟨job', hj, hr'⟩))
  · obtain rfl | rfl := hjob
    · cases ht
    · exact Or.inl ht

/-- A job goes on, or begins. -/
theorem began {account : Option Account} {job : Job}
    (hjob : ∀ r, job.request = some r → r ∈ s.requests ∨ s.Opens r)
    (hremoved : ∀ r queue, job.task = some (.delete r (some queue)) →
      s.task = some (.delete r (some queue)) ∨ r.queueId ∈ r.before.ids) :
    s.Moves { s with account, job := some job } := by
  refine ⟨fun job' hj => ?_, fun left hl => Or.inl hl, Or.inl rfl, Or.inl rfl, hremoved⟩
  cases hj
  exact hjob

/-- A job ends, and leaves something to do. -/
theorem left (left : Follow) (hrequest : ∀ r, left.request = some r → r ∈ s.requests)
    (hpushed : ∀ r queue, left = .pushBack r queue → s.task = some (.delete r (some queue))) :
    s.Moves { s with job := none, follow := s.follow ++ [left] } := by
  refine ⟨fun _ hj => by (cases hj), fun other ho => ?_, Or.inl rfl, Or.inl rfl,
    fun _ _ ht => by (cases ht)⟩
  refine (List.mem_append.mp ho).imp_right fun ho => ?_
  rw [List.mem_singleton.mp ho]
  exact ⟨hrequest, hpushed⟩

theorem abandon {task : Task} (htask : s.task = some task) (error : KeepError) :
    s.Moves (s.abandon task error) := by
  cases task with
  | restore request restored place =>
    exact answered (Or.inl (request_of_task htask rfl)) (Or.inl rfl) fun _ hl => hl
  | delete request removed =>
    cases removed with
    | none => exact answered (Or.inl (request_of_task htask rfl)) (Or.inl rfl) fun _ hl => hl
    | some queue => exact answered (Or.inl (request_of_task htask rfl)) (Or.inl rfl) fun _ hl => hl
  | save pending =>
    exact ⟨fun _ hj => by (cases hj), fun left hl => Or.inl hl, Or.inl rfl, Or.inl rfl,
      fun _ _ ht => by (cases ht)⟩

theorem rollBack {task : Task} (htask : s.task = some task) : s.Moves (s.rollBack task) := by
  cases task with
  | restore request restored place =>
    refine left _ (fun r hr => ?_) fun _ _ he => by cases he
    cases hr
    exact request_of_task htask rfl
  | delete request removed =>
    cases removed with
    | none => exact answered (Or.inl (request_of_task htask rfl)) (Or.inl rfl) fun _ hl => hl
    | some queue =>
      refine left _ (fun _ hr => ?_) fun _ other he => ?_
      · cases hr
        exact request_of_task htask rfl
      · cases he
        exact htask
  | save pending => exact left _ (fun _ hr => by cases hr) fun _ _ he => by cases he

theorem finish (hc : s.Coherent) {task : Task} (htask : s.task = some task) (disk : Disk) :
    s.Moves (s.finish task disk) := by
  have hquiet : s.follow.filterMap Follow.undo = [] := hc.quiet_task htask
  have hpushed : ∀ follow ∈ s.follow, ∀ r, follow.request = some r →
      ∃ queue, follow = .pushBack r queue := by
    intro follow hf r hr
    cases follow with
    | committed saved => cases hr
    | markChanged => cases hr
    | pushBack request queue =>
      cases hr
      exact ⟨queue, rfl⟩
    | putBack request undo =>
      have hin : undo ∈ s.follow.filterMap Follow.undo := List.mem_filterMap.mpr ⟨_, hf, rfl⟩
      rw [hquiet] at hin
      cases hin
  have hcommitted : ∀ saved, ∀ follow ∈ s.follow ++ [.committed saved], ∀ r,
      follow.request = some r → ∃ queue, follow = .pushBack r queue := by
    intro saved follow hf r hr
    obtain hf | hf := List.mem_append.mp hf
    · exact hpushed follow hf r hr
    · rw [List.mem_singleton.mp hf] at hr
      cases hr
  have hleft : ∀ saved, ∀ follow ∈ s.follow ++ [.committed saved], follow ∈ s.follow ∨
      (∀ r, follow.request = some r → r ∈ s.requests) ∧
        ∀ r queue, follow = .pushBack r queue → s.task = some (.delete r (some queue)) := by
    intro saved follow hf
    refine (List.mem_append.mp hf).imp_right fun hf => ?_
    rw [List.mem_singleton.mp hf]
    exact ⟨fun _ hr => by (cases hr), fun _ _ he => by (cases he)⟩
  cases task with
  | restore request restored place =>
    exact ⟨fun _ hj => by (cases hj), hleft _, Or.inl rfl, Or.inr ⟨rfl, rfl, hcommitted _⟩,
      fun _ _ ht => by (cases ht)⟩
  | delete request removed =>
    exact ⟨fun _ hj => by (cases hj), fun _ hl => Or.inl hl, Or.inl rfl, Or.inr ⟨rfl, rfl, hpushed⟩,
      fun _ _ ht => by (cases ht)⟩
  | save pending =>
    exact ⟨fun _ hj => by (cases hj), hleft _, Or.inl rfl, Or.inr ⟨rfl, rfl, hcommitted _⟩,
      fun _ _ ht => by (cases ht)⟩

theorem settle {i : Nat} {follow : Follow} (hi : s.follow[i]? = some follow) :
    s.Moves ({ s with follow := s.follow.eraseIdx i }.settle follow) := by
  have hsub : ∀ left ∈ s.follow.eraseIdx i, left ∈ s.follow :=
    fun left hl => List.mem_of_mem_eraseIdx hl
  have hin := List.mem_of_getElem? hi
  cases follow with
  | committed saved => exact still hsub
  | markChanged => exact still hsub
  | putBack request undo =>
    exact answered (Or.inl (mem_requests.2 (Or.inr ⟨_, hin, rfl⟩))) (Or.inr rfl) hsub
  | pushBack request queue =>
    exact answered (Or.inl (mem_requests.2 (Or.inr ⟨_, hin, rfl⟩))) (Or.inr rfl) hsub

theorem step (hc : s.Coherent) {event : Event} (hcalm : s.Calm event) : s.Moves (s.step event) := by
  cases event with
  | edit queueId editId edit added => exact still fun _ hl => hl
  | start new place =>
    rw [Sys.step]
    split
    · exact still fun _ hl => hl
    · exact still fun _ hl => hl
  | look queueId =>
    rw [Sys.step]
    split
    · rename_i stored hjob hlook
      refine began (fun r hr => ?_) fun _ _ ht => by cases ht
      cases hr
      exact Or.inr ⟨hjob, (hcalm (by rw [hjob]; rfl)).1, queueId, rfl⟩
    · rename_i error hjob hlook
      exact answered (Or.inr ⟨hjob, (hcalm (by rw [hjob]; rfl)).1, queueId, rfl⟩) (Or.inr rfl)
        fun _ hl => hl
    · exact still fun _ hl => hl
  | take place =>
    rw [Sys.step]
    split
    · rename_i request stored hjob
      have hrequest : request ∈ s.requests := mem_requests.2 (Or.inl ⟨_, hjob, rfl⟩)
      split
      · refine began (fun r hr => ?_) fun _ _ ht => by cases ht
        cases hr
        exact Or.inl hrequest
      · exact answered (Or.inl hrequest) (Or.inl rfl) fun _ hl => hl
    · exact still fun _ hl => hl
  | delete queueId =>
    rw [Sys.step]
    split
    · rename_i account removed hjob htake
      refine began (fun r hr => ?_) fun r queue ht => ?_
      · cases hr
        exact Or.inr ⟨hjob, (hcalm (by rw [hjob]; rfl)).1, queueId, rfl⟩
      · cases ht
        obtain ⟨hn, -⟩ | ⟨a, rest, taken, ha, -, hunpark, -, hsome⟩ := deleteTake_ok htake
        · cases hn
        · cases hsome
          obtain ⟨hid, hperm, -⟩ := Account.unpark_some hunpark
          right
          rw [Ledger.ids_eq]
          refine List.mem_append_right _ (mem_ids.2 ⟨queue, List.mem_append_left _ ?_, hid⟩)
          rw [parked, ha]
          exact hperm.mem_iff.mpr List.mem_cons_self
    · rename_i error hjob htake
      exact answered (Or.inr ⟨hjob, (hcalm (by rw [hjob]; rfl)).1, queueId, rfl⟩) (Or.inr rfl)
        fun _ hl => hl
    · exact still fun _ hl => hl
  | save =>
    rw [Sys.step]
    split
    · exact began (fun _ hr => by cases hr) fun _ _ ht => by cases ht
    · exact still fun _ hl => hl
  | write ok now =>
    rw [Sys.step]
    split
    · rename_i task hjob
      have htask : s.task = some task := by
        rw [Sys.task, hjob]
        rfl
      split_ifs
      · split
        · exact began (fun r hr => Or.inl (request_of_task htask hr))
            fun _ _ ht => Or.inl (htask.trans ht)
        · exact abandon htask _
      · exact abandon htask _
    · exact still fun _ hl => hl
  | commit ok =>
    rw [Sys.step]
    split
    · rename_i task disk hjob
      have htask : s.task = some task := by
        rw [Sys.task, hjob]
        rfl
      split_ifs
      · exact finish hc htask disk
      · exact rollBack htask
    · exact still fun _ hl => hl
  | settle i =>
    rw [Sys.step]
    split
    · rename_i follow hi
      exact settle hi
    · exact still fun _ hl => hl
  | restart =>
    exact ⟨fun _ hj => by (cases hj), fun _ hl => by (cases hl), Or.inl rfl, Or.inl rfl,
      fun _ _ ht => by (cases ht)⟩

end Moves

/-! ### Edits of a request's queue -/

/-- Nothing edits the queue of a restore that has not taken it, or of a delete. -/
structure Untouched (s : Sys) : Prop where
  looked : ∀ request stored, s.job = some (.looked request stored) → s.Unedited request
  delete : ∀ request removed, s.task = some (.delete request removed) → s.Unedited request
  pushed : ∀ request queue, .pushBack request queue ∈ s.follow →
    queue.queueId = request.queueId ∧ s.Unedited request

theorem Unedited.mono {request : Request} (h : s.Unedited request) {changes : List Change}
    (hchanges : s'.changes = s.changes ++ changes)
    (hmore : ∀ change ∈ changes, change.edits ≠ some request.queueId) : s'.Unedited request := by
  intro change hin
  rw [hchanges, List.drop_append] at hin
  obtain hin | hin := List.mem_append.mp hin
  · exact h change hin
  · exact hmore change (List.mem_of_mem_drop hin)

/-- A request's job begins now. -/
theorem unedited_request (s : Sys) (queueId : Uuid) : s.Unedited (s.request queueId) := by
  intro change hin
  rw [request, List.drop_length] at hin
  cases hin

namespace Untouched

/-- A step that edits nothing, and begins and leaves nothing of a request. -/
theorem still (h : s.Untouched) {changes : List Change} (hchanges : s'.changes = s.changes ++ changes)
    (hmore : ∀ change ∈ changes, change.edits = none) (hjob : s'.job = none ∨ s'.job = s.job)
    (hfollow : ∀ request queue, .pushBack request queue ∈ s'.follow →
      .pushBack request queue ∈ s.follow ∨ s.task = some (.delete request (some queue)) ∧
        queue.queueId = request.queueId) : s'.Untouched := by
  have hkeep : ∀ {request : Request}, s.Unedited request → s'.Unedited request := by
    intro request hr
    refine hr.mono hchanges fun change hin => ?_
    rw [hmore change hin]
    exact nofun
  have htask : ∀ task, s'.task = some task → s.task = some task := by
    intro task ht
    rw [Sys.task] at ht ⊢
    obtain hnone | hsame := hjob
    · rw [hnone] at ht
      cases ht
    · rwa [hsame] at ht
  refine ⟨fun request stored hj => ?_, fun request removed ht => ?_, fun request queue hl => ?_⟩
  · obtain hnone | hsame := hjob
    · rw [hnone] at hj
      cases hj
    · rw [hsame] at hj
      exact hkeep (h.looked request stored hj)
  · exact hkeep (h.delete request removed (htask _ ht))
  · obtain hl | ⟨ht, hid⟩ := hfollow request queue hl
    · exact (h.pushed request queue hl).imp_right hkeep
    · exact ⟨hid, hkeep (h.delete request _ ht)⟩

/-- Another job is under way. -/
theorem began (h : s.Untouched) {account : Option Account} {job : Job}
    (hlooked : ∀ request stored, job = .looked request stored → s.Unedited request)
    (hdelete : ∀ request removed, job.task = some (.delete request removed) → s.Unedited request) :
    Untouched { s with account, job := some job } := by
  refine ⟨fun request stored hj => ?_, fun request removed ht => hdelete request removed ht, h.pushed⟩
  cases hj
  exact hlooked request stored rfl

/-- An edit is of the active queue, which is neither looked for, nor deleted, nor still to be put
back. -/
theorem edit (h : s.Untouched) (hc : s.Coherent) (queueId editId : Uuid) (edit : Edit)
    (added : Option Added) : (s.step (.edit queueId editId edit added)).Untouched := by
  have hmore : ∀ request : Request, (∀ a ∈ s.account, a.queueId ≠ request.queueId) →
      ∀ change ∈ (apply s.account queueId editId edit added).2.2.map
        (fun announced => Change.edited queueId announced.1 announced.2),
        change.edits ≠ some request.queueId := by
    intro request hne change hin heq
    obtain ⟨announced, hannounced, rfl⟩ := List.mem_map.mp hin
    obtain rfl : queueId = request.queueId := Option.some.inj heq
    unfold apply at hannounced
    cases ha : s.account with
    | none =>
      rw [ha] at hannounced
      cases hannounced
    | some a =>
      rw [ha] at hannounced
      simp only [if_pos (hne a ha)] at hannounced
      cases hannounced
  have hactive : ∀ id, id ∉ s.names → ∀ a ∈ s.account, a.queueId ≠ id := by
    intro id hnot a ha heq
    rw [Coherent.names_some ha, heq] at hnot
    exact hnot List.mem_cons_self
  refine ⟨fun request stored hj => ?_, fun request removed ht => ?_, fun request queue hl => ?_⟩
  · exact (h.looked request stored hj).mono rfl (hmore request (hc.looked request stored hj).2.1)
  · exact (h.delete request removed ht).mono rfl
      (hmore request (hactive _ (hc.delete request removed ht).1))
  · obtain ⟨hid, hun⟩ := h.pushed request queue hl
    refine ⟨hid, hun.mono rfl (hmore request (hactive _ fun hin => ?_))⟩
    have hdeleting : queue ∈ s.deleting := mem_deleting.2 (Or.inr ⟨_, hl, rfl⟩)
    exact (List.nodup_append.mp hc.distinct).2.2 _ hin _ (mem_ids_of_mem hdeleting) hid.symm

theorem abandon (h : s.Untouched) (task : Task) (error : KeepError) :
    (s.abandon task error).Untouched := by
  have hnone : s.changes = s.changes ++ [] := (List.append_nil _).symm
  cases task with
  | restore request restored place =>
    exact h.still hnone (fun _ hin => by cases hin) (Or.inl rfl) fun _ _ hl => Or.inl hl
  | delete request removed =>
    cases removed <;>
      exact h.still hnone (fun _ hin => by cases hin) (Or.inl rfl) fun _ _ hl => Or.inl hl
  | save pending =>
    exact h.still hnone (fun _ hin => by cases hin) (Or.inl rfl) fun _ _ hl => Or.inl hl

/-- A job ends, and leaves something to do, which puts no queue back but one that it deleted. -/
theorem left (h : s.Untouched) {changes : List Change} {left : Follow}
    (hmore : ∀ change ∈ changes, change.edits = none)
    (hfollow : s'.follow = s.follow ++ [left]) (hchanges : s'.changes = s.changes ++ changes)
    (hjob : s'.job = none)
    (hpushed : ∀ request queue, left = .pushBack request queue →
      s.task = some (.delete request (some queue)) ∧ queue.queueId = request.queueId) :
    s'.Untouched := by
  refine h.still hchanges hmore (Or.inl hjob) fun request queue hl => ?_
  rw [hfollow] at hl
  refine (List.mem_append.mp hl).imp_right fun hl => ?_
  exact hpushed request queue (List.mem_singleton.mp hl).symm

theorem rollBack (h : s.Untouched) (hc : s.Coherent) {task : Task} (htask : s.task = some task) :
    (s.rollBack task).Untouched := by
  have hnone : s.changes = s.changes ++ [] := (List.append_nil _).symm
  cases task with
  | restore request restored place =>
    exact h.left (fun _ hin => by cases hin) rfl hnone rfl fun _ _ he => by cases he
  | delete request removed =>
    cases removed with
    | none => exact h.still hnone (fun _ hin => by cases hin) (Or.inl rfl) fun _ _ hl => Or.inl hl
    | some taken =>
      refine h.left (fun _ hin => by cases hin) rfl hnone rfl fun request' queue he => ?_
      cases he
      exact ⟨htask, (hc.delete request (some taken) htask).2.2 taken rfl⟩
  | save pending =>
    exact h.left (fun _ hin => by cases hin) rfl hnone rfl fun _ _ he => by cases he

theorem finish (h : s.Untouched) (task : Task) (disk : Disk) : (s.finish task disk).Untouched := by
  cases task with
  | restore request restored place =>
    refine h.left (fun change hin => ?_) rfl rfl rfl fun _ _ he => by cases he
    obtain ⟨a, -, rfl⟩ := Option.map_eq_some_iff.mp (Option.mem_toList.mp hin)
    rfl
  | delete request removed =>
    exact h.still rfl (fun change hin => by rw [List.mem_singleton.mp hin]; rfl) (Or.inl rfl)
      fun _ _ hl => Or.inl hl
  | save pending =>
    exact h.left (fun _ hin => by cases hin) rfl (List.append_nil _).symm rfl
      fun _ _ he => by cases he

theorem settle (h : s.Untouched) (i : Nat) (follow : Follow) :
    ({ s with follow := s.follow.eraseIdx i }.settle follow).Untouched := by
  have hsub : ∀ request queue, Follow.pushBack request queue ∈ s.follow.eraseIdx i →
      .pushBack request queue ∈ s.follow ∨ s.task = some (.delete request (some queue)) ∧
        queue.queueId = request.queueId := fun _ _ hl => Or.inl (List.mem_of_mem_eraseIdx hl)
  have hnone : s.changes = s.changes ++ [] := (List.append_nil _).symm
  cases follow with
  | committed saved =>
    refine h.still rfl (fun change hin => ?_) (Or.inr rfl) hsub
    obtain ⟨queue, -, rfl⟩ := List.mem_map.mp hin
    rfl
  | putBack request undo => exact h.still hnone (fun _ hin => by cases hin) (Or.inr rfl) hsub
  | pushBack request queue => exact h.still hnone (fun _ hin => by cases hin) (Or.inr rfl) hsub
  | markChanged => exact h.still hnone (fun _ hin => by cases hin) (Or.inr rfl) hsub

/-- **A step edits the queue of no request** but a restore that has taken it. -/
theorem step (h : s.Untouched) (hc : s.Coherent) (event : Event) : (s.step event).Untouched := by
  have hsame : ∀ request queue, Follow.pushBack request queue ∈ s.follow →
      .pushBack request queue ∈ s.follow ∨ s.task = some (.delete request (some queue)) ∧
        queue.queueId = request.queueId := fun _ _ hl => Or.inl hl
  have hnone : s.changes = s.changes ++ [] := (List.append_nil _).symm
  cases event with
  | edit queueId editId edit added => exact h.edit hc queueId editId edit added
  | start new place =>
    rw [Sys.step]
    split
    · exact h.still rfl (fun change hin => by rw [List.mem_singleton.mp hin]; rfl) (Or.inr rfl) hsame
    · exact h
  | look queueId =>
    rw [Sys.step]
    split
    · refine h.began (fun request stored hj => ?_) fun _ _ ht => by cases ht
      cases hj
      exact unedited_request s queueId
    · exact h.still hnone (fun _ hin => by cases hin) (Or.inr rfl) hsame
    · exact h
  | take place =>
    rw [Sys.step]
    split
    · split
      · exact h.began (fun _ _ hj => by cases hj) fun _ _ ht => by cases ht
      · exact h.still hnone (fun _ hin => by cases hin) (Or.inl rfl) hsame
    · exact h
  | delete queueId =>
    rw [Sys.step]
    split
    · refine h.began (fun _ _ hj => by cases hj) fun request removed ht => ?_
      cases ht
      exact unedited_request s queueId
    · exact h.still hnone (fun _ hin => by cases hin) (Or.inr rfl) hsame
    · exact h
  | save =>
    rw [Sys.step]
    split
    · exact h.began (fun _ _ hj => by cases hj) fun _ _ ht => by cases ht
    · exact h
  | write ok now =>
    rw [Sys.step]
    split
    · rename_i task hjob
      have htask : s.task = some task := by
        rw [Sys.task, hjob]
        rfl
      split_ifs
      · split
        · refine h.began (fun _ _ hj => by cases hj) fun request removed ht => ?_
          exact h.delete request removed (htask.trans ht)
        · exact h.abandon task _
      · exact h.abandon task _
    · exact h
  | commit ok =>
    rw [Sys.step]
    split
    · rename_i task disk hjob
      have htask : s.task = some task := by
        rw [Sys.task, hjob]
        rfl
      split_ifs
      · exact h.finish task disk
      · exact h.rollBack hc htask
    · exact h
  | settle i =>
    rw [Sys.step]
    split
    · rename_i follow hi
      exact h.settle i follow
    · exact h
  | restart =>
    exact h.still hnone (fun _ hin => by cases hin) (Or.inl rfl) fun _ _ hl => by cases hl

/-- One more failure, of a request whose queue was not edited. -/
theorem failed {before : List Failure} {r : Request} {error : KeepError}
    (hfailures : s.failures = before) (hr : s.Unedited r) :
    ∀ f ∈ (s.fail r error).failures, f ∈ before ∨ f.Unedited := by
  intro f hf
  obtain hf | hf := List.mem_append.mp hf
  · exact Or.inl (hfailures ▸ hf)
  · rw [List.mem_singleton.mp hf]
    exact Or.inr hr

/-- **A failure of a calm step loses no edit** of its own queue. -/
theorem failures (h : s.Untouched) {event : Event} (hcalm : s.Calm event) :
    ∀ f ∈ (s.step event).failures, f ∈ s.failures ∨ f.Unedited := by
  have hsame : ∀ f ∈ s.failures, f ∈ s.failures ∨ f.Unedited := fun _ hf => Or.inl hf
  cases event with
  | edit queueId editId edit added => exact hsame
  | start new place =>
    rw [Sys.step]
    split <;> exact hsame
  | look queueId =>
    rw [Sys.step]
    split
    · exact hsame
    · exact failed rfl (unedited_request s queueId)
    · exact hsame
  | take place =>
    rw [Sys.step]
    split
    · rename_i request stored hjob
      split
      · exact hsame
      · exact failed rfl (h.looked request stored hjob)
    · exact hsame
  | delete queueId =>
    rw [Sys.step]
    split
    · exact hsame
    · exact failed rfl (unedited_request s queueId)
    · exact hsame
  | save =>
    rw [Sys.step]
    split <;> exact hsame
  | write ok now =>
    rw [Sys.step]
    split
    · rename_i task hjob
      have htask : s.task = some task := by
        rw [Sys.task, hjob]
        rfl
      cases task with
      | restore request restored place =>
        -- a restore's statements fail only where the database does
        cases ok with
        | true => exact hsame
        | false => exact failed rfl (hcalm rfl request (by rw [hjob]; rfl))
      | delete request removed =>
        have hunedited := h.delete request removed htask
        have habandon : ∀ error, ∀ f ∈ (s.abandon (.delete request removed) error).failures,
            f ∈ s.failures ∨ f.Unedited := by
          intro error
          cases removed <;> exact failed rfl hunedited
        split_ifs
        · split
          · exact hsame
          · exact habandon _
        · exact habandon _
      | save pending =>
        split_ifs <;> exact hsame
    · exact hsame
  | commit ok =>
    rw [Sys.step]
    split
    · rename_i task disk hjob
      have htask : s.task = some task := by
        rw [Sys.task, hjob]
        rfl
      cases task with
      | restore request restored place => split_ifs <;> exact hsame
      | delete request removed =>
        split_ifs
        · exact hsame
        · cases removed with
          | none => exact failed rfl (h.delete request none htask)
          | some queue => exact hsame
      | save pending => split_ifs <;> exact hsame
    · exact hsame
  | settle i =>
    rw [Sys.step]
    split
    · rename_i follow hi
      cases follow with
      | committed saved => exact hsame
      | putBack request undo => exact failed rfl (hcalm _ hi)
      | pushBack request queue =>
        exact failed rfl (h.pushed request queue (List.mem_of_getElem? hi)).2
      | markChanged => exact hsame
    · exact hsame
  | restart => exact hsame

end Untouched

/-- A request that keeps to its ledger has lost nothing when it answers an error. -/
theorem Keeps.lossless (h : s.Keeps r) (hc : s.Coherent) (error : KeepError)
    (hkept : r.queueId ∉ r.before.ids → s.disk.readKept r.queueId = r.kept)
    (hunedited : (s.failure r error).Unedited) : (s.failure r error).Lossless := by
  refine ⟨h.active, fun undo hu => (h.restoring undo hu).1, h.rest, ?_, h.only, hkept, hunedited⟩
  have hdistinct := (List.nodup_append.mp hc.distinct).1
  rw [Failure.active, Failure.parked]
  change (ids ((s.account.map Account.active).toList ++ s.account.elim [] (·.parked))).Nodup
  rw [names] at hdistinct
  cases ha : s.account with
  | none => exact List.nodup_nil
  | some a =>
    rw [ha] at hdistinct
    exact hdistinct

/-- What a calm run keeps of its requests, and what it has answered. -/
structure Tracked (s : Sys) : Prop where
  keeps : ∀ r ∈ s.requests, s.Keeps r
  kept : ∀ r ∈ s.requests, r.queueId ∉ r.before.ids → s.disk.readKept r.queueId = r.kept
  pushed : ∀ r queue, .pushBack r queue ∈ s.follow → r.queueId ∈ r.before.ids
  removed : ∀ r queue, s.task = some (.delete r (some queue)) → r.queueId ∈ r.before.ids
  untouched : s.Untouched
  lossless : ∀ f ∈ s.failures, f.Lossless

theorem Tracked.step (h : s.Tracked) (hc : s.Coherent) (hs : s.Sound) {event : Event}
    (hcalm : s.Calm event) : (s.step event).Tracked := by
  have hm := Moves.step hc hcalm
  have hc' := hc.step hcalm
  by_cases hrestart : event = .restart
  · subst hrestart
    refine ⟨fun r hr => ?_, fun r hr => ?_, fun _ _ hl => by (cases hl), fun _ _ ht => by (cases ht),
      h.untouched.step hc _, h.lossless⟩
    · cases hr
    · cases hr
  have hkeeps : ∀ r, r ∈ s.requests ∨ s.Opens r → (s.step event).Keeps r := by
    rintro r (hr | ⟨hjob, hquiet, queueId, rfl⟩)
    · exact (h.keeps r hr).step hc hs hcalm hrestart
    · exact (Keeps.opened hc hjob hquiet queueId).step hc hs hcalm hrestart
  have hkept : ∀ r, r ∈ s.requests ∨ s.Opens r → r.queueId ∉ r.before.ids →
      s.disk.readKept r.queueId = r.kept := by
    rintro r (hr | ⟨-, -, queueId, rfl⟩)
    · exact h.kept r hr
    · exact fun _ => rfl
  have hfollow : ∀ follow ∈ (s.step event).follow, ∀ r, follow.request = some r →
      r ∈ s.requests := by
    intro follow hf r hr
    obtain hf | ⟨hf, -⟩ := hm.follow follow hf
    · exact mem_requests.2 (Or.inr ⟨follow, hf, hr⟩)
    · exact hf r hr
  have hpushed : ∀ r queue, .pushBack r queue ∈ (s.step event).follow →
      r.queueId ∈ r.before.ids := by
    intro r queue hl
    obtain hl | ⟨-, hl⟩ := hm.follow _ hl
    · exact h.pushed r queue hl
    · exact h.removed r queue (hl r queue rfl)
  have hrequests : ∀ r ∈ (s.step event).requests, r ∈ s.requests ∨ s.Opens r := by
    intro r hr
    obtain ⟨job, hj, hr⟩ | ⟨follow, hf, hr⟩ := mem_requests.1 hr
    · exact hm.job job hj r hr
    · exact Or.inl (hfollow follow hf r hr)
  refine ⟨fun r hr => hkeeps r (hrequests r hr), fun r hr hid => ?_, hpushed, fun r queue ht => ?_,
    h.untouched.step hc event, fun f hf => ?_⟩
  · obtain hdisk | ⟨-, hjob, hleft⟩ := hm.disk
    · rw [hdisk]
      exact hkept r (hrequests r hr) hid
    · obtain ⟨job, hj, -⟩ | ⟨follow, hf, hr⟩ := mem_requests.1 hr
      · rw [hjob] at hj
        cases hj
      · obtain ⟨queue, rfl⟩ := hleft follow hf r hr
        exact absurd (hpushed r queue hf) hid
  · obtain ht | hin := hm.removed r queue ht
    · exact h.removed r queue ht
    · exact hin
  · obtain hsame | ⟨r, error, happend, hr⟩ := hm.failures
    · rw [hsame] at hf
      exact h.lossless f hf
    · have hin := hf
      rw [happend] at hf
      obtain hf | hf := List.mem_append.mp hf
      · exact h.lossless f hf
      · obtain hold | hunedited := h.untouched.failures hcalm f (hin)
        · exact h.lossless f hold
        rw [List.mem_singleton.mp hf] at hunedited ⊢
        refine (hkeeps r hr).lossless hc' error (fun hid => ?_) hunedited
        obtain hdisk | ⟨hsame, -⟩ := hm.disk
        · rw [hdisk]
          exact hkept r hr hid
        · rw [hsame] at happend
          have hlength := congrArg List.length happend
          rw [List.length_append, List.length_singleton] at hlength
          omega

/-- What every calm run keeps. -/
theorem calm_run (h : s.Tracked) (hc : s.Coherent) (hs : s.Sound) (events : List Event)
    (hcalm : s.CalmRun events) : (events.foldl step s).Tracked := by
  induction events generalizing s with
  | nil => exact h
  | cons event events ih =>
    obtain ⟨hevent, hrest⟩ := hcalm
    exact ih (h.step hc hs hevent) (hc.step hevent) (hs.step event) hrest

theorem Untouched.new : Sys.new.Untouched :=
  ⟨fun _ _ hj => by (cases hj), fun _ _ ht => by (cases ht), fun _ _ hl => by (cases hl)⟩

theorem Tracked.new : Sys.new.Tracked :=
  ⟨fun _ hr => by (cases hr), fun _ hr => by (cases hr), fun _ _ hl => by (cases hl),
    fun _ _ ht => by (cases ht), Untouched.new, fun _ hf => by (cases hf)⟩

/-- **In a calm run, a restore or delete that answers an error has lost nothing.** -/
theorem failures_lose_nothing (events : List Event) (hcalm : Sys.new.CalmRun events) :
    ∀ f ∈ (run events).failures, f.Lossless :=
  (calm_run Tracked.new Coherent.new Sound.new events hcalm).lossless

/-- A queue of two tracks to start. -/
def twoTracks (queueId : Uuid) : NewQueue := ⟨queueId, "", queueId, 1, [1, 2], queueId, 0⟩

theorem failures_lose_nothing_twice :
    let s := run [.start (twoTracks "A") none, .edit "A" "e" (.remove [⟨"A", 1⟩]) none,
      .start (twoTracks "B") none, .look "A", .take none, .write true 5, .commit false, .settle 0,
      .delete "A", .write true 6, .commit false, .start (twoTracks "C") none, .settle 0]
    (s.failures.map fun f => f.request.queueId) = ["A", "A"] ∧ ∀ f ∈ s.failures, f.Lossless :=
  ⟨by decide +kernel, failures_lose_nothing _ (by decide +kernel)⟩

/-- A start that runs between a restore's failed commit and what it puts back is undone: its queue
is nowhere, and the restored one is parked twice. -/
theorem restore_undoes_start :
    let s := run [.start (twoTracks "A") none, .edit "A" "e" (.remove [⟨"A", 1⟩]) none,
      .start (twoTracks "B") none, .look "A", .take none, .write true 5, .commit false,
      .start (twoTracks "C") none, .settle 0]
    (s.account.map fun a => (a.queueId, ids a.parked)) = some ("B", ["A", "A"]) ∧
      s.disk.find "C" = none ∧ ¬ ∀ f ∈ s.failures, f.Lossless := by
  intro s
  have hlost : ∃ f ∈ s.failures, f.restoring = [] ∧ f.active ≠ f.ledger.active := by decide +kernel
  refine ⟨by decide +kernel, by decide +kernel, fun h => ?_⟩
  obtain ⟨f, hf, hnone, hne⟩ := hlost
  exact hne ((h f hf).active hnone)

end Sys

end JewelCase.Queues
