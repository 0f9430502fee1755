import JewelCase.Library.Lists
import JewelCase.Queues.Writer

/-!
# What the writer's jobs leave in memory

While no job begins before a restore is put back, one restore at most is under way, each queue of an
account is in one place, and what a job has taken is what memory had.
-/
namespace JewelCase.Queues

open JewelCase.Queue (Edit)
open Account (placed)
open Library.Lists (filterMap_eraseIdx perm_filterMap_eraseIdx)

set_option autoImplicit false

def ids (queues : List Queue) : List Uuid := queues.map (·.queueId)

theorem mem_ids {queues : List Queue} {id : Uuid} :
    id ∈ ids queues ↔ ∃ queue ∈ queues, queue.queueId = id := List.mem_map

theorem mem_ids_of_mem {queues : List Queue} {queue : Queue} (h : queue ∈ queues) :
    queue.queueId ∈ ids queues := List.mem_map_of_mem h

@[simp] theorem ids_append (a b : List Queue) : ids (a ++ b) = ids a ++ ids b := List.map_append

theorem ids_sublist {a b : List Queue} (h : a.Sublist b) : (ids a).Sublist (ids b) := h.map _

/-- An edit changes no queue but the active one, and keeps its ID. -/
theorem apply_outline (account : Option Account) (queueId editId : Uuid) (edit : Edit)
    (added : Option Added) :
    ((apply account queueId editId edit added).2.1 = none ↔ account = none) ∧
    ∀ a ∈ account, ∀ a' ∈ (apply account queueId editId edit added).2.1,
      a'.queueId = a.queueId ∧ a'.parked = a.parked := by
  cases account with
  | none => exact ⟨Iff.rfl, fun _ ha => by cases ha⟩
  | some a =>
    have hsome : ∃ a', (apply (some a) queueId editId edit added).2.1 = some a' ∧
        a'.queueId = a.queueId ∧ a'.parked = a.parked := by
      unfold apply
      simp only
      split_ifs
      · exact ⟨a, rfl, rfl, rfl⟩
      · split
        · exact ⟨a, rfl, rfl, rfl⟩
        · split
          · exact ⟨_, rfl, rfl, rfl⟩
          · exact ⟨_, rfl, rfl, rfl⟩
    obtain ⟨a', he, hsame⟩ := hsome
    rw [he]
    refine ⟨by simp, fun b hb b' hb' => ?_⟩
    cases hb
    cases hb'
    exact hsame

namespace Sys

/-- No restore whose commit failed is still to be put back. -/
def Quiet (s : Sys) : Prop := s.follow.filterMap Follow.undo = []

instance (s : Sys) : Decidable s.Quiet := inferInstanceAs (Decidable (_ = _))

/-- What a save lets go of is stored as it is, if it was adjusted, and what a restore is put back
from was not edited since. -/
def LetsGo (s : Sys) : Follow → Prop
  | .committed saved => ∀ queue ∈ s.parked, queue.queueId ∈ saved.parked → queue.state.adjusted →
      s.disk.readKept queue.queueId = some queue
  | .putBack request _ => s.Unedited request
  | _ => True

/-- What a step meets: no job begins before a restore whose commit failed is put back, or names a
queue that a failed delete is still to put back; a restore's statements fail, and it is put back
after a failed commit, only while its queue has not been edited; and a save lets go of an adjusted
queue only if the database holds it as it is. -/
def Calm (s : Sys) : Event → Prop
  | .start new _ => s.job.isNone → s.Quiet ∧ new.queueId ∉ ids s.deleting
  | .look queueId => s.job.isNone → s.Quiet ∧ queueId ∉ ids s.deleting
  | .delete queueId => s.job.isNone → s.Quiet ∧ queueId ∉ ids s.deleting
  | .save => s.job.isNone → s.Quiet
  | .write ok _ => ok = false → ∀ request ∈ s.job.bind Job.restore, s.Unedited request
  | .settle i => ∀ follow ∈ s.follow[i]?, s.LetsGo follow
  | _ => True

instance (s : Sys) (request : Request) : Decidable (s.Unedited request) :=
  inferInstanceAs (Decidable (∀ change ∈ _, _ ≠ _))

instance (s : Sys) : (follow : Follow) → Decidable (s.LetsGo follow)
  | .committed saved => inferInstanceAs (Decidable (∀ queue ∈ s.parked,
      queue.queueId ∈ saved.parked → queue.state.adjusted →
        s.disk.readKept queue.queueId = some queue))
  | .putBack request _ => inferInstanceAs (Decidable (s.Unedited request))
  | .pushBack _ _ => .isTrue trivial
  | .markChanged => .isTrue trivial

instance (s : Sys) : (event : Event) → Decidable (s.Calm event)
  | .start new _ => inferInstanceAs (Decidable (s.job.isNone → s.Quiet ∧ new.queueId ∉ ids s.deleting))
  | .look queueId => inferInstanceAs (Decidable (s.job.isNone → s.Quiet ∧ queueId ∉ ids s.deleting))
  | .delete queueId => inferInstanceAs (Decidable (s.job.isNone → s.Quiet ∧ queueId ∉ ids s.deleting))
  | .save => inferInstanceAs (Decidable (s.job.isNone → s.Quiet))
  | .settle i => inferInstanceAs (Decidable (∀ follow ∈ s.follow[i]?, s.LetsGo follow))
  | .edit _ _ _ _ => .isTrue trivial
  | .take _ => .isTrue trivial
  | .write ok _ => inferInstanceAs (Decidable (ok = false →
      ∀ request ∈ s.job.bind Job.restore, s.Unedited request))
  | .commit _ => .isTrue trivial
  | .restart => .isTrue trivial

/-- Every step of a run meets it. -/
def CalmRun (s : Sys) : List Event → Prop
  | [] => True
  | event :: events => s.Calm event ∧ (s.step event).CalmRun events

instance decidableCalmRun : (s : Sys) → (events : List Event) → Decidable (s.CalmRun events)
  | _, [] => .isTrue trivial
  | s, event :: events => @instDecidableAnd _ _ inferInstance (decidableCalmRun (s.step event) events)

/-- The IDs of the queues in memory. -/
def names (s : Sys) : List Uuid := s.account.elim [] fun a => a.queueId :: ids a.parked

/-- What memory is while a restore is under way. -/
structure Under (s : Sys) (undo : Undo) (a : Account) : Prop where
  target : ∀ target ∈ undo.target, target.queueId = a.queueId
  replaced : ∀ old ∈ undo.active, old.queueId ≠ a.queueId ∧ old.queueId ∉ ids s.deleting
  alone : undo.active = none → undo.target = none ∧ a.parked = [] ∧ s.deleting = []

structure Coherent (s : Sys) : Prop where
  distinct : (s.names ++ ids s.deleting).Nodup
  one : s.restoring.length ≤ 1
  quiet : s.job.isSome → s.Quiet
  under : ∀ undo ∈ s.restoring, ∃ a, s.account = some a ∧ s.Under undo a
  looked : ∀ request stored, s.job = some (.looked request stored) →
    request.queueId ∉ ids s.deleting ∧ (∀ a ∈ s.account, a.queueId ≠ request.queueId) ∧
      ∀ target ∈ stored, target.queueId = request.queueId ∧ request.queueId ∉ s.names
  restore : ∀ request restored place, s.task = some (.restore request restored place) →
    ∃ a, s.account = some a ∧ restored.pending.active.queueId = a.queueId ∧
      ∀ old ∈ restored.undo.active, placed old place ∈ restored.pending.parked ∧
        ∀ queue ∈ a.parked, queue.queueId = old.queueId → queue = placed old place
  delete : ∀ request removed, s.task = some (.delete request removed) →
    request.queueId ∉ s.names ∧ request.queueId ∉ ids (s.follow.filterMap Follow.removed) ∧
      ∀ queue ∈ removed, queue.queueId = request.queueId
  save : ∀ pending, s.task = some (.save pending) →
    ∃ a, s.account = some a ∧ pending.active.queueId = a.queueId
  written : ∀ task disk, s.job = some (.written task disk) →
    ∃ now, task.write s.disk now = .ok disk
  held : s.account = none → s.deleting = []

variable {s : Sys}

theorem Quiet.restoring (h : s.Quiet) (hjob : s.job = none) : s.restoring = [] := by
  rw [Sys.restoring, task, hjob, h]
  rfl

namespace Coherent

theorem new : Sys.new.Coherent := by
  refine ⟨List.nodup_nil, Nat.zero_le 1, fun _ => rfl, fun _ hu => ?_, fun _ _ hj => ?_,
    fun _ _ _ hj => ?_, fun _ _ hj => ?_, fun _ hj => ?_, fun _ _ hj => ?_, fun _ => rfl⟩
  · cases hu
  · cases hj
  · cases hj
  · cases hj
  · cases hj
  · cases hj

/-- With no job under way. -/
theorem of_idle (hjob : s.job = none) (distinct : (s.names ++ ids s.deleting).Nodup)
    (one : s.restoring.length ≤ 1)
    (under : ∀ undo ∈ s.restoring, ∃ a, s.account = some a ∧ s.Under undo a)
    (held : s.account = none → s.deleting = []) : s.Coherent := by
  refine ⟨distinct, one, fun h => ?_, under, fun _ _ hj => ?_, fun _ _ _ hj => ?_,
    fun _ _ hj => ?_, fun _ hj => ?_, fun _ _ hj => ?_, held⟩
  · rw [hjob] at h
    cases h
  · rw [hjob] at hj
    cases hj
  · rw [task, hjob] at hj
    cases hj
  · rw [task, hjob] at hj
    cases hj
  · rw [task, hjob] at hj
    cases hj
  · rw [hjob] at hj
    cases hj

/-- Memory changes, but only parked queues leave it. -/
theorem thinned (h : s.Coherent) {account : Option Account} (changes : List Change)
    (failures : List Failure) (hnone : account = none ↔ s.account = none)
    (hsome : ∀ a ∈ s.account, ∀ a' ∈ account,
      a'.queueId = a.queueId ∧ a'.parked.Sublist a.parked) :
    Coherent { s with account, changes, failures } := by
  cases haccount : s.account with
  | none =>
    obtain rfl := hnone.mpr haccount
    refine ⟨?_, h.one, h.quiet, ?_, ?_, ?_, ?_, ?_, h.written, fun _ => h.held haccount⟩
    · have hdistinct := h.distinct
      rw [names, haccount] at hdistinct
      exact hdistinct
    · intro undo hu
      obtain ⟨a, ha, -⟩ := h.under undo hu
      rw [haccount] at ha
      cases ha
    · intro request stored hj
      obtain ⟨hdeleting, -, htarget⟩ := h.looked request stored hj
      refine ⟨hdeleting, fun a ha => by (cases ha), fun target ht => ⟨(htarget target ht).1, ?_⟩⟩
      exact List.not_mem_nil
    · intro request restored place hj
      obtain ⟨a, ha, -⟩ := h.restore request restored place hj
      rw [haccount] at ha
      cases ha
    · intro request removed hj
      obtain ⟨-, hrest⟩ := h.delete request removed hj
      exact ⟨List.not_mem_nil, hrest⟩
    · intro pending hj
      obtain ⟨a, ha, -⟩ := h.save pending hj
      rw [haccount] at ha
      cases ha
  | some a =>
    cases account with
    | none =>
      rw [hnone.mp rfl] at haccount
      cases haccount
    | some a' =>
      obtain ⟨hid, hsub⟩ := hsome a haccount a' rfl
      have hnames : (a'.queueId :: ids a'.parked).Sublist s.names := by
        rw [names, haccount, hid]
        exact (ids_sublist hsub).cons_cons a.queueId
      refine ⟨h.distinct.sublist (hnames.append_right _), h.one, h.quiet, ?_, ?_, ?_, ?_, ?_,
        h.written, fun hnone => by (cases hnone)⟩
      · intro undo hu
        obtain ⟨b, hb, hunder⟩ := h.under undo hu
        rw [haccount] at hb
        cases hb
        refine ⟨a', rfl, fun target ht => (hunder.target target ht).trans hid.symm, ?_, ?_⟩
        · intro old ho
          rw [hid]
          exact hunder.replaced old ho
        · intro hnone
          obtain ⟨htarget, hparked, hdeleting⟩ := hunder.alone hnone
          rw [hparked] at hsub
          exact ⟨htarget, List.sublist_nil.mp hsub, hdeleting⟩
      · intro request stored hj
        obtain ⟨hdeleting, hactive, htarget⟩ := h.looked request stored hj
        refine ⟨hdeleting, fun b hb => ?_, fun target ht => ?_⟩
        · cases hb
          rw [hid]
          exact hactive a haccount
        · obtain ⟨heq, hnot⟩ := htarget target ht
          exact ⟨heq, fun hin => hnot (hnames.subset hin)⟩
      · intro request restored place hj
        obtain ⟨b, hb, hpending, hold⟩ := h.restore request restored place hj
        rw [haccount] at hb
        cases hb
        refine ⟨a', rfl, hpending.trans hid.symm, fun old ho => ⟨(hold old ho).1, ?_⟩⟩
        exact fun queue hq => (hold old ho).2 queue (hsub.subset hq)
      · intro request removed hj
        obtain ⟨hnot, hrest⟩ := h.delete request removed hj
        exact ⟨fun hin => hnot (hnames.subset hin), hrest⟩
      · intro pending hj
        obtain ⟨b, hb, hpending⟩ := h.save pending hj
        rw [haccount] at hb
        cases hb
        exact ⟨a', rfl, hpending.trans hid.symm⟩

theorem fail (h : s.Coherent) (request : Request) (error : KeepError) :
    (s.fail request error).Coherent := by
  refine h.thinned s.changes _ Iff.rfl fun a ha a' ha' => ?_
  rw [Option.mem_def] at ha ha'
  obtain rfl := Option.some.inj (ha.symm.trans ha')
  exact ⟨rfl, List.Sublist.refl _⟩

/-- A restore that found nothing to take ends. -/
theorem stopped (h : s.Coherent) (hjob : s.job.isSome) (htask : s.task = none) :
    Coherent { s with job := none } := by
  have hrestoring : ({ s with job := none } : Sys).restoring = s.restoring := by
    simp only [restoring, htask]
    rfl
  have hdeleting : ({ s with job := none } : Sys).deleting = s.deleting := by
    simp only [deleting, htask]
    rfl
  have hnone : s.restoring = [] := by
    have hquiet : s.follow.filterMap Follow.undo = [] := h.quiet hjob
    rw [restoring, htask, hquiet]
    rfl
  refine of_idle rfl ?_ ?_ (fun undo hu => ?_) ?_
  · rw [hdeleting]
    exact h.distinct
  · rw [hrestoring]
    exact h.one
  · rw [hrestoring, hnone] at hu
    cases hu
  · rw [hdeleting]
    exact h.held

/-- Something is left to do, or done, that is no restore's or delete's. -/
theorem of_follow (h : s.Coherent) {follow : List Follow}
    (hundo : follow.filterMap Follow.undo = s.follow.filterMap Follow.undo)
    (hremoved : follow.filterMap Follow.removed = s.follow.filterMap Follow.removed) :
    Coherent { s with follow } := by
  have hrestoring : ({ s with follow } : Sys).restoring = s.restoring := by
    simp only [restoring, hundo]
    rfl
  have hdeleting : ({ s with follow } : Sys).deleting = s.deleting := by
    simp only [deleting, hremoved]
    rfl
  refine ⟨?_, ?_, fun hjob => ?_, fun undo hu => ?_, fun request stored hj => ?_, h.restore,
    fun request removed hj => ?_, h.save, h.written, fun hnone => ?_⟩
  · rw [hdeleting]
    exact h.distinct
  · rw [hrestoring]
    exact h.one
  · exact hundo.trans (h.quiet hjob)
  · rw [hrestoring] at hu
    obtain ⟨a, ha, hunder⟩ := h.under undo hu
    refine ⟨a, ha, hunder.target, ?_, ?_⟩
    · rw [hdeleting]
      exact hunder.replaced
    · rw [hdeleting]
      exact hunder.alone
  · rw [hdeleting]
    exact h.looked request stored hj
  · rw [hremoved]
    exact h.delete request removed hj
  · rw [hdeleting]
    exact h.held hnone

theorem names_some {a : Account} (h : s.account = some a) : s.names = a.queueId :: ids a.parked := by
  rw [names, h]
  rfl

theorem ids_placed (queue : Queue) (place : Option Position) :
    (placed queue place).queueId = queue.queueId := (Account.placed_same queue place).1

/-- A start while no job runs. -/
theorem start (h : s.Coherent) (hjob : s.job = none) {new : NewQueue}
    (hcalm : s.Quiet ∧ new.queueId ∉ ids s.deleting) {started a : Account} {place : Option Position}
    (hfresh : fresh new = .ok started) (hstart : startIn s.disk s.account started place = .ok a)
    (changes : List Change) : Coherent { s with account := some a, changes } := by
  obtain ⟨hid, hparked, -⟩ := fresh_ok hfresh
  obtain ⟨hquiet, hdeleting⟩ := hcalm
  have hrestoring := hquiet.restoring hjob
  refine of_idle hjob ?_ h.one (fun undo hu => ?_) fun hnone => by (cases hnone)
  · obtain ⟨hnone, rfl⟩ | ⟨b, hb, hnames, hid', -, hparked'⟩ := startIn_ok hstart
    · change (a.queueId :: ids a.parked ++ ids s.deleting).Nodup
      rw [hparked, h.held hnone]
      exact List.nodup_singleton _
    · have hdistinct := h.distinct
      rw [names_some hb] at hdistinct
      obtain ⟨hactive, hother⟩ := Account.names_false hnames
      have hperm : (a.queueId :: ids a.parked ++ ids s.deleting).Perm
          (a.queueId :: (b.queueId :: ids b.parked ++ ids s.deleting)) := by
        rw [hparked', ids_append]
        refine List.Perm.cons _ ?_
        have hold : ids [placed b.active place] = [b.queueId] := by
          simp [ids, ids_placed, Account.active]
        rw [hold]
        exact (List.perm_append_singleton b.queueId (ids b.parked)).append_right _
      change (a.queueId :: ids a.parked ++ ids s.deleting).Nodup
      rw [hperm.nodup_iff, List.nodup_cons]
      refine ⟨fun hin => ?_, hdistinct⟩
      rw [hid', List.cons_append, List.mem_cons, List.mem_append] at hin
      obtain hin | hin | hin := hin
      · exact hactive hin.symm
      · obtain ⟨queue, hq, heq⟩ := mem_ids.1 hin
        exact hother queue hq heq
      · rw [hid] at hin
        exact hdeleting hin
  · change undo ∈ s.restoring at hu
    rw [hrestoring] at hu
    cases hu

/-- A restore has looked for its queue. -/
theorem look (h : s.Coherent) (hjob : s.job = none) {queueId : Uuid}
    (hcalm : s.Quiet ∧ queueId ∉ ids s.deleting) {stored : Option Queue}
    (hlook : Queues.look s.disk s.account queueId = .ok stored) :
    Coherent { s with job := some (.looked (s.request queueId) stored) } := by
  obtain ⟨hquiet, hdeleting⟩ := hcalm
  obtain ⟨hactive, hkept⟩ := look_ok hlook
  have htask : s.task = none := by
    rw [task, hjob]
    rfl
  have hrestoring : ({ s with job := some (.looked (s.request queueId) stored) } : Sys).restoring =
      s.restoring := by
    simp only [restoring, htask]
    rfl
  have hsame : ({ s with job := some (.looked (s.request queueId) stored) } : Sys).deleting =
      s.deleting := by
    simp only [deleting, htask]
    rfl
  refine ⟨?_, ?_, fun _ => hquiet, fun undo hu => ?_, fun request stored' hj => ?_,
    fun _ _ _ hj => by (cases hj), fun _ _ hj => by (cases hj), fun _ hj => by (cases hj),
    fun _ _ hj => by (cases hj), fun hnone => ?_⟩
  · rw [hsame]
    exact h.distinct
  · rw [hrestoring]
    exact h.one
  · rw [hrestoring, hquiet.restoring hjob] at hu
    cases hu
  · rw [hsame]
    cases hj
    refine ⟨hdeleting, hactive, fun target ht => ?_⟩
    obtain ⟨hread, hparked⟩ := hkept target ht
    refine ⟨Disk.readKept_id hread, fun hin => ?_⟩
    cases haccount : s.account with
    | none =>
      change queueId ∈ s.names at hin
      rw [names, haccount] at hin
      cases hin
    | some a =>
      change queueId ∈ s.names at hin
      rw [names_some haccount] at hin
      obtain hin | hin := List.mem_cons.mp hin
      · exact hactive a haccount hin.symm
      · obtain ⟨queue, hq, heq⟩ := mem_ids.1 hin
        exact hparked a haccount queue hq heq
  · rw [hsame]
    exact h.held hnone

/-- A restore takes its queue. -/
theorem take (h : s.Coherent) {request : Request} {stored : Option Queue}
    (hjob : s.job = some (.looked request stored)) {place : Option Position} {restored : Restored}
    {a : Account}
    (htake : restoreTake s.account request.queueId stored place = .ok (restored, a)) :
    Coherent { s with account := some a, job := some (.taken (.restore request restored place)) } := by
  obtain ⟨hdeleting, hother, hstored⟩ := h.looked request stored hjob
  have hquiet : s.Quiet := h.quiet (by rw [hjob]; rfl)
  have htask : s.task = none := by
    rw [task, hjob]
    rfl
  obtain ⟨target, base, hbase, hactive, hundo, hparked, hsaved, hpending⟩ := restoreTake_ok htake
  have hrestoring : ({ s with
      account := some a, job := some (.taken (.restore request restored place)) } : Sys).restoring =
      [restored.undo] := by
    have hf : s.follow.filterMap Follow.undo = [] := hquiet
    simp only [restoring, hf, List.append_nil]
    rfl
  have hsame : ({ s with
      account := some a, job := some (.taken (.restore request restored place)) } : Sys).deleting =
      s.deleting := by
    simp only [deleting, htask]
    rfl
  have htargetId : target.queueId = request.queueId := by
    obtain ⟨hs, -, -⟩ | ⟨b, rest, -, -, hunpark, -, -⟩ := hbase
    · exact (hstored target hs).1
    · exact (Account.unpark_some hunpark).1
  have haId : a.queueId = target.queueId := congrArg Queue.queueId hactive
  -- The names in memory are those before, with the target's if it was stored.
  have hbaseNames : ∀ b ∈ base, (target.queueId :: b.queueId :: ids b.parked ++
      ids s.deleting).Nodup ∧ (∀ b', s.account = some b' → b'.queueId = b.queueId) := by
    intro b hb
    rw [Option.mem_def] at hb
    obtain ⟨hs, rfl, -⟩ | ⟨b', rest, -, hb', hunpark, rfl, -⟩ := hbase
    · have hdistinct := h.distinct
      have hnot := (hstored target hs).2
      rw [names_some hb] at hdistinct hnot
      refine ⟨List.nodup_cons.mpr ⟨fun hin => ?_, hdistinct⟩, fun b' hb' => ?_⟩
      · rw [htargetId] at hin
        obtain hin | hin := List.mem_append.mp hin
        · exact hnot hin
        · exact hdeleting hin
      · rw [hb] at hb'
        cases hb'
        rfl
    · cases hb
      obtain ⟨-, hperm, hsame'⟩ := Account.unpark_some hunpark
      have hid : b.queueId = b'.queueId := congrArg Queue.queueId hsame'
      have hdistinct := h.distinct
      rw [names_some hb'] at hdistinct
      have hids : (b'.queueId :: ids b'.parked ++ ids s.deleting).Perm
          (target.queueId :: b.queueId :: ids b.parked ++ ids s.deleting) := by
        rw [hid]
        refine List.Perm.append_right _ ?_
        refine ((hperm.map _).cons b'.queueId).trans ?_
        exact .swap target.queueId b'.queueId _
      refine ⟨hids.nodup_iff.mp hdistinct, fun b'' hb'' => ?_⟩
      rw [hb'] at hb''
      cases hb''
      exact hid.symm
  have hnone : base = none → s.deleting = [] := by
    intro hn
    obtain ⟨-, hsame', -⟩ | ⟨_, _, -, -, -, hsome, -⟩ := hbase
    · exact h.held (hsame'.symm.trans hn)
    · rw [hn] at hsome
      cases hsome
  refine ⟨?_, ?_, fun _ => hquiet, fun undo hu => ?_, fun _ _ hj => by (cases hj),
    fun request' restored' place' hj => ?_, fun _ _ hj => by (cases hj), fun _ hj => by (cases hj),
    fun _ _ hj => by (cases hj), fun hn => by (cases hn)⟩
  · rw [hsame]
    change (a.queueId :: ids a.parked ++ ids s.deleting).Nodup
    rw [haId, hparked]
    cases base with
    | none =>
      rw [hnone rfl]
      exact List.nodup_singleton _
    | some b =>
      obtain ⟨hdistinct, -⟩ := hbaseNames b rfl
      refine List.Perm.nodup_iff ?_ |>.mp hdistinct
      refine List.Perm.append_right _ (List.Perm.cons _ ?_)
      simp only [Option.elim_some, ids_append]
      have hold : ids [placed b.active place] = [b.queueId] := by
        simp [ids, ids_placed, Account.active]
      rw [hold]
      exact (List.perm_append_singleton b.queueId (ids b.parked)).symm
  · rw [hrestoring]
    exact Nat.le_refl 1
  · rw [hrestoring, List.mem_singleton] at hu
    subst hu
    refine ⟨a, rfl, fun t ht => ?_, fun old ho => ?_, fun hno => ?_⟩
    · obtain ⟨-, -, hn⟩ | ⟨b, rest, -, -, -, -, ht'⟩ := hbase
      · rw [hn] at ht
        cases ht
      · rw [ht'] at ht
        cases ht
        exact haId.symm
    · rw [hsame]
      rw [hundo, Option.mem_map] at ho
      obtain ⟨b, hb, rfl⟩ := ho
      obtain ⟨hdistinct, -⟩ := hbaseNames b hb
      rw [List.cons_append, List.nodup_cons, List.cons_append, List.nodup_cons] at hdistinct
      refine ⟨fun heq => hdistinct.1 ?_, fun hin => ?_⟩
      · rw [← haId, ← heq]
        exact List.mem_cons_self
      · exact hdistinct.2.1 (List.mem_append_right _ hin)
    · rw [hsame]
      rw [hundo, Option.map_eq_none_iff] at hno
      subst hno
      refine ⟨?_, hparked, hnone rfl⟩
      obtain ⟨-, -, hn⟩ | ⟨_, _, -, -, -, hsome, -⟩ := hbase
      · exact hn
      · cases hsome
  · cases hj
    refine ⟨a, rfl, ?_, fun old ho => ?_⟩
    · rw [hsaved]
      exact haId.symm
    · rw [hundo, Option.mem_map] at ho
      obtain ⟨b, hb, rfl⟩ := ho
      rw [Option.mem_def] at hb
      subst hb
      rw [hpending, hparked]
      refine ⟨List.mem_append_right _ (List.mem_singleton_self _), fun queue hq heq => ?_⟩
      obtain hq | hq := List.mem_append.mp hq
      · obtain ⟨hdistinct, -⟩ := hbaseNames b rfl
        rw [List.cons_append, List.nodup_cons, List.cons_append, List.nodup_cons] at hdistinct
        refine absurd (List.mem_append_left _ ?_) hdistinct.2.1
        rw [show b.queueId = queue.queueId from heq.symm]
        exact mem_ids_of_mem hq
      · exact List.mem_singleton.mp hq

/-- A delete takes a parked queue, or none. -/
theorem takeDelete (h : s.Coherent) (hjob : s.job = none) (hquiet : s.Quiet) {queueId : Uuid}
    (hnot : queueId ∉ ids s.deleting)
    {account : Option Account} {removed : Option Queue}
    (htake : deleteTake s.account queueId = .ok (account, removed)) :
    Coherent { s with account, job := some (.taken (.delete (s.request queueId) removed)) } := by
  have htask : s.task = none := by
    rw [task, hjob]
    rfl
  have hrestoring : ({ s with account, job := some (.taken (.delete (s.request queueId) removed)) }
      : Sys).restoring = [] := by
    have hf : s.follow.filterMap Follow.undo = [] := hquiet
    simp only [restoring, hf, List.append_nil]
    rfl
  have hdeleting : ({ s with account, job := some (.taken (.delete (s.request queueId) removed)) }
      : Sys).deleting = removed.toList ++ s.deleting := by
    simp only [deleting, htask]
    rfl
  refine ⟨?_, ?_, fun _ => hquiet, fun undo hu => ?_, fun _ _ hj => by (cases hj),
    fun _ _ _ hj => by (cases hj), fun request removed' hj => ?_, fun _ hj => by (cases hj),
    fun _ _ hj => by (cases hj), ?_⟩
  · rw [hdeleting]
    obtain ⟨rfl, rfl, -⟩ | ⟨a, rest, queue, ha, -, hunpark, rfl, rfl⟩ := deleteTake_ok htake
    · exact h.distinct
    · obtain ⟨-, hperm, hactive⟩ := Account.unpark_some hunpark
      have hid : rest.queueId = a.queueId := congrArg Queue.queueId hactive
      have hdistinct := h.distinct
      rw [names_some ha] at hdistinct
      refine List.Perm.nodup_iff ?_ |>.mp hdistinct
      change (a.queueId :: ids a.parked ++ ids s.deleting).Perm
        (rest.queueId :: ids rest.parked ++ (queue.queueId :: ids s.deleting))
      rw [hid, List.cons_append, List.cons_append]
      refine List.Perm.cons _ (((hperm.map _).append_right _).trans ?_)
      exact List.perm_middle.symm
  · rw [hrestoring]
    exact Nat.zero_le 1
  · rw [hrestoring] at hu
    cases hu
  · cases hj
    have hfollow : s.follow.filterMap Follow.removed = s.deleting := by
      rw [deleting, htask]
      rfl
    change queueId ∉ names { s with account, job := _ } ∧ queueId ∉ ids _ ∧ _
    rw [hfollow]
    obtain ⟨rfl, rfl, hother⟩ | ⟨a, rest, queue, ha, hne, hunpark, rfl, rfl⟩ := deleteTake_ok htake
    · refine ⟨fun hin => ?_, hnot, fun _ hq => by (cases hq)⟩
      cases ha : s.account with
      | none =>
        rw [names, ha] at hin
        cases hin
      | some a =>
        obtain ⟨hne, hparked⟩ := hother a ha
        rw [names, ha] at hin
        obtain hin | hin := List.mem_cons.mp hin
        · exact hne hin.symm
        · obtain ⟨queue, hq, heq⟩ := mem_ids.1 hin
          exact hparked queue hq heq
    · obtain ⟨hid, hperm, hactive⟩ := Account.unpark_some hunpark
      refine ⟨fun hin => ?_, hnot, fun other ho => ?_⟩
      · have hdistinct := h.distinct
        rw [names_some ha, List.cons_append, List.nodup_cons, List.nodup_append] at hdistinct
        obtain hin | hin := List.mem_cons.mp hin
        · exact hne ((congrArg Queue.queueId hactive).symm.trans hin.symm)
        · have hnodup := (hperm.map Queue.queueId).nodup_iff.mp hdistinct.2.1
          rw [List.map_cons, List.nodup_cons, hid] at hnodup
          exact hnodup.1 hin
      · cases ho
        exact hid
  · rw [hdeleting]
    obtain ⟨rfl, rfl, -⟩ | ⟨a, rest, queue, ha, -, hunpark, rfl, rfl⟩ := deleteTake_ok htake
    · exact h.held
    · intro hn
      cases hn

/-- A save takes what it writes. -/
theorem takeSave (h : s.Coherent) (hjob : s.job = none) (hquiet : s.Quiet) {a : Account}
    (ha : s.account = some a) :
    Coherent { s with account := some a.take.2, job := some (.taken (.save a.take.1)) } := by
  have htask : s.task = none := by
    rw [task, hjob]
    rfl
  have hrestoring : ({ s with account := some a.take.2, job := some (.taken (.save a.take.1)) }
      : Sys).restoring = [] := by
    have hf : s.follow.filterMap Follow.undo = [] := hquiet
    simp only [restoring, hf, List.append_nil]
    rfl
  have hdeleting : ({ s with account := some a.take.2, job := some (.taken (.save a.take.1)) }
      : Sys).deleting = s.deleting := by
    simp only [deleting, htask]
    rfl
  refine ⟨?_, ?_, fun _ => hquiet, fun undo hu => ?_, fun _ _ hj => by (cases hj),
    fun _ _ _ hj => by (cases hj), fun _ _ hj => by (cases hj), fun pending hj => ?_,
    fun _ _ hj => by (cases hj), fun hn => by (cases hn)⟩
  · rw [hdeleting]
    have hdistinct := h.distinct
    rw [names_some ha] at hdistinct
    exact hdistinct
  · rw [hrestoring]
    exact Nat.zero_le 1
  · rw [hrestoring] at hu
    cases hu
  · cases hj
    exact ⟨_, rfl, rfl⟩

/-- A job's statements have run. -/
theorem written_of (h : s.Coherent) {task : Task} (hjob : s.job = some (.taken task)) {disk : Disk}
    {now : Int} (hwrite : task.write s.disk now = .ok disk) :
    Coherent { s with job := some (.written task disk) } := by
  have htask : s.task = some task := by
    rw [Sys.task, hjob]
    rfl
  have hrestoring : ({ s with job := some (.written task disk) } : Sys).restoring = s.restoring := by
    simp only [restoring, htask]
    rfl
  have hdeleting : ({ s with job := some (.written task disk) } : Sys).deleting = s.deleting := by
    simp only [deleting, htask]
    rfl
  refine ⟨?_, ?_, fun _ => h.quiet (by rw [hjob]; rfl), fun undo hu => ?_,
    fun _ _ hj => by (cases hj), fun request restored place hj => ?_,
    fun request removed hj => ?_, fun pending hj => ?_, fun task' disk' hj => ?_, fun hn => ?_⟩
  · rw [hdeleting]
    exact h.distinct
  · rw [hrestoring]
    exact h.one
  · rw [hrestoring] at hu
    obtain ⟨a, ha, hunder⟩ := h.under undo hu
    refine ⟨a, ha, hunder.target, ?_, ?_⟩
    · rw [hdeleting]
      exact hunder.replaced
    · rw [hdeleting]
      exact hunder.alone
  · exact h.restore request restored place (htask.trans hj)
  · exact h.delete request removed (htask.trans hj)
  · exact h.save pending (htask.trans hj)
  · cases hj
    exact ⟨now, hwrite⟩
  · rw [hdeleting]
    exact h.held hn

/-- Memory put back names the queues it named, the target again one of them. -/
theorem putBack_distinct {undo : Undo} {a : Account} {deleting : List Queue}
    (hunder : s.Under undo a) (hdistinct : (a.queueId :: ids a.parked ++ ids s.deleting).Nodup)
    (hsub : ∀ queue ∈ deleting, queue ∈ s.deleting) (hnodup : (ids deleting).Nodup) :
    (({ s with account := putBack (some a) undo } : Sys).names ++ ids deleting).Nodup ∧
      (putBack (some a) undo = none → deleting = []) := by
  cases hundo : undo.active with
  | none =>
    obtain ⟨-, -, hnone⟩ := hunder.alone hundo
    have hempty : deleting = [] := by
      rw [List.eq_nil_iff_forall_not_mem]
      intro queue hq
      have := hsub queue hq
      rw [hnone] at this
      cases this
    subst hempty
    refine ⟨?_, fun _ => rfl⟩
    rw [putBack_none _ hundo]
    exact List.nodup_nil
  | some old =>
    obtain ⟨after, he, hactive, hparked⟩ := putBack_some a hundo
    obtain ⟨hne, hnot⟩ := hunder.replaced old hundo
    have hid : after.queueId = old.queueId := congrArg Queue.queueId hactive
    refine ⟨?_, fun hn => ?_⟩
    · rw [names_some (s := { s with account := putBack (some a) undo }) he, hid, hparked]
      rw [List.cons_append, List.nodup_cons, List.nodup_append] at hdistinct
      obtain ⟨ha, hids, -, hapart⟩ := hdistinct
      have hsubIds : ∀ id ∈ ids deleting, id ∈ ids s.deleting := by
        intro id hin
        obtain ⟨queue, hq, rfl⟩ := mem_ids.1 hin
        exact mem_ids_of_mem (hsub queue hq)
      have htarget : ∀ id ∈ ids undo.target.toList, id = a.queueId := by
        intro id hin
        obtain ⟨target, ht, rfl⟩ := mem_ids.1 hin
        exact hunder.target target (Option.mem_toList.mp ht)
      have hfilter : ∀ id ∈ ids (a.parked.filter (·.queueId ≠ old.queueId)),
          id ∈ ids a.parked ∧ id ≠ old.queueId := by
        intro id hin
        obtain ⟨queue, hq, rfl⟩ := mem_ids.1 hin
        obtain ⟨hq, hne⟩ := List.mem_filter.mp hq
        exact ⟨mem_ids_of_mem hq, by simpa using hne⟩
      rw [List.cons_append, List.nodup_cons, ids_append]
      constructor
      · intro hin
        obtain hin | hin := List.mem_append.mp hin
        · obtain hin | hin := List.mem_append.mp hin
          · exact (hfilter _ hin).2 rfl
          · exact hne (htarget _ hin)
        · exact hnot (hsubIds _ hin)
      · rw [List.nodup_append, List.nodup_append]
        refine ⟨⟨(hids.sublist (ids_sublist List.filter_sublist)), ?_, ?_⟩, hnodup, ?_⟩
        · cases undo.target with
          | none => exact List.nodup_nil
          | some target => exact List.nodup_singleton _
        · intro id hid' other ho heq
          rw [htarget other ho] at heq
          exact ha (List.mem_append_left _ (heq ▸ (hfilter id hid').1))
        · intro id hid' other ho heq
          obtain hin | hin := List.mem_append.mp hid'
          · exact hapart id (hfilter id hin).1 other (hsubIds other ho) heq
          · rw [htarget id hin] at heq
            exact ha (List.mem_append_right _ (heq ▸ hsubIds other ho))
    · rw [he] at hn
      cases hn

/-- What waits to be put back by deletes while a job runs. -/
theorem waiting (s : Sys) {task : Task} (htask : s.task = some task) :
    s.deleting = task.removed.toList ++ s.follow.filterMap Follow.removed := by
  rw [deleting, htask]
  rfl

theorem undoing (h : s.Coherent) {task : Task} (htask : s.task = some task) :
    s.restoring = task.undo.toList := by
  have hjob : s.job.isSome := by
    rw [Sys.task] at htask
    cases hj : s.job with
    | none =>
      rw [hj] at htask
      cases htask
    | some job => rfl
  have hquiet : s.follow.filterMap Follow.undo = [] := h.quiet hjob
  rw [restoring, htask, hquiet, List.append_nil]
  rfl

theorem quiet_task (h : s.Coherent) {task : Task} (htask : s.task = some task) : s.Quiet := by
  refine h.quiet ?_
  rw [Sys.task] at htask
  cases hj : s.job with
  | none =>
    rw [hj] at htask
    cases htask
  | some job => rfl

/-- A job ends with no restore under way. -/
theorem ended {account : Option Account} {disk : Disk} {follow : List Follow}
    {changes : List Change} {failures : List Failure}
    (hquiet : follow.filterMap Follow.undo = [])
    (distinct : ((account.elim [] fun a => a.queueId :: ids a.parked) ++
      ids (follow.filterMap Follow.removed)).Nodup)
    (held : account = none → follow.filterMap Follow.removed = []) :
    Coherent ⟨account, disk, none, follow, changes, failures⟩ := by
  have hrestoring : (⟨account, disk, none, follow, changes, failures⟩ : Sys).restoring = [] :=
    hquiet
  refine of_idle rfl distinct ?_ (fun undo hu => ?_) held
  · rw [hrestoring]
    exact Nat.zero_le 1
  · rw [hrestoring] at hu
    cases hu

theorem abandon (h : s.Coherent) {task : Task} (htask : s.task = some task) (error : KeepError) :
    (s.abandon task error).Coherent := by
  have hquiet := h.quiet_task htask
  have hdeleting := waiting s htask
  have hdistinct := h.distinct
  have hheld := h.held
  rw [hdeleting] at hdistinct hheld
  have hwaiting : (ids (s.follow.filterMap Follow.removed)).Nodup := by
    rw [ids_append, List.nodup_append, List.nodup_append] at hdistinct
    exact hdistinct.2.1.2.1
  cases task with
  | restore request restored place =>
    obtain ⟨a, ha, hunder⟩ := h.under restored.undo (by rw [h.undoing htask]; exact List.mem_singleton_self _)
    rw [← hdeleting, names_some ha] at hdistinct
    obtain ⟨hafter, hnone⟩ := putBack_distinct hunder hdistinct
      (fun queue hq => by rw [hdeleting]; exact hq) hwaiting
    rw [← ha] at hafter hnone
    exact ended hquiet hafter hnone
  | delete request removed =>
    cases removed with
    | none => exact ended hquiet hdistinct hheld
    | some queue =>
      cases ha : s.account with
      | none => cases hheld ha
      | some a =>
        rw [names_some ha] at hdistinct
        refine ended hquiet ?_ fun hn => ?_
        · rw [ha]
          refine List.Perm.nodup_iff ?_ |>.mp hdistinct
          change (a.queueId :: ids a.parked ++
            (queue.queueId :: ids (s.follow.filterMap Follow.removed))).Perm
            (a.queueId :: ids (a.parked ++ [queue]) ++ ids (s.follow.filterMap Follow.removed))
          rw [ids_append, List.cons_append, List.cons_append, List.append_assoc]
          exact .refl _
        · rw [ha] at hn
          cases hn
  | save pending =>
    refine ended hquiet ?_ fun hn => hheld (Option.map_eq_none_iff.mp hn)
    rw [names] at hdistinct
    cases ha : s.account with
    | none =>
      rw [ha] at hdistinct
      exact hdistinct
    | some a =>
      rw [ha] at hdistinct
      exact hdistinct

theorem rollBack (h : s.Coherent) {task : Task} (htask : s.task = some task) :
    (s.rollBack task).Coherent := by
  have hquiet : s.follow.filterMap Follow.undo = [] := h.quiet_task htask
  have hdeleting := waiting s htask
  have hdistinct := h.distinct
  have hheld := h.held
  rw [hdeleting] at hdistinct hheld
  cases task with
  | restore request restored place =>
    have hundoing := h.undoing htask
    have hrestoring : (s.rollBack (.restore request restored place)).restoring = s.restoring := by
      rw [hundoing, Sys.rollBack, restoring]
      simp only [List.filterMap_append, hquiet]
      rfl
    have hsame : (s.rollBack (.restore request restored place)).deleting = s.deleting := by
      rw [hdeleting, Sys.rollBack, deleting]
      simp only [List.filterMap_append]
      exact List.append_nil _
    refine of_idle rfl ?_ ?_ (fun undo hu => ?_) ?_
    · rw [hsame]
      exact h.distinct
    · rw [hrestoring]
      exact h.one
    · rw [hrestoring] at hu
      obtain ⟨a, ha, hunder⟩ := h.under undo hu
      refine ⟨a, ha, hunder.target, ?_, ?_⟩
      · rw [hsame]
        exact hunder.replaced
      · rw [hsame]
        exact hunder.alone
    · rw [hsame]
      exact h.held
  | delete request removed =>
    cases removed with
    | none => exact ended hquiet hdistinct hheld
    | some queue =>
      refine ended ?_ ?_ fun hn => ?_
      · rw [List.filterMap_append, hquiet]
        rfl
      · rw [List.filterMap_append]
        refine List.Perm.nodup_iff ?_ |>.mp hdistinct
        refine List.Perm.append_left _ ?_
        exact (List.perm_append_singleton queue _).symm.map _
      · cases hheld hn
  | save pending =>
    refine ended ?_ ?_ fun hn => ?_
    · rw [List.filterMap_append, hquiet]
      rfl
    · rw [List.filterMap_append]
      exact (List.append_nil (s.follow.filterMap Follow.removed)).symm ▸ hdistinct
    · rw [List.filterMap_append, show s.follow.filterMap Follow.removed = [] from hheld hn]
      rfl

theorem finish (h : s.Coherent) {task : Task} (htask : s.task = some task) (disk : Disk) :
    (s.finish task disk).Coherent := by
  have hquiet : s.follow.filterMap Follow.undo = [] := h.quiet_task htask
  have hdeleting := waiting s htask
  have hdistinct := h.distinct
  have hheld := h.held
  rw [hdeleting] at hdistinct hheld
  have hcommitted : ∀ saved, (s.follow ++ [Follow.committed saved]).filterMap Follow.removed =
      s.follow.filterMap Follow.removed := by
    intro saved
    rw [List.filterMap_append]
    exact List.append_nil _
  have hstill : ∀ saved, (s.follow ++ [Follow.committed saved]).filterMap Follow.undo = [] := by
    intro saved
    rw [List.filterMap_append, hquiet]
    rfl
  cases task with
  | restore request restored place =>
    refine ended (hstill _) ?_ fun hn => ?_
    · rw [hcommitted]
      exact hdistinct
    · rw [hcommitted]
      exact hheld hn
  | delete request removed =>
    refine ended hquiet (hdistinct.sublist ?_) fun hn => ?_
    · exact (ids_sublist (List.sublist_append_right _ _)).append_left _
    · exact (List.append_eq_nil_iff.mp (hheld hn)).2
  | save pending =>
    refine ended (hstill _) ?_ fun hn => ?_
    · rw [hcommitted]
      exact hdistinct
    · rw [hcommitted]
      exact hheld hn

/-- A delete puts its queue back, whatever runs on the writer. -/
theorem pushBack (h : s.Coherent) {i : Nat} {request : Request} {queue : Queue}
    (hi : s.follow[i]? = some (.pushBack request queue)) (failures : List Failure) :
    Coherent { s with
      account := Queues.pushBack s.account queue, follow := s.follow.eraseIdx i, failures } := by
  have hundo : (s.follow.eraseIdx i).filterMap Follow.undo = s.follow.filterMap Follow.undo :=
    filterMap_eraseIdx hi rfl
  have hperm : s.deleting.Perm (queue ::
      ((s.task.bind Task.removed).toList ++ (s.follow.eraseIdx i).filterMap Follow.removed)) := by
    refine ((perm_filterMap_eraseIdx (f := Follow.removed) hi rfl).append_left _).trans ?_
    exact List.perm_middle
  obtain ⟨a, ha⟩ : ∃ a, s.account = some a := by
    cases ha : s.account with
    | none =>
      rw [h.held ha, List.nil_perm] at hperm
      cases hperm
    | some a => exact ⟨a, rfl⟩
  have hback : Queues.pushBack s.account queue = some { a with parked := a.parked ++ [queue] } := by
    rw [ha]
    rfl
  rw [hback]
  generalize hnow : ({ s with
    account := some { a with parked := a.parked ++ [queue] }, follow := s.follow.eraseIdx i, failures }
      : Sys) = now
  have hdeleting : now.deleting =
      (s.task.bind Task.removed).toList ++ (s.follow.eraseIdx i).filterMap Follow.removed := by
    rw [← hnow]
    rfl
  have hrestoring : now.restoring = s.restoring := by
    rw [← hnow]
    simp only [restoring, hundo]
    rfl
  have haccount : now.account = some { a with parked := a.parked ++ [queue] } := by rw [← hnow]
  rw [← hdeleting] at hperm
  have hqueue : queue.queueId ∈ ids s.deleting :=
    mem_ids_of_mem (hperm.mem_iff.mpr List.mem_cons_self)
  have hsub : ∀ id, id ∉ ids s.deleting → id ∉ ids now.deleting := by
    intro id hnot hin
    obtain ⟨other, ho, rfl⟩ := mem_ids.1 hin
    exact hnot (mem_ids_of_mem (hperm.mem_iff.mpr (List.mem_cons_of_mem _ ho)))
  have hjob : now.job = s.job := by rw [← hnow]
  have htask : now.task = s.task := by rw [task, hjob, task]
  have hdisk : now.disk = s.disk := by rw [← hnow]
  refine ⟨?_, ?_, fun hsome => ?_, fun undo hu => ?_, fun request stored hj => ?_,
    fun request restored place hj => ?_, fun request removed hj => ?_, fun pending hj => ?_,
    fun task disk hj => ?_, fun hn => ?_⟩
  · have hdistinct := h.distinct
    rw [names_some ha] at hdistinct
    rw [names_some haccount]
    refine List.Perm.nodup_iff ?_ |>.mp hdistinct
    refine ((hperm.map _).append_left _).trans ?_
    rw [ids_append, List.cons_append, List.cons_append, List.append_assoc]
    exact .refl _
  · rw [hrestoring]
    exact h.one
  · rw [hjob] at hsome
    rw [← hnow]
    exact hundo.trans (h.quiet hsome)
  · rw [hrestoring] at hu
    obtain ⟨b, hb, hunder⟩ := h.under undo hu
    rw [ha] at hb
    cases hb
    refine ⟨_, haccount, hunder.target, fun old ho => ?_, fun hn => ?_⟩
    · obtain ⟨hne, hnot⟩ := hunder.replaced old ho
      exact ⟨hne, hsub _ hnot⟩
    · rw [(hunder.alone hn).2.2] at hqueue
      cases hqueue
  · rw [hjob] at hj
    obtain ⟨hnot, hactive, hstored⟩ := h.looked request stored hj
    refine ⟨hsub _ hnot, fun b hb => ?_, fun target ht => ?_⟩
    · rw [haccount] at hb
      cases hb
      exact hactive a ha
    · obtain ⟨heq, hnames⟩ := hstored target ht
      refine ⟨heq, fun hin => ?_⟩
      rw [names_some ha] at hnames
      rw [names_some haccount, ids_append, ← List.cons_append] at hin
      obtain hin | hin := List.mem_append.mp hin
      · exact hnames hin
      · obtain ⟨other, ho, heq'⟩ := mem_ids.1 hin
        rw [List.mem_singleton.mp ho] at heq'
        exact hnot (heq' ▸ hqueue)
  · rw [htask] at hj
    obtain ⟨b, hb, hpending, hold⟩ := h.restore request restored place hj
    rw [ha] at hb
    cases hb
    refine ⟨_, haccount, hpending, fun old ho => ⟨(hold old ho).1, fun other hother heq => ?_⟩⟩
    obtain hin | hin := List.mem_append.mp hother
    · exact (hold old ho).2 other hin heq
    · rw [List.mem_singleton.mp hin] at heq
      have hundoing := h.undoing hj
      obtain ⟨b, hb, hunder⟩ := h.under restored.undo (by rw [hundoing]; exact List.mem_singleton_self _)
      exact absurd (heq ▸ hqueue) (hunder.replaced old ho).2
  · rw [htask] at hj
    obtain ⟨hnames, hnot, hid⟩ := h.delete request removed hj
    have hwaits : queue.queueId ∈ ids (s.follow.filterMap Follow.removed) :=
      mem_ids_of_mem ((perm_filterMap_eraseIdx (f := Follow.removed) hi rfl).mem_iff.mpr
        List.mem_cons_self)
    refine ⟨fun hin => ?_, fun hin => hnot ?_, hid⟩
    · rw [names_some ha] at hnames
      rw [names_some haccount, ids_append, ← List.cons_append] at hin
      obtain hin | hin := List.mem_append.mp hin
      · exact hnames hin
      · obtain ⟨other, ho, heq⟩ := mem_ids.1 hin
        rw [List.mem_singleton.mp ho] at heq
        exact hnot (heq ▸ hwaits)
    · rw [← hnow] at hin
      obtain ⟨other, ho, heq⟩ := mem_ids.1 hin
      exact heq ▸ mem_ids_of_mem ((perm_filterMap_eraseIdx (f := Follow.removed) hi rfl).mem_iff.mpr
        (List.mem_cons_of_mem _ ho))
  · rw [htask] at hj
    obtain ⟨b, hb, hpending⟩ := h.save pending hj
    rw [ha] at hb
    cases hb
    exact ⟨_, haccount, hpending⟩
  · rw [hjob] at hj
    rw [hdisk]
    exact h.written task disk hj
  · rw [haccount] at hn
    cases hn

theorem settle (h : s.Coherent) {i : Nat} {follow : Follow} (hi : s.follow[i]? = some follow) :
    Coherent ({ s with follow := s.follow.eraseIdx i }.settle follow) := by
  cases follow with
  | committed saved =>
    have hsame := h.of_follow (filterMap_eraseIdx hi rfl) (filterMap_eraseIdx hi rfl)
    refine hsame.thinned _ _ Option.map_eq_none_iff fun a ha a' ha' => ?_
    change s.account = some a at ha
    rw [Option.mem_def, ha] at ha'
    cases ha'
    exact ⟨rfl, List.filter_sublist⟩
  | pushBack request queue => exact h.pushBack hi _
  | markChanged =>
    have hsame := h.of_follow (filterMap_eraseIdx hi rfl) (filterMap_eraseIdx hi rfl)
    refine hsame.thinned s.changes s.failures Option.map_eq_none_iff fun a ha a' ha' => ?_
    change s.account = some a at ha
    rw [Option.mem_def, marked, ha] at ha'
    cases ha'
    exact ⟨rfl, List.Sublist.refl _⟩
  | putBack request undo =>
    have hperm := perm_filterMap_eraseIdx (f := Follow.undo) hi rfl
    have hjob : s.job = none := by
      cases hj : s.job with
      | none => rfl
      | some job =>
        have hquiet : s.follow.filterMap Follow.undo = [] := h.quiet (by rw [hj]; rfl)
        rw [hquiet] at hperm
        cases hperm.length_eq
    have htask : s.task = none := by
      rw [task, hjob]
      rfl
    have hrestoring : s.restoring = s.follow.filterMap Follow.undo := by
      rw [restoring, htask]
      rfl
    have hdeleting : s.deleting = s.follow.filterMap Follow.removed := by
      rw [deleting, htask]
      rfl
    have hquiet : (s.follow.eraseIdx i).filterMap Follow.undo = [] := by
      have hone := h.one
      rw [hrestoring, hperm.length_eq, List.length_cons] at hone
      exact List.eq_nil_of_length_eq_zero (by omega)
    have hsame : (s.follow.eraseIdx i).filterMap Follow.removed = s.deleting := by
      rw [hdeleting]
      exact filterMap_eraseIdx hi rfl
    obtain ⟨a, ha, hunder⟩ := h.under undo (by
      rw [hrestoring, hperm.mem_iff]
      exact List.mem_cons_self)
    have hdistinct := h.distinct
    rw [names_some ha] at hdistinct
    have hwaiting := hdistinct
    rw [List.nodup_append] at hwaiting
    obtain ⟨hafter, hnone⟩ := putBack_distinct hunder hdistinct (fun _ hq => hq) hwaiting.2.1
    rw [← ha] at hafter hnone
    rw [← hsame] at hafter hnone
    have hended : ∀ failures, Coherent ⟨putBack s.account undo, s.disk, none, s.follow.eraseIdx i,
        s.changes, failures⟩ := fun failures => ended hquiet hafter hnone
    rw [← hjob] at hended
    exact hended _

/-- **A step that meets what a run should keeps memory coherent.** -/
theorem step (h : s.Coherent) {event : Event} (hcalm : s.Calm event) : (s.step event).Coherent := by
  cases event with
  | edit queueId editId edit added =>
    obtain ⟨hnone, hsome⟩ := apply_outline s.account queueId editId edit added
    exact h.thinned _ s.failures hnone fun a ha a' ha' => by
      obtain ⟨hid, hparked⟩ := hsome a ha a' ha'
      exact ⟨hid, hparked ▸ List.Sublist.refl _⟩
  | start new place =>
    rw [Sys.step]
    split
    · rename_i account hjob hstart
      cases hfresh : fresh new with
      | error error =>
        rw [hfresh] at hstart
        cases hstart
      | ok started =>
        rw [hfresh] at hstart
        exact h.start hjob (hcalm (by rw [hjob]; rfl)) hfresh hstart _
    · exact h
  | look queueId =>
    rw [Sys.step]
    split
    · rename_i stored hjob hlook
      exact h.look hjob (hcalm (by rw [hjob]; rfl)) hlook
    · exact h.fail _ _
    · exact h
  | take place =>
    rw [Sys.step]
    split
    · rename_i request stored hjob
      cases htake : restoreTake s.account request.queueId stored place with
      | error error => exact (h.stopped (by rw [hjob]; rfl) (by rw [task, hjob]; rfl)).fail _ _
      | ok found =>
        obtain ⟨restored, account⟩ := found
        exact h.take hjob htake
    · exact h
  | delete queueId =>
    rw [Sys.step]
    split
    · rename_i account removed hjob htake
      obtain ⟨hquiet, hnot⟩ := hcalm (by rw [hjob]; rfl)
      exact h.takeDelete hjob hquiet hnot htake
    · exact h.fail _ _
    · exact h
  | save =>
    rw [Sys.step]
    split
    · rename_i account hjob hchanged
      exact h.takeSave hjob (hcalm (by rw [hjob]; rfl)) (Option.filter_eq_some_iff.mp hchanged).1
    · exact h
  | write ok now =>
    rw [Sys.step]
    split
    · rename_i task hjob
      have htask : s.task = some task := by
        rw [Sys.task, hjob]
        rfl
      cases ok with
      | false => exact h.abandon htask .db
      | true =>
        rw [if_pos rfl]
        cases hwrite : task.write s.disk now with
        | error error => exact h.abandon htask error
        | ok disk => exact h.written_of hjob hwrite
    · exact h
  | commit ok =>
    rw [Sys.step]
    split
    · rename_i task disk hjob
      have htask : s.task = some task := by
        rw [Sys.task, hjob]
        rfl
      cases ok with
      | false => exact h.rollBack htask
      | true => exact h.finish htask disk
    · exact h
  | settle i =>
    rw [Sys.step]
    split
    · rename_i follow hi
      exact h.settle hi
    · exact h
  | restart =>
    refine ended rfl ?_ fun _ => rfl
    rw [load]
    cases (s.disk.rows.find? (·.active)).bind Stored.queue with
    | none => exact List.nodup_nil
    | some queue => exact List.nodup_singleton queue.queueId

end Coherent

end Sys

end JewelCase.Queues
