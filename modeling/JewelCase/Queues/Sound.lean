import JewelCase.Queues.Writer

/-!
# Every queue the writer meets is valid

A state is read, started or edited into one the core keeps, so a refused edit changes nothing.
-/
namespace JewelCase.Queues

open JewelCase.Queue (QueueState Edit)
open JewelCase.Queue.QueueState (edited)

set_option autoImplicit false

structure Account.Sound (account : Account) : Prop where
  active : account.state.Valid
  parked : ∀ queue ∈ account.parked, queue.state.Valid

structure Pending.Sound (pending : Pending) : Prop where
  active : pending.active.state.Valid
  parked : ∀ queue ∈ pending.parked, queue.state.Valid

structure Undo.Sound (undo : Undo) : Prop where
  target : ∀ queue ∈ undo.target, queue.state.Valid
  active : ∀ queue ∈ undo.active, queue.state.Valid

def Disk.Sound (disk : Disk) : Prop := ∀ row ∈ disk.rows, ∀ queue ∈ row.queue, queue.state.Valid

/-! ### Memory -/

namespace Account.Sound

variable {account : Account}

theorem committed (h : account.Sound) (saved : Saved) : (account.committed saved).Sound :=
  ⟨h.active, fun queue hq => h.parked queue (List.mem_filter.mp hq).1⟩

theorem take (h : account.Sound) : account.take.1.Sound ∧ account.take.2.Sound :=
  ⟨⟨h.active, h.parked⟩, ⟨h.active, h.parked⟩⟩

theorem unpark (h : account.Sound) {queueId : Uuid} {queue : Queue} {rest : Account}
    (hunpark : account.unpark queueId = some (queue, rest)) : queue.state.Valid ∧ rest.Sound := by
  obtain ⟨-, hperm, hactive⟩ := unpark_some hunpark
  refine ⟨h.parked queue (hperm.mem_iff.mpr List.mem_cons_self), ?_, fun other ho =>
    h.parked other (hperm.mem_iff.mpr (List.mem_cons_of_mem _ ho))⟩
  have hstate : rest.state = account.state := congrArg Queue.state hactive
  rw [hstate]
  exact h.active

theorem putBack {before after : Option Account} {undo : Undo} (h : ∀ a ∈ before, a.Sound)
    (hundo : undo.Sound) (hafter : Queues.putBack before undo = after) : ∀ a ∈ after, a.Sound := by
  subst hafter
  intro a ha
  cases hactive : undo.active with
  | none =>
    rw [putBack_none before hactive] at ha
    cases ha
  | some active =>
    cases before with
    | none =>
      rw [Queues.putBack, hactive] at ha
      cases ha
    | some account =>
      obtain ⟨after, he, hnow, hparked⟩ := putBack_some account hactive
      rw [he] at ha
      cases ha
      constructor
      · have hstate : a.state = active.state := congrArg Queue.state hnow
        rw [hstate]
        exact hundo.active active hactive
      · intro queue hq
        rw [hparked] at hq
        obtain hq | hq := List.mem_append.mp hq
        · exact (h account rfl).parked queue (List.mem_filter.mp hq).1
        · exact hundo.target queue (Option.mem_toList.mp hq)

theorem pushBack {before : Option Account} (h : ∀ a ∈ before, a.Sound) {queue : Queue}
    (hqueue : queue.state.Valid) : ∀ a ∈ Queues.pushBack before queue, a.Sound := by
  intro a ha
  obtain ⟨account, haccount, rfl⟩ := Option.map_eq_some_iff.mp ha
  refine ⟨(h account haccount).active, fun other ho => ?_⟩
  obtain ho | ho := List.mem_append.mp ho
  · exact (h account haccount).parked other ho
  · rw [List.mem_singleton.mp ho]
    exact hqueue

theorem marked {before : Option Account} (h : ∀ a ∈ before, a.Sound) :
    ∀ a ∈ Sys.marked before, a.Sound := by
  intro a ha
  obtain ⟨account, haccount, rfl⟩ := Option.map_eq_some_iff.mp ha
  exact ⟨(h account haccount).active, (h account haccount).parked⟩

theorem startIn {disk : Disk} {before : Option Account} {new : NewQueue} {started after : Account}
    {place : Option Position} (h : ∀ a ∈ before, a.Sound) (hfresh : fresh new = .ok started)
    (hstart : Queues.startIn disk before started place = .ok after) : after.Sound := by
  obtain ⟨-, hnone, hvalid⟩ := fresh_ok hfresh
  obtain ⟨-, rfl⟩ | ⟨a, ha, -, -, hstate, hparked⟩ := startIn_ok hstart
  · refine ⟨hvalid, fun queue hq => ?_⟩
    rw [hnone] at hq
    cases hq
  · constructor
    · have hkeeps : QueueState.Keeps started.state
          { started.state with repeatMode := a.state.repeatMode } :=
        hvalid.of_eq rfl rfl rfl rfl rfl rfl rfl rfl rfl
      rw [hstate]
      exact hkeeps.valid
    · intro queue hq
      rw [hparked] at hq
      obtain hq | hq := List.mem_append.mp hq
      · exact (h a ha).parked queue hq
      · rw [List.mem_singleton.mp hq, (placed_same _ place).2.2.2]
        exact (h a ha).active

theorem restoreTake {before : Option Account} {queueId : Uuid} {stored : Option Queue}
    {place : Option Position} {restored : Restored} {after : Account}
    (h : ∀ a ∈ before, a.Sound) (hstored : ∀ queue ∈ stored, queue.state.Valid)
    (htake : Queues.restoreTake before queueId stored place = .ok (restored, after)) :
    after.Sound ∧ restored.undo.Sound ∧ restored.pending.Sound := by
  obtain ⟨target, base, hbase, hactive, hundo, hparked, hsaved, hpending⟩ := restoreTake_ok htake
  have htarget : target.state.Valid ∧ (∀ a ∈ base, a.Sound) ∧
      ∀ queue ∈ restored.undo.target, queue.state.Valid := by
    obtain ⟨rfl, rfl, hnone⟩ | ⟨a, rest, -, ha, hunpark, rfl, hsome⟩ := hbase
    · refine ⟨hstored target rfl, h, fun queue hq => ?_⟩
      rw [hnone] at hq
      cases hq
    · obtain ⟨hvalid, hrest⟩ := (h a ha).unpark hunpark
      refine ⟨hvalid, fun other ho => ?_, fun queue hq => ?_⟩
      · cases ho
        exact hrest
      · rw [hsome] at hq
        cases hq
        exact hvalid
  obtain ⟨hvalid, hsound, hundone⟩ := htarget
  have hstate : after.state = target.state := congrArg Queue.state hactive
  have hafter : ∀ queue ∈ after.parked, queue.state.Valid := by
    intro queue hq
    rw [hparked] at hq
    cases base with
    | none => cases hq
    | some a =>
      obtain hq | hq := List.mem_append.mp hq
      · exact (hsound a rfl).parked queue hq
      · rw [List.mem_singleton.mp hq, (placed_same _ place).2.2.2]
        exact (hsound a rfl).active
  refine ⟨⟨hstate ▸ hvalid, hafter⟩, ⟨hundone, fun queue hq => ?_⟩, ⟨hsaved ▸ hvalid, ?_⟩⟩
  · rw [hundo, Option.mem_map] at hq
    obtain ⟨a, ha, rfl⟩ := hq
    exact (hsound a ha).active
  · rw [hpending]
    exact hafter

theorem deleteTake {before after : Option Account} {queueId : Uuid} {removed : Option Queue}
    (h : ∀ a ∈ before, a.Sound) (htake : Queues.deleteTake before queueId = .ok (after, removed)) :
    (∀ a ∈ after, a.Sound) ∧ ∀ queue ∈ removed, queue.state.Valid := by
  obtain ⟨rfl, rfl, -⟩ | ⟨a, rest, queue, ha, -, hunpark, rfl, rfl⟩ := deleteTake_ok htake
  · exact ⟨h, fun _ hq => by cases hq⟩
  · obtain ⟨hvalid, hrest⟩ := (h a ha).unpark hunpark
    refine ⟨fun other ho => ?_, fun other ho => ?_⟩
    · cases ho
      exact ⟨hrest.active, hrest.parked⟩
    · cases ho
      exact hvalid

theorem apply {before : Option Account} (h : ∀ a ∈ before, a.Sound) (queueId editId : Uuid)
    (edit : Edit) (added : Option Added) :
    ∀ a ∈ (Queues.apply before queueId editId edit added).2.1, a.Sound := by
  have hvalid : ∀ a ∈ before, a.state.Valid := fun a ha => (h a ha).active
  obtain ⟨-, he⟩ | ⟨a, ha, ⟨-, he⟩ | ⟨-, done, -, he⟩ | ⟨-, -, error, -, he⟩ |
    ⟨-, -, -, he⟩⟩ := apply_cases hvalid queueId editId edit added
  · rw [he]
    exact h
  · rw [he]
    exact h
  · rw [he]
    exact h
  · rw [he]
    exact h
  · rw [he]
    intro other ho
    cases ho
    exact ⟨((h a ha).active.keeps_edited edit).valid, (h a ha).parked⟩

end Account.Sound

/-! ### The database -/

namespace Disk.Sound

variable {disk : Disk}

theorem find (h : disk.Sound) {id : Uuid} {row : Stored} (hfind : disk.find id = some row) :
    ∀ queue ∈ row.queue, queue.state.Valid :=
  h row (List.mem_of_find?_eq_some hfind)

theorem readKept (h : disk.Sound) {id : Uuid} {queue : Queue} (hkept : disk.readKept id = some queue) :
    queue.state.Valid := by
  rw [Disk.readKept, Option.bind_eq_some_iff] at hkept
  obtain ⟨row, hrow, hqueue⟩ := hkept
  exact h.find (Option.filter_eq_some_iff.mp hrow).1 queue hqueue

theorem put (h : disk.Sound) {row : Stored} (hrow : ∀ queue ∈ row.queue, queue.state.Valid) :
    (disk.put row).Sound := by
  intro other ho
  obtain ho | ho := List.mem_append.mp ho
  · exact h other (List.mem_filter.mp ho).1
  · rw [List.mem_singleton.mp ho]
    exact hrow

theorem delete (h : disk.Sound) (id : Uuid) : (disk.delete id).Sound :=
  fun row hr => h row (List.mem_filter.mp hr).1

theorem park (h : disk.Sound) (now : Int) {queue : Queue} (hqueue : queue.state.Valid) :
    (disk.park now queue).Sound := by
  unfold Disk.park
  split
  · refine h.put fun other ho => ?_
    cases ho
    exact hqueue
  · exact h.delete queue.queueId

theorem writeQueue (h : disk.Sound) (now : Int) {queue : Queue} (hqueue : queue.state.Valid) :
    (disk.writeQueue now queue).Sound := by
  refine put (fun row hr => ?_) fun other ho => ?_
  · obtain ⟨before, hb, rfl⟩ := List.mem_map.mp hr
    intro other ho
    split at ho
    · obtain ⟨content, hcontent, rfl⟩ := Option.map_eq_some_iff.mp ho
      exact h before hb _ (Option.map_eq_some_iff.mpr ⟨content, hcontent, rfl⟩)
    · exact h before hb other ho
  · cases ho
    exact hqueue

theorem writeStatements (h : disk.Sound) {pending : Pending} (hpending : pending.Sound) (now : Int) :
    (disk.writeStatements pending now).Sound := by
  have hparked : ∀ parked : List Queue, (∀ queue ∈ parked, queue.state.Valid) →
      (parked.foldl (fun disk queue => disk.park now queue) disk).Sound := by
    intro parked hvalid
    induction parked using List.reverseRecOn with
    | nil => exact h
    | append_singleton parked last ih =>
      rw [List.foldl_append, List.foldl_cons, List.foldl_nil]
      exact (ih fun queue hq => hvalid queue (List.mem_append_left _ hq)).park now
        (hvalid last (by simp))
  have hlists : ∀ (disk : Disk) (lists : List (String × Held)),
      disk.Sound → (lists.foldl insertList disk).Sound := by
    intro disk lists hdisk
    induction lists generalizing disk with
    | nil => exact hdisk
    | cons list lists ih =>
      refine ih _ ?_
      unfold insertList
      split
      · exact hdisk
      · exact hdisk
  exact (hlists _ pending.lists (hparked pending.parked hpending.parked)).writeQueue now
    hpending.active

theorem load (h : disk.Sound) : ∀ a ∈ Sys.load disk, a.Sound := by
  intro a ha
  rw [Sys.load, Option.mem_map] at ha
  obtain ⟨queue, hqueue, rfl⟩ := ha
  obtain ⟨row, hrow, hread⟩ := Option.bind_eq_some_iff.mp hqueue
  exact ⟨h row (List.mem_of_find?_eq_some hrow) queue hread, fun _ ho => by cases ho⟩

end Disk.Sound

/-! ### The system -/

namespace Sys

/-- Every queue in memory, in the database and in what is under way is valid. -/
structure Sound (s : Sys) : Prop where
  account : ∀ a ∈ s.account, a.Sound
  disk : s.disk.Sound
  restoring : ∀ undo ∈ s.restoring, undo.Sound
  deleting : ∀ queue ∈ s.deleting, queue.state.Valid
  pending : ∀ task ∈ s.task, ∀ pending ∈ task.pending, pending.Sound
  looked : ∀ request queue, s.job = some (.looked request (some queue)) → queue.state.Valid
  written : ∀ task disk, s.job = some (.written task disk) → disk.Sound

variable {s : Sys}

theorem mem_restoring {undo : Undo} : undo ∈ s.restoring ↔
    (∃ task ∈ s.task, task.undo = some undo) ∨ ∃ follow ∈ s.follow, follow.undo = some undo := by
  simp [restoring, Option.bind_eq_some_iff]

theorem mem_deleting {queue : Queue} : queue ∈ s.deleting ↔
    (∃ task ∈ s.task, task.removed = some queue) ∨
      ∃ follow ∈ s.follow, follow.removed = some queue := by
  simp [deleting, Option.bind_eq_some_iff]

namespace Sound

/-- Nothing but memory changes. -/
theorem memory (h : s.Sound) {account : Option Account} (haccount : ∀ a ∈ account, a.Sound)
    (changes : List Change) (failures : List Failure) :
    Sound { s with account, changes, failures } :=
  ⟨haccount, h.disk, h.restoring, h.deleting, h.pending, h.looked, h.written⟩

/-- A job ends, with something left to do. -/
theorem ended (h : s.Sound) {account : Option Account} (haccount : ∀ a ∈ account, a.Sound)
    {disk : Disk} (hdisk : disk.Sound) {follow : List Follow}
    (hfollow : ∀ left ∈ follow, left ∈ s.follow ∨
      (∀ undo, left.undo = some undo → undo ∈ s.restoring) ∧
        ∀ queue, left.removed = some queue → queue ∈ s.deleting)
    (changes : List Change) (failures : List Failure) :
    Sound ⟨account, disk, none, follow, changes, failures⟩ := by
  refine ⟨haccount, hdisk, fun undo hu => ?_, fun queue hq => ?_, ?_, ?_, ?_⟩
  · obtain ⟨task, ht, -⟩ | ⟨left, hl, hundo⟩ := mem_restoring.1 hu
    · cases ht
    · obtain hl | ⟨hl, -⟩ := hfollow left hl
      · exact h.restoring undo (mem_restoring.2 (Or.inr ⟨left, hl, hundo⟩))
      · exact h.restoring undo (hl undo hundo)
  · obtain ⟨task, ht, -⟩ | ⟨left, hl, hremoved⟩ := mem_deleting.1 hq
    · cases ht
    · obtain hl | ⟨-, hl⟩ := hfollow left hl
      · exact h.deleting queue (mem_deleting.2 (Or.inr ⟨left, hl, hremoved⟩))
      · exact h.deleting queue (hl queue hremoved)
  · intro task ht
    cases ht
  · intro request queue hj
    cases hj
  · intro task disk hj
    cases hj

/-- A job takes what it needs, while nothing else runs. -/
theorem started (h : s.Sound) {account : Option Account} (haccount : ∀ a ∈ account, a.Sound)
    {task : Task} (hundo : ∀ undo, task.undo = some undo → undo.Sound)
    (hremoved : ∀ queue, task.removed = some queue → queue.state.Valid)
    (hpending : ∀ pending, task.pending = some pending → pending.Sound) :
    Sound { s with account, job := some (.taken task) } := by
  refine ⟨haccount, h.disk, fun undo hu => ?_, fun queue hq => ?_, ?_, ?_, ?_⟩
  · obtain ⟨task', ht, hu⟩ | hleft := mem_restoring.1 hu
    · cases ht
      exact hundo undo hu
    · exact h.restoring undo (mem_restoring.2 (Or.inr hleft))
  · obtain ⟨task', ht, hq⟩ | hleft := mem_deleting.1 hq
    · cases ht
      exact hremoved queue hq
    · exact h.deleting queue (mem_deleting.2 (Or.inr hleft))
  · intro task' ht
    cases ht
    exact hpending
  · intro request queue hj
    cases hj
  · intro task disk hj
    cases hj

/-- Something left to do is done. -/
theorem settled (h : s.Sound) {account : Option Account} (haccount : ∀ a ∈ account, a.Sound)
    {follow : List Follow} (hfollow : ∀ left ∈ follow, left ∈ s.follow) (changes : List Change)
    (failures : List Failure) : Sound { s with account, follow, changes, failures } := by
  refine ⟨haccount, h.disk, fun undo hu => ?_, fun queue hq => ?_, h.pending, h.looked, h.written⟩
  · refine h.restoring undo (mem_restoring.2 ((mem_restoring.1 hu).imp_right ?_))
    exact fun ⟨left, hl, hundo⟩ => ⟨left, hfollow left hl, hundo⟩
  · refine h.deleting queue (mem_deleting.2 ((mem_deleting.1 hq).imp_right ?_))
    exact fun ⟨left, hl, hremoved⟩ => ⟨left, hfollow left hl, hremoved⟩

theorem abandon (h : s.Sound) {task : Task} (htask : s.task = some task) (error : KeepError) :
    (s.abandon task error).Sound := by
  have hkeep : ∀ left ∈ s.follow, left ∈ s.follow ∨
      (∀ undo, left.undo = some undo → undo ∈ s.restoring) ∧
        ∀ queue, left.removed = some queue → queue ∈ s.deleting := fun _ hl => Or.inl hl
  cases task with
  | restore request restored place =>
    have hundo : restored.undo.Sound :=
      h.restoring _ (mem_restoring.2 (Or.inl ⟨_, htask, rfl⟩))
    exact h.ended (Account.Sound.putBack h.account hundo rfl) h.disk hkeep s.changes _
  | delete request removed =>
    cases removed with
    | none => exact h.ended h.account h.disk hkeep s.changes _
    | some queue =>
      have hqueue := h.deleting queue (mem_deleting.2 (Or.inl ⟨_, htask, rfl⟩))
      exact h.ended (Account.Sound.marked (Account.Sound.pushBack h.account hqueue)) h.disk hkeep
        s.changes _
  | save pending => exact h.ended (Account.Sound.marked h.account) h.disk hkeep s.changes s.failures

theorem rollBack (h : s.Sound) {task : Task} (htask : s.task = some task) :
    (s.rollBack task).Sound := by
  cases task with
  | restore request restored place =>
    refine h.ended h.account h.disk (fun left hl => ?_) s.changes s.failures
    refine (List.mem_append.mp hl).imp_right fun hl => ?_
    rw [List.mem_singleton.mp hl]
    refine ⟨fun undo hu => ?_, fun queue hq => by (cases hq)⟩
    exact mem_restoring.2 (Or.inl ⟨_, htask, hu⟩)
  | delete request removed =>
    cases removed with
    | none => exact h.ended h.account h.disk (fun _ hl => Or.inl hl) s.changes _
    | some queue =>
      refine h.ended h.account h.disk (fun left hl => ?_) s.changes s.failures
      refine (List.mem_append.mp hl).imp_right fun hl => ?_
      rw [List.mem_singleton.mp hl]
      refine ⟨fun undo hu => by (cases hu), fun queue hq => ?_⟩
      exact mem_deleting.2 (Or.inl ⟨_, htask, hq⟩)
  | save pending =>
    refine h.ended h.account h.disk (fun left hl => ?_) s.changes s.failures
    refine (List.mem_append.mp hl).imp_right fun hl => ?_
    rw [List.mem_singleton.mp hl]
    exact ⟨fun undo hu => by (cases hu), fun queue hq => by (cases hq)⟩

theorem finish (h : s.Sound) (task : Task) {disk : Disk} (hdisk : disk.Sound) :
    (s.finish task disk).Sound := by
  have hleft : ∀ saved, ∀ left ∈ s.follow ++ [.committed saved], left ∈ s.follow ∨
      (∀ undo, left.undo = some undo → undo ∈ s.restoring) ∧
        ∀ queue, left.removed = some queue → queue ∈ s.deleting := by
    intro saved left hl
    refine (List.mem_append.mp hl).imp_right fun hl => ?_
    rw [List.mem_singleton.mp hl]
    exact ⟨fun undo hu => by (cases hu), fun queue hq => by (cases hq)⟩
  cases task with
  | restore request restored place => exact h.ended h.account hdisk (hleft _) _ s.failures
  | delete request removed => exact h.ended h.account hdisk (fun _ hl => Or.inl hl) _ s.failures
  | save pending => exact h.ended h.account hdisk (hleft _) s.changes s.failures

theorem settle (h : s.Sound) {follow : Follow} {rest : List Follow}
    (hrest : ∀ left ∈ rest, left ∈ s.follow) (hfollow : follow ∈ s.follow) :
    Sound ({ s with follow := rest }.settle follow) := by
  cases follow with
  | committed saved =>
    refine h.settled (fun a ha => ?_) hrest _ s.failures
    obtain ⟨account, haccount, rfl⟩ := Option.map_eq_some_iff.mp ha
    exact (h.account account haccount).committed saved
  | putBack request undo =>
    have hundo : undo.Sound := h.restoring undo (mem_restoring.2 (Or.inr ⟨_, hfollow, rfl⟩))
    exact h.settled (Account.Sound.putBack h.account hundo rfl) hrest s.changes _
  | pushBack request queue =>
    have hqueue := h.deleting queue (mem_deleting.2 (Or.inr ⟨_, hfollow, rfl⟩))
    exact h.settled (Account.Sound.pushBack h.account hqueue) hrest s.changes _
  | markChanged => exact h.settled (Account.Sound.marked h.account) hrest s.changes s.failures

theorem write (h : s.Sound) {task : Task} {disk : Disk} {now : Int} (htask : s.task = some task)
    (hwrite : task.write s.disk now = .ok disk) : disk.Sound := by
  cases task with
  | restore request restored place =>
    cases hwrite
    exact h.disk.writeStatements (h.pending _ htask _ rfl) now
  | delete request removed =>
    rw [Task.write, deleteStatements] at hwrite
    split_ifs at hwrite
    cases hwrite
    exact h.disk.delete request.queueId
  | save pending =>
    cases hwrite
    exact h.disk.writeStatements (h.pending _ htask _ rfl) now

theorem new : Sys.new.Sound := by
  refine ⟨fun a ha => ?_, fun row hr => ?_, fun u hu => ?_, fun q hq => ?_, fun t ht => ?_,
    fun r q hj => ?_, fun t d hj => ?_⟩
  · cases ha
  · cases hr
  · cases hu
  · cases hq
  · cases ht
  · cases hj
  · cases hj

/-- **Every step keeps every queue valid.** -/
theorem step (h : s.Sound) (event : Event) : (s.step event).Sound := by
  cases event with
  | edit queueId editId edit added =>
    exact h.memory (Account.Sound.apply h.account queueId editId edit added) _ s.failures
  | start new place =>
    rw [Sys.step]
    split
    · rename_i account hjob hstart
      refine h.memory (fun a ha => ?_) _ s.failures
      cases ha
      cases hfresh : fresh new with
      | error error =>
        rw [hfresh] at hstart
        cases hstart
      | ok started =>
        rw [hfresh] at hstart
        exact Account.Sound.startIn h.account hfresh hstart
    · exact h
  | look queueId =>
    rw [Sys.step]
    cases hjob : s.job with
    | some job => exact h
    | none =>
      cases hlook : Queues.look s.disk s.account queueId with
      | error error => exact h.memory h.account s.changes _
      | ok stored =>
        obtain ⟨-, hkept⟩ := look_ok hlook
        refine ⟨h.account, h.disk, fun undo hu => ?_, fun queue hq => ?_, ?_, ?_, ?_⟩
        · obtain ⟨task, ht, -⟩ | hleft := mem_restoring.1 hu
          · cases ht
          · exact h.restoring undo (mem_restoring.2 (Or.inr hleft))
        · obtain ⟨task, ht, -⟩ | hleft := mem_deleting.1 hq
          · cases ht
          · exact h.deleting queue (mem_deleting.2 (Or.inr hleft))
        · intro task ht
          cases ht
        · intro request queue hj
          cases hj
          exact h.disk.readKept (hkept queue rfl).1
        · intro task disk hj
          cases hj
  | take place =>
    rw [Sys.step]
    split
    · rename_i request stored hjob
      have hstored : ∀ queue ∈ stored, queue.state.Valid := by
        intro queue hq
        rw [Option.mem_def] at hq
        exact h.looked request queue (hq ▸ hjob)
      cases htake : restoreTake s.account request.queueId stored place with
      | error error => exact h.ended h.account h.disk (fun _ hl => Or.inl hl) s.changes _
      | ok found =>
        obtain ⟨restored, account⟩ := found
        obtain ⟨haccount, hundo, hpending⟩ := Account.Sound.restoreTake h.account hstored htake
        refine h.started (fun a ha => ?_) (fun undo hu => ?_) (fun queue hq => ?_) fun p hp => ?_
        · cases ha
          exact haccount
        · cases hu
          exact hundo
        · cases hq
        · cases hp
          exact hpending
    · exact h
  | delete queueId =>
    rw [Sys.step]
    cases hjob : s.job with
    | some job => exact h
    | none =>
      cases htake : deleteTake s.account queueId with
      | error error => exact h.memory h.account s.changes _
      | ok found =>
        obtain ⟨account, removed⟩ := found
        obtain ⟨haccount, hremoved⟩ := Account.Sound.deleteTake h.account htake
        refine h.started haccount (fun undo hu => ?_) (fun queue hq => ?_) fun p hp => ?_
        · cases hu
        · exact hremoved queue hq
        · cases hp
  | save =>
    rw [Sys.step]
    split
    · rename_i account hjob hchanged
      have haccount := h.account account (Option.filter_eq_some_iff.mp hchanged).1
      refine h.started (fun a ha => ?_) (fun undo hu => ?_) (fun queue hq => ?_) fun p hp => ?_
      · cases ha
        exact haccount.take.2
      · cases hu
      · cases hq
      · cases hp
        exact haccount.take.1
    · exact h
  | write ok now =>
    rw [Sys.step]
    split
    · rename_i task hjob
      have htask : s.task = some task := by
        rw [Sys.task, hjob]
        rfl
      cases ok with
      | false => exact h.abandon htask .db
      | true =>
        cases hwrite : task.write s.disk now with
        | error error =>
          simp only [if_true]
          exact h.abandon htask error
        | ok disk =>
          have hstarted := h.started h.account
            (fun undo hu => h.restoring undo (mem_restoring.2 (Or.inl ⟨task, htask, hu⟩)))
            (fun queue hq => h.deleting queue (mem_deleting.2 (Or.inl ⟨task, htask, hq⟩)))
            (h.pending task htask)
          refine ⟨h.account, h.disk, hstarted.restoring, hstarted.deleting, hstarted.pending, ?_, ?_⟩
          · intro request queue hj
            cases hj
          · intro task' disk' hj
            cases hj
            exact h.write htask hwrite
    · exact h
  | commit ok =>
    rw [Sys.step]
    split
    · rename_i task disk hjob
      have htask : s.task = some task := by
        rw [Sys.task, hjob]
        rfl
      cases ok with
      | false => exact h.rollBack htask
      | true => exact h.finish task (h.written task disk hjob)
    · exact h
  | settle i =>
    rw [Sys.step]
    split
    · rename_i follow hfollow
      exact h.settle (fun left hl => List.mem_of_mem_eraseIdx hl) (List.mem_of_getElem? hfollow)
    · exact h
  | restart =>
    exact h.ended h.disk.load h.disk (fun _ hl => by cases hl) s.changes s.failures

end Sound

end Sys

end JewelCase.Queues
