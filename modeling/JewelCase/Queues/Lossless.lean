import JewelCase.Queues.Coherent
import JewelCase.Queues.Sound

/-!
# What a failed restore or delete leaves

What requests have made of an account's queues since a restore or delete began is its ledger. While
a run is calm every step keeps memory and the database to the ledger of every request under way, so
that one which answers an error has lost nothing.
-/
namespace JewelCase.Queues

open JewelCase.Queue (Edit)
open JewelCase.Queue.QueueState (edited)
open Account (placed)
open Library.Lists (filterMap_eraseIdx perm_filterMap_eraseIdx)

set_option autoImplicit false

namespace Failure

/-- The queues of the account, as what succeeded since the job began has made them. -/
def ledger (f : Failure) : Ledger := f.changes.foldl Ledger.step f.request.before

def parked (f : Failure) : List Queue := f.account.elim [] (·.parked)

def active (f : Failure) : Option Queue := f.account.map Account.active

/-- No edit was made to the request's own queue, which is as it was when its job began. -/
def Unedited (f : Failure) : Prop := ∀ change ∈ f.changes, change.edits ≠ some f.request.queueId

/-- A failure that has lost nothing. -/
structure Lossless (f : Failure) : Prop where
  /-- The active queue is the one it was, edited as it has been, or the last one begun since. -/
  active : f.restoring = [] → f.active = f.ledger.active
  /-- While another restore is under way, that is the queue it has replaced. -/
  replaced : ∀ undo ∈ f.restoring, undo.active = f.ledger.active
  /-- Every other queue is parked, or taken by another request under way, or stored as kept as it
  is, or was not adjusted and a save has let go of it. -/
  rest : ∀ queue ∈ f.ledger.rest, queue ∈ f.parked ∨ queue ∈ f.deleting ∨
    (∃ undo ∈ f.restoring, undo.target = some queue) ∨
    if queue.state.adjusted then f.disk.readKept queue.queueId = some queue
    else .saved queue.queueId ∈ f.changes
  /-- No queue is in memory twice, and none is parked that was not the account's. -/
  once : (ids (f.active.toList ++ f.parked)).Nodup
  only : ∀ queue ∈ f.parked, queue ∈ f.ledger.rest ∨
    ∃ undo ∈ f.restoring, ∃ old ∈ undo.active, old.queueId = queue.queueId
  /-- A queue that was not in memory is stored as it was. -/
  kept : f.request.queueId ∉ f.request.before.ids →
    f.disk.readKept f.request.queueId = f.request.kept
  /-- No edit has gone with what was put back. -/
  unedited : f.Unedited

end Failure

/-- The queue a restore has parked. -/
def Task.old : Task → Option Queue
  | .restore _ restored place => restored.undo.active.map (placed · place)
  | _ => none

namespace Ledger

variable {ledger : Ledger}

theorem ids_eq (ledger : Ledger) :
    ledger.ids = Queues.ids ledger.active.toList ++ Queues.ids ledger.rest := ids_append _ _

theorem nodup_rest (h : ledger.ids.Nodup) : (Queues.ids ledger.rest).Nodup := by
  rw [ids_eq, List.nodup_append] at h
  exact h.2.1

/-- Queues of one ledger with one ID are one. -/
theorem eq_of_id (h : ledger.ids.Nodup) {a b : Queue} (ha : a ∈ ledger.rest) (hb : b ∈ ledger.rest)
    (hid : a.queueId = b.queueId) : a = b :=
  List.inj_on_of_nodup_map (nodup_rest h) ha hb hid

theorem active_ne (h : ledger.ids.Nodup) {old queue : Queue} (ho : ledger.active = some old)
    (hq : queue ∈ ledger.rest) : queue.queueId ≠ old.queueId := by
  rw [ids_eq, List.nodup_append] at h
  intro heq
  refine h.2.2 old.queueId ?_ queue.queueId (mem_ids_of_mem hq) heq.symm
  rw [ho]
  exact List.mem_singleton_self _

/-- One queue begun, of a ledger that has no other of its ID. -/
theorem nodup_begun (h : ledger.ids.Nodup) (queue : Queue) (place : Option Position)
    (hne : ∀ old ∈ ledger.active, old.queueId ≠ queue.queueId) :
    (ledger.step (.begun queue place)).ids.Nodup := by
  rw [ids_eq] at h ⊢
  have hrest := (List.nodup_append.mp h).2.1
  change (queue.queueId :: Queues.ids (ledger.rest.filter (·.queueId ≠ queue.queueId) ++
    (ledger.active.map (placed · place)).toList)).Nodup
  have hfilter : ∀ id ∈ Queues.ids (ledger.rest.filter (·.queueId ≠ queue.queueId)),
      id ∈ Queues.ids ledger.rest ∧ id ≠ queue.queueId := by
    intro id hin
    obtain ⟨other, ho, rfl⟩ := mem_ids.1 hin
    obtain ⟨ho, hne⟩ := List.mem_filter.mp ho
    exact ⟨mem_ids_of_mem ho, by simpa using hne⟩
  have hold : ∀ id ∈ Queues.ids (ledger.active.map (placed · place)).toList,
      id ∈ Queues.ids ledger.active.toList ∧ id ≠ queue.queueId := by
    intro id hin
    obtain ⟨other, ho, rfl⟩ := mem_ids.1 hin
    obtain ⟨old, hold, rfl⟩ := Option.map_eq_some_iff.mp (Option.mem_toList.mp ho)
    rw [(Account.placed_same old place).1]
    exact ⟨mem_ids_of_mem (Option.mem_toList.mpr hold), hne old hold⟩
  rw [List.nodup_cons, ids_append]
  constructor
  · intro hin
    obtain hin | hin := List.mem_append.mp hin
    · exact (hfilter _ hin).2 rfl
    · exact (hold _ hin).2 rfl
  · rw [List.nodup_append]
    refine ⟨hrest.sublist (ids_sublist List.filter_sublist), ?_, fun id hid other ho heq => ?_⟩
    · cases ledger.active with
      | none => exact List.nodup_nil
      | some old => exact List.nodup_singleton _
    · exact (List.nodup_append.mp h).2.2 other (hold other ho).1 id (hfilter id hid).1 heq.symm

end Ledger

namespace Sys

variable {s s' : Sys} {r : Request}

/-- What requests have made of the account since one began. -/
def ledger (s : Sys) (r : Request) : Ledger := (s.changes.drop r.since).foldl Ledger.step r.before

/-- A queue that a save has let go of is stored as it is, or was not adjusted. -/
def Released (s : Sys) (r : Request) (queue : Queue) : Prop :=
  if queue.state.adjusted then s.disk.readKept queue.queueId = some queue
  else .saved queue.queueId ∈ s.changes.drop r.since

/-- Memory and the database keep to the ledger of a request. -/
structure Keeps (s : Sys) (r : Request) : Prop where
  since : r.since ≤ s.changes.length
  distinct : (s.ledger r).ids.Nodup
  active : s.restoring = [] → s.account.map Account.active = (s.ledger r).active
  restoring : ∀ undo ∈ s.restoring, undo.active = (s.ledger r).active ∧
    ∀ target ∈ undo.target, target ∈ (s.ledger r).rest
  rest : ∀ queue ∈ (s.ledger r).rest, queue ∈ s.parked ∨ queue ∈ s.deleting ∨
    (∃ undo ∈ s.restoring, undo.target = some queue) ∨ s.Released r queue
  only : ∀ queue ∈ s.parked, queue ∈ (s.ledger r).rest ∨
    ∃ undo ∈ s.restoring, ∃ old ∈ undo.active, old.queueId = queue.queueId
  deleting : ∀ queue ∈ s.deleting, queue ∈ (s.ledger r).rest
  pending : ∀ task ∈ s.task, ∀ pending ∈ task.pending, ∀ queue ∈ pending.parked,
    queue ∈ (s.ledger r).rest ∨ task.old = some queue
  old : ∀ task ∈ s.task, ∀ queue, task.old = some queue → queue ∈ s.parked ∨ s.Released r queue

theorem ledger_append (h : r.since ≤ s.changes.length) (changes : List Change)
    (hchanges : s'.changes = s.changes ++ changes) :
    s'.ledger r = changes.foldl Ledger.step (s.ledger r) := by
  rw [ledger, hchanges, List.drop_append_of_le_length h, List.foldl_append, ledger]

theorem Released.mono {queue : Queue} (h : s.Released r queue) (hsince : r.since ≤ s.changes.length)
    {changes : List Change} (hchanges : s'.changes = s.changes ++ changes)
    (hdisk : queue.state.adjusted → s'.disk.readKept queue.queueId = s.disk.readKept queue.queueId) :
    s'.Released r queue := by
  unfold Released at h ⊢
  split
  · rename_i hadjusted
    rw [if_pos hadjusted] at h
    rw [hdisk hadjusted]
    exact h
  · rename_i hadjusted
    rw [if_neg hadjusted] at h
    rw [hchanges, List.drop_append_of_le_length hsince]
    exact List.mem_append_left _ h

namespace Keeps

/-- A request keeps to its ledger as its job begins. -/
theorem opened (hc : s.Coherent) (hjob : s.job = none) (hquiet : s.Quiet) (queueId : Uuid) :
    s.Keeps (s.request queueId) := by
  have hrestoring := hquiet.restoring hjob
  have hledger : s.ledger (s.request queueId) =
      ⟨s.account.map Account.active, s.parked ++ s.deleting⟩ := by
    rw [ledger, request, List.drop_length]
    rfl
  have htask : s.task = none := by
    rw [task, hjob]
    rfl
  refine ⟨Nat.le_refl _, ?_, fun _ => ?_, fun undo hu => ?_, fun queue hq => ?_,
    fun queue hq => ?_, fun queue hq => ?_, fun task ht => ?_, fun task ht => ?_⟩
  · rw [hledger, Ledger.ids_eq, ids_append]
    have hdistinct := hc.distinct
    cases ha : s.account with
    | none =>
      rw [names, ha] at hdistinct
      rw [parked, ha]
      exact hdistinct
    | some a =>
      rw [Coherent.names_some ha] at hdistinct
      rw [parked, ha]
      exact hdistinct
  · rw [hledger]
  · rw [hrestoring] at hu
    cases hu
  · rw [hledger] at hq
    obtain hq | hq := List.mem_append.mp hq
    · exact Or.inl hq
    · exact Or.inr (Or.inl hq)
  · rw [hledger]
    exact Or.inl (List.mem_append_left _ hq)
  · rw [hledger]
    exact List.mem_append_right _ hq
  · rw [htask] at ht
    cases ht
  · rw [htask] at ht
    cases ht

/-- Nothing that the ledger tells of changes. -/
theorem frame (h : s.Keeps r) (hchanges : s'.changes = s.changes)
    (hactive : s'.account.map Account.active = s.account.map Account.active)
    (hparked : s'.parked = s.parked) (hdisk : s'.disk = s.disk)
    (hrestoring : ∀ undo, undo ∈ s'.restoring ↔ undo ∈ s.restoring)
    (hdeleting : ∀ queue, queue ∈ s'.deleting ↔ queue ∈ s.deleting)
    (hpending : ∀ task ∈ s'.task, ∀ pending ∈ task.pending, ∀ queue ∈ pending.parked,
      queue ∈ (s.ledger r).rest ∨ task.old = some queue)
    (hold : ∀ task ∈ s'.task, ∀ queue, task.old = some queue → queue ∈ s.parked ∨ s.Released r queue) :
    s'.Keeps r := by
  have hledger : s'.ledger r = s.ledger r := by rw [ledger, hchanges, ledger]
  have hreleased : ∀ queue, s'.Released r queue ↔ s.Released r queue := by
    intro queue
    rw [Released, Released, hdisk, hchanges]
  refine ⟨?_, ?_, fun hnone => ?_, fun undo hu => ?_, fun queue hq => ?_, fun queue hq => ?_,
    fun queue hq => ?_, fun task ht => ?_, fun task ht queue hq => ?_⟩
  · rw [hchanges]
    exact h.since
  · rw [hledger]
    exact h.distinct
  · rw [hledger, hactive]
    refine h.active ?_
    rw [List.eq_nil_iff_forall_not_mem] at hnone ⊢
    exact fun undo hu => hnone undo ((hrestoring undo).mpr hu)
  · rw [hledger]
    exact h.restoring undo ((hrestoring undo).mp hu)
  · rw [hledger] at hq
    rw [hparked, hdeleting, hreleased]
    refine (h.rest queue hq).imp_right (Or.imp_right (Or.imp_left ?_))
    exact fun ⟨undo, hu, ht⟩ => ⟨undo, (hrestoring undo).mpr hu, ht⟩
  · rw [hledger]
    rw [hparked] at hq
    refine (h.only queue hq).imp_right ?_
    exact fun ⟨undo, hu, ho⟩ => ⟨undo, (hrestoring undo).mpr hu, ho⟩
  · rw [hledger]
    exact h.deleting queue ((hdeleting queue).mp hq)
  · rw [hledger]
    exact hpending task ht
  · rw [hparked, hreleased]
    exact hold task ht queue hq

/-- An edit of the active queue is one of the ledger's, unless a restore has replaced that. -/
theorem edit (h : s.Keeps r) (hc : s.Coherent) (hs : s.Sound) (queueId editId : Uuid) (edit : Edit)
    (added : Option Added) : (s.step (.edit queueId editId edit added)).Keeps r := by
  have hvalid : ∀ a ∈ s.account, a.state.Valid := fun a ha => (hs.account a ha).active
  have hunchanged : ∀ {answer : Except EditError Applied},
      apply s.account queueId editId edit added = (answer, s.account, []) →
        s.step (.edit queueId editId edit added) = s := by
    intro answer he
    simp only [step, he, List.map_nil, List.append_nil]
  obtain ⟨-, he⟩ | ⟨a, ha, ⟨-, he⟩ | ⟨-, done, -, he⟩ | ⟨-, -, error, -, he⟩ |
    ⟨hid, -, -, he⟩⟩ := apply_cases hvalid queueId editId edit added
  · rw [hunchanged he]
    exact h
  · rw [hunchanged he]
    exact h
  · rw [hunchanged he]
    exact h
  · rw [hunchanged he]
    exact h
  rw [Option.mem_def] at ha
  simp only [step, he, List.map_cons, List.map_nil]
  generalize hnow : Sys.mk _ s.disk s.job s.follow
    (s.changes ++ [Change.edited queueId (a.version + 1) edit]) s.failures = now
  have hchanges : now.changes = s.changes ++ [.edited queueId (a.version + 1) edit] := by rw [← hnow]
  have hledger := ledger_append h.since _ hchanges
  rw [List.foldl_cons, List.foldl_nil] at hledger
  have hrest : (now.ledger r).rest = (s.ledger r).rest := by rw [hledger]; rfl
  have hids : (now.ledger r).ids = (s.ledger r).ids := by
    rw [hledger, Ledger.ids_eq, Ledger.ids_eq, Ledger.step]
    cases (s.ledger r).active with
    | none => rfl
    | some queue =>
      simp only [Option.map_some, Option.toList_some]
      split <;> rfl
  have hparked : now.parked = s.parked := by
    rw [← hnow, parked, parked, ha]
    rfl
  have hrestoring : now.restoring = s.restoring := by rw [← hnow]; rfl
  have hdeleting : now.deleting = s.deleting := by rw [← hnow]; rfl
  have htask : now.task = s.task := by rw [← hnow]; rfl
  have hreleased : ∀ queue, s.Released r queue → now.Released r queue := fun queue hq =>
    hq.mono h.since hchanges fun _ => by rw [← hnow]
  refine ⟨?_, ?_, fun hnone => ?_, fun undo hu => ?_, fun queue hq => ?_, fun queue hq => ?_,
    fun queue hq => ?_, fun task ht => ?_, fun task ht queue hq => ?_⟩
  · rw [hchanges, List.length_append]
    exact Nat.le_add_right_of_le h.since
  · rw [hids]
    exact h.distinct
  · rw [hrestoring] at hnone
    have hactive := h.active hnone
    rw [ha] at hactive
    rw [hledger, Ledger.step, ← hactive, ← hnow]
    simp only [Option.map_some, Option.some.injEq]
    rw [if_pos (show a.active.queueId = queueId from hid)]
    rfl
  · rw [hrestoring] at hu
    obtain ⟨hactive, htarget⟩ := h.restoring undo hu
    rw [hrest]
    refine ⟨?_, htarget⟩
    rw [hledger, Ledger.step, ← hactive]
    obtain ⟨b, hb, hunder⟩ := hc.under undo hu
    rw [ha] at hb
    cases hb
    cases hundo : undo.active with
    | none => rfl
    | some old =>
      obtain ⟨hne, -⟩ := hunder.replaced old hundo
      rw [hid] at hne
      simp only [Option.map_some]
      rw [if_neg hne]
  · rw [hrest] at hq
    rw [hparked, hdeleting, hrestoring]
    exact (h.rest queue hq).imp_right (Or.imp_right (Or.imp_right (hreleased queue)))
  · rw [hparked] at hq
    rw [hrest, hrestoring]
    exact h.only queue hq
  · rw [hdeleting] at hq
    rw [hrest]
    exact h.deleting queue hq
  · rw [htask] at ht
    rw [hrest]
    exact h.pending task ht
  · rw [htask] at ht
    rw [hparked]
    exact (h.old task ht queue hq).imp_right (hreleased queue)

/-- A start begins a queue, and parks the one it replaces. -/
theorem start (h : s.Keeps r) (hjob : s.job = none) {new : NewQueue}
    (hcalm : s.Quiet ∧ new.queueId ∉ ids s.deleting) {started a : Account} {place : Option Position}
    (hfresh : fresh new = .ok started) (hstart : startIn s.disk s.account started place = .ok a) :
    Keeps { s with account := some a, changes := s.changes ++ [.begun a.active place] } r := by
  obtain ⟨hid, hnone, -⟩ := fresh_ok hfresh
  obtain ⟨hquiet, hnew⟩ := hcalm
  have hnothing := hquiet.restoring hjob
  have htask : s.task = none := by
    rw [task, hjob]
    rfl
  generalize hnow : ({ s with account := some a, changes := s.changes ++ [.begun a.active place] }
    : Sys) = now
  have hchanges : now.changes = s.changes ++ [.begun a.active place] := by rw [← hnow]
  have hledger := ledger_append h.since _ hchanges
  rw [List.foldl_cons, List.foldl_nil] at hledger
  have hactive := h.active hnothing
  have hrestoring : now.restoring = [] := by rw [← hnow]; exact hnothing
  have hdeleting : now.deleting = s.deleting := by rw [← hnow]; rfl
  have hparked : now.parked = a.parked := by rw [← hnow]; rfl
  have hreleased : ∀ queue, s.Released r queue → now.Released r queue := fun queue hq =>
    hq.mono h.since hchanges fun _ => by rw [← hnow]
  -- The queue begun was not in memory, and the one it replaced is parked after the others.
  have haId : a.queueId = new.queueId := by
    obtain ⟨-, rfl⟩ | ⟨b, -, -, hid', -⟩ := startIn_ok hstart
    · exact hid
    · rw [hid', hid]
  have hfacts : (∀ b ∈ s.account, b.queueId ≠ a.queueId) ∧
      (∀ queue ∈ s.parked, queue.queueId ≠ a.queueId) ∧
      a.parked = s.parked ++ ((s.account.map Account.active).map (placed · place)).toList := by
    obtain ⟨hno, rfl⟩ | ⟨b, hb, hnames, hid', -, hparked'⟩ := startIn_ok hstart
    · refine ⟨fun b hb => ?_, fun queue hq => ?_, ?_⟩
      · rw [hno] at hb
        cases hb
      · rw [parked, hno] at hq
        cases hq
      · rw [parked, hno]
        exact hnone
    · obtain ⟨hne, hother⟩ := Account.names_false hnames
      rw [hid']
      refine ⟨fun b' hb' => ?_, fun queue hq => ?_, ?_⟩
      · rw [hb] at hb'
        cases hb'
        exact hne
      · rw [parked, hb] at hq
        exact hother queue hq
      · rw [parked, hb]
        exact hparked'
  obtain ⟨hother, hapart, hsame⟩ := hfacts
  refine ⟨?_, ?_, fun _ => ?_, fun undo hu => ?_, fun queue hq => ?_, fun queue hq => ?_,
    fun queue hq => ?_, fun task ht => ?_, fun task ht => ?_⟩
  · rw [hchanges, List.length_append]
    exact Nat.le_add_right_of_le h.since
  · rw [hledger]
    refine Ledger.nodup_begun h.distinct _ _ fun old ho => ?_
    rw [← hactive, Option.mem_map] at ho
    obtain ⟨b, hb, rfl⟩ := ho
    exact hother b hb
  · rw [hledger, ← hnow]
    rfl
  · rw [hrestoring] at hu
    cases hu
  · rw [hledger, Ledger.step] at hq
    rw [hparked, hdeleting, hrestoring, hsame, hactive]
    obtain ⟨hq, -⟩ | hq := (List.mem_append.mp hq).imp_left List.mem_filter.mp
    · obtain hp | hd | ⟨undo, hu, -⟩ | hr := h.rest queue hq
      · exact Or.inl (List.mem_append_left _ hp)
      · exact Or.inr (Or.inl hd)
      · rw [hnothing] at hu
        cases hu
      · exact Or.inr (Or.inr (Or.inr (hreleased queue hr)))
    · exact Or.inl (List.mem_append_right _ hq)
  · left
    rw [hparked, hsame, hactive] at hq
    rw [hledger, Ledger.step]
    refine List.mem_append.mpr ((List.mem_append.mp hq).imp_left fun hp => ?_)
    obtain hin | ⟨undo, hu, -⟩ := h.only queue hp
    · exact List.mem_filter.mpr ⟨hin, decide_eq_true (hapart queue hp)⟩
    · rw [hnothing] at hu
      cases hu
  · rw [hdeleting] at hq
    rw [hledger, Ledger.step]
    refine List.mem_append_left _ (List.mem_filter.mpr ⟨h.deleting queue hq, ?_⟩)
    have hne : queue.queueId ≠ a.queueId := fun heq =>
      hnew (haId ▸ heq ▸ mem_ids_of_mem hq)
    exact decide_eq_true hne
  · rw [← hnow] at ht
    change task ∈ s.task at ht
    rw [htask] at ht
    cases ht
  · rw [← hnow] at ht
    change task ∈ s.task at ht
    rw [htask] at ht
    cases ht

/-- A restore takes its queue, from memory or from the database, and replaces the active one. -/
theorem take (h : s.Keeps r) (hc : s.Coherent) {request : Request} {stored : Option Queue}
    (hjob : s.job = some (.looked request stored)) {place : Option Position} {restored : Restored}
    {a : Account}
    (htake : restoreTake s.account request.queueId stored place = .ok (restored, a)) :
    Keeps { s with account := some a, job := some (.taken (.restore request restored place)) } r := by
  have hquiet : s.Quiet := hc.quiet (by rw [hjob]; rfl)
  have htask : s.task = none := by
    rw [task, hjob]
    rfl
  have hnothing : s.restoring = [] := by
    rw [Sys.restoring, htask, show s.follow.filterMap Follow.undo = [] from hquiet]
    rfl
  obtain ⟨target, base, hbase, hactive, hundo, hparked, hsaved, hpending⟩ := restoreTake_ok htake
  generalize hnow : ({ s with
    account := some a, job := some (.taken (.restore request restored place)) } : Sys) = now
  have hledger : now.ledger r = s.ledger r := by rw [← hnow]; rfl
  have hrestoring : now.restoring = [restored.undo] := by
    rw [← hnow, Sys.restoring, show s.follow.filterMap Follow.undo = [] from hquiet]
    rfl
  have hdeleting : now.deleting = s.deleting := by
    rw [← hnow]
    simp only [Sys.deleting, htask]
    rfl
  have hparkedNow : now.parked = a.parked := by rw [← hnow]; rfl
  have hreleased : ∀ queue, s.Released r queue → now.Released r queue := by
    intro queue hq
    rw [← hnow]
    exact hq
  have hwas := h.active hnothing
  have honly : ∀ queue ∈ s.parked, queue ∈ (s.ledger r).rest := by
    intro queue hq
    refine (h.only queue hq).resolve_right ?_
    rintro ⟨undo, hu, -⟩
    rw [hnothing] at hu
    cases hu
  -- The queues parked before are still, but for the target taken from among them.
  have hfacts : base.map Account.active = s.account.map Account.active ∧
      (∀ queue ∈ base.elim [] (·.parked), queue ∈ s.parked) ∧
      (∀ queue ∈ s.parked, queue ∈ base.elim [] (·.parked) ∨ restored.undo.target = some queue) ∧
      ∀ queue ∈ restored.undo.target, queue ∈ s.parked := by
    obtain ⟨-, rfl, hn⟩ | ⟨b, rest, -, hb, hunpark, rfl, ht⟩ := hbase
    · refine ⟨rfl, fun _ hq => hq, fun _ hq => Or.inl hq, fun queue hq => ?_⟩
      rw [hn] at hq
      cases hq
    · obtain ⟨-, hperm, hsame⟩ := Account.unpark_some hunpark
      rw [parked, hb]
      refine ⟨congrArg some hsame, fun queue hq => hperm.mem_iff.mpr (List.mem_cons_of_mem _ hq),
        fun queue hq => ?_, fun queue hq => ?_⟩
      · obtain rfl | hq := List.mem_cons.mp (hperm.mem_iff.mp hq)
        · exact Or.inr ht
        · exact Or.inl hq
      · rw [ht] at hq
        cases hq
        exact hperm.mem_iff.mpr List.mem_cons_self
  obtain ⟨hsame, hsub, hstay, htarget⟩ := hfacts
  have hafter : a.parked = base.elim [] (·.parked) ++
      ((s.ledger r).active.map (placed · place)).toList := by
    rw [hparked, ← hwas, ← hsame]
    cases base with
    | none => rfl
    | some b => rfl
  have hundone : restored.undo.active = (s.ledger r).active := by rw [hundo, hsame, hwas]
  refine ⟨?_, ?_, fun hn => ?_, fun undo hu => ?_, fun queue hq => ?_, fun queue hq => ?_,
    fun queue hq => ?_, fun task ht pending hp queue hq => ?_, fun task ht queue hq => ?_⟩
  · rw [← hnow]
    exact h.since
  · rw [hledger]
    exact h.distinct
  · rw [hrestoring] at hn
    cases hn
  · rw [hrestoring, List.mem_singleton] at hu
    subst hu
    rw [hledger]
    exact ⟨hundone, fun queue hq => honly queue (htarget queue hq)⟩
  · rw [hledger] at hq
    rw [hparkedNow, hafter, hdeleting, hrestoring]
    obtain hp | hd | ⟨undo, hu, -⟩ | hr := h.rest queue hq
    · obtain hp | ht := hstay queue hp
      · exact Or.inl (List.mem_append_left _ hp)
      · exact Or.inr (Or.inr (Or.inl ⟨_, List.mem_singleton_self _, ht⟩))
    · exact Or.inr (Or.inl hd)
    · rw [hnothing] at hu
      cases hu
    · exact Or.inr (Or.inr (Or.inr (hreleased queue hr)))
  · rw [hparkedNow, hafter] at hq
    rw [hledger, hrestoring]
    obtain hq | hq := List.mem_append.mp hq
    · exact Or.inl (honly queue (hsub queue hq))
    · obtain ⟨old, hold, rfl⟩ := Option.map_eq_some_iff.mp (Option.mem_toList.mp hq)
      rw [← hundone] at hold
      exact Or.inr ⟨_, List.mem_singleton_self _, old, hold, (Account.placed_same old place).1.symm⟩
  · rw [hdeleting] at hq
    rw [hledger]
    exact h.deleting queue hq
  · rw [← hnow] at ht
    cases ht
    cases hp
    rw [hpending, hafter] at hq
    rw [hledger]
    obtain hq | hq := List.mem_append.mp hq
    · exact Or.inl (honly queue (hsub queue hq))
    · refine Or.inr ?_
      rw [Task.old, hundone]
      exact Option.mem_toList.mp hq
  · rw [← hnow] at ht
    cases ht
    rw [Task.old, hundone] at hq
    rw [hparkedNow, hafter]
    exact Or.inl (List.mem_append_right _ (Option.mem_toList.mpr hq))

/-- A delete takes a parked queue, or none. -/
theorem takeDelete (h : s.Keeps r) (hjob : s.job = none) (hquiet : s.Quiet) {queueId : Uuid}
    {request : Request} {account : Option Account} {removed : Option Queue}
    (htake : deleteTake s.account queueId = .ok (account, removed)) :
    Keeps { s with account, job := some (.taken (.delete request removed)) } r := by
  have htask : s.task = none := by
    rw [task, hjob]
    rfl
  have hnothing := hquiet.restoring hjob
  generalize hnow : ({ s with account, job := some (.taken (.delete request removed)) } : Sys) = now
  have hledger : now.ledger r = s.ledger r := by rw [← hnow]; rfl
  have hrestoring : now.restoring = [] := by
    rw [← hnow, Sys.restoring, show s.follow.filterMap Follow.undo = [] from hquiet]
    rfl
  have hdeleting : now.deleting = removed.toList ++ s.deleting := by
    rw [← hnow]
    simp only [Sys.deleting, htask]
    rfl
  have hparkedNow : now.parked = account.elim [] (·.parked) := by rw [← hnow]; rfl
  have hreleased : ∀ queue, s.Released r queue → now.Released r queue := by
    intro queue hq
    rw [← hnow]
    exact hq
  have honly : ∀ queue ∈ s.parked, queue ∈ (s.ledger r).rest := by
    intro queue hq
    refine (h.only queue hq).resolve_right ?_
    rintro ⟨undo, hu, -⟩
    rw [hnothing] at hu
    cases hu
  have hfacts : account.map Account.active = s.account.map Account.active ∧
      (∀ queue ∈ account.elim [] (·.parked), queue ∈ s.parked) ∧
      (∀ queue ∈ s.parked, queue ∈ account.elim [] (·.parked) ∨ removed = some queue) ∧
      ∀ queue ∈ removed, queue ∈ s.parked := by
    obtain ⟨rfl, rfl, -⟩ | ⟨b, rest, taken, hb, -, hunpark, rfl, rfl⟩ := deleteTake_ok htake
    · exact ⟨rfl, fun _ hq => hq, fun _ hq => Or.inl hq, fun _ hq => by cases hq⟩
    · obtain ⟨-, hperm, hsame⟩ := Account.unpark_some hunpark
      rw [parked, hb]
      refine ⟨congrArg some hsame, fun queue hq => hperm.mem_iff.mpr (List.mem_cons_of_mem _ hq),
        fun queue hq => ?_, fun queue hq => ?_⟩
      · obtain rfl | hq := List.mem_cons.mp (hperm.mem_iff.mp hq)
        · exact Or.inr rfl
        · exact Or.inl hq
      · cases hq
        exact hperm.mem_iff.mpr List.mem_cons_self
  obtain ⟨hsame, hsub, hstay, hremoved⟩ := hfacts
  refine ⟨?_, ?_, fun _ => ?_, fun undo hu => ?_, fun queue hq => ?_, fun queue hq => ?_,
    fun queue hq => ?_, fun task ht pending hp => ?_, fun task ht queue hq => ?_⟩
  · rw [← hnow]
    exact h.since
  · rw [hledger]
    exact h.distinct
  · rw [hledger, ← h.active hnothing, ← hnow]
    exact hsame
  · rw [hrestoring] at hu
    cases hu
  · rw [hledger] at hq
    rw [hparkedNow, hdeleting, hrestoring]
    obtain hp | hd | ⟨undo, hu, -⟩ | hr := h.rest queue hq
    · obtain hp | ht := hstay queue hp
      · exact Or.inl hp
      · exact Or.inr (Or.inl (List.mem_append_left _ (Option.mem_toList.mpr ht)))
    · exact Or.inr (Or.inl (List.mem_append_right _ hd))
    · rw [hnothing] at hu
      cases hu
    · exact Or.inr (Or.inr (Or.inr (hreleased queue hr)))
  · rw [hparkedNow] at hq
    rw [hledger]
    exact Or.inl (honly queue (hsub queue hq))
  · rw [hdeleting] at hq
    rw [hledger]
    obtain hq | hq := List.mem_append.mp hq
    · exact honly queue (hremoved queue (Option.mem_toList.mp hq))
    · exact h.deleting queue hq
  · rw [← hnow] at ht
    cases ht
    cases hp
  · rw [← hnow] at ht
    cases ht
    cases hq

/-- A save takes what it writes. -/
theorem takeSave (h : s.Keeps r) (hjob : s.job = none) (hquiet : s.Quiet) {a : Account}
    (ha : s.account = some a) :
    Keeps { s with account := some a.take.2, job := some (.taken (.save a.take.1)) } r := by
  have htask : s.task = none := by
    rw [task, hjob]
    rfl
  have hnothing := hquiet.restoring hjob
  refine h.frame rfl ?_ ?_ rfl (fun undo => ?_) (fun queue => ?_) (fun task ht pending hp queue hq => ?_)
    fun task ht queue hq => ?_
  · rw [ha]
    rfl
  · rw [parked, parked, ha]
    rfl
  · simp only [Sys.restoring, htask]
    exact Iff.rfl
  · simp only [Sys.deleting, htask]
    exact Iff.rfl
  · cases ht
    cases hp
    left
    refine (h.only queue ?_).resolve_right ?_
    · rw [parked, ha]
      exact hq
    · rintro ⟨undo, hu, -⟩
      rw [hnothing] at hu
      cases hu
  · cases ht
    cases hq

/-- Memory is put back as it was before a restore. -/
theorem putBack (h : s.Keeps r) {undo : Undo} {a : Account} (hunder : s.Under undo a)
    (ha : s.account = some a) (hundo : undo ∈ s.restoring)
    (haccount : s'.account = Queues.putBack s.account undo) (hdisk : s'.disk = s.disk)
    (hchanges : s'.changes = s.changes) (hrestoring : s'.restoring = [])
    (hdeleting : s'.deleting = s.deleting) (htask : s'.task = none)
    (hone : ∀ other ∈ s.restoring, other = undo) : s'.Keeps r := by
  have hledger : s'.ledger r = s.ledger r := by rw [ledger, hchanges, ledger]
  have hreleased : ∀ queue, s'.Released r queue ↔ s.Released r queue := by
    intro queue
    rw [Released, Released, hdisk, hchanges]
  obtain ⟨hwas, htarget⟩ := h.restoring undo hundo
  rw [ha] at haccount
  -- What is put back is the ledger's active queue, and the target among the parked ones.
  have hfacts : s'.account.map Account.active = (s.ledger r).active ∧
      s'.parked = (s.parked.filter fun queue => ∀ old ∈ undo.active, queue.queueId ≠ old.queueId) ++
        undo.target.toList := by
    cases hactive : undo.active with
    | none =>
      obtain ⟨hnone, hparked, -⟩ := hunder.alone hactive
      rw [putBack_none _ hactive] at haccount
      rw [← hwas, hactive, haccount, parked, haccount, parked, ha, hnone]
      simp only [Option.elim_some, hparked]
      exact ⟨rfl, rfl⟩
    | some old =>
      obtain ⟨after, he, hnow, hparked⟩ := putBack_some a hactive
      rw [he] at haccount
      rw [← hwas, hactive, haccount, parked, haccount, parked, ha]
      refine ⟨congrArg some hnow, ?_⟩
      simp only [Option.elim_some, hparked]
      congr 2
      funext queue
      simp
  obtain ⟨hactive, hparked⟩ := hfacts
  refine ⟨?_, ?_, fun _ => ?_, fun other hu => ?_, fun queue hq => ?_, fun queue hq => ?_,
    fun queue hq => ?_, fun task ht => ?_, fun task ht => ?_⟩
  · rw [hchanges]
    exact h.since
  · rw [hledger]
    exact h.distinct
  · rw [hledger, hactive]
  · rw [hrestoring] at hu
    cases hu
  · rw [hledger] at hq
    rw [hparked, hdeleting, hreleased]
    obtain hp | hd | ⟨other, hu, ht⟩ | hr := h.rest queue hq
    · refine Or.inl (List.mem_append_left _ (List.mem_filter.mpr ⟨hp, ?_⟩))
      refine decide_eq_true fun old ho => ?_
      rw [hwas] at ho
      exact Ledger.active_ne h.distinct ho hq
    · exact Or.inr (Or.inl hd)
    · rw [hone other hu] at ht
      exact Or.inl (List.mem_append_right _ (Option.mem_toList.mpr ht))
    · exact Or.inr (Or.inr (Or.inr hr))
  · rw [hparked] at hq
    rw [hledger]
    left
    obtain hq | hq := List.mem_append.mp hq
    · obtain ⟨hp, hne⟩ := List.mem_filter.mp hq
      refine (h.only queue hp).resolve_right ?_
      rintro ⟨other, hu, old, ho, heq⟩
      rw [hone other hu] at ho
      exact of_decide_eq_true hne old ho heq.symm
    · exact htarget queue (Option.mem_toList.mp hq)
  · rw [hdeleting] at hq
    rw [hledger]
    exact h.deleting queue hq
  · rw [htask] at ht
    cases ht
  · rw [htask] at ht
    cases ht

/-- A delete puts its queue back. -/
theorem pushBack (h : s.Keeps r) (queue : Queue) {a : Account} (ha : s.account = some a)
    (hparked : s'.parked = a.parked ++ [queue])
    (hactive : s'.account.map Account.active = s.account.map Account.active)
    (hdisk : s'.disk = s.disk) (hchanges : s'.changes = s.changes)
    (hrestoring : ∀ undo, undo ∈ s'.restoring ↔ undo ∈ s.restoring)
    (hdeleting : ∀ other, other ∈ s.deleting ↔ other = queue ∨ other ∈ s'.deleting)
    (htask : ∀ task ∈ s'.task, task ∈ s.task) : s'.Keeps r := by
  have hledger : s'.ledger r = s.ledger r := by rw [ledger, hchanges, ledger]
  have hreleased : ∀ queue, s'.Released r queue ↔ s.Released r queue := by
    intro queue
    rw [Released, Released, hdisk, hchanges]
  have hwas : s.parked = a.parked := by
    rw [parked, ha]
    rfl
  rw [← hwas] at hparked
  refine ⟨?_, ?_, fun hnone => ?_, fun undo hu => ?_, fun other hq => ?_, fun other hq => ?_,
    fun other hq => ?_, fun task ht => ?_, fun task ht other hq => ?_⟩
  · rw [hchanges]
    exact h.since
  · rw [hledger]
    exact h.distinct
  · rw [hledger, hactive]
    refine h.active ?_
    rw [List.eq_nil_iff_forall_not_mem] at hnone ⊢
    exact fun undo hu => hnone undo ((hrestoring undo).mpr hu)
  · rw [hledger]
    exact h.restoring undo ((hrestoring undo).mp hu)
  · rw [hledger] at hq
    rw [hparked, hreleased]
    obtain hp | hd | ⟨undo, hu, ht⟩ | hr := h.rest other hq
    · exact Or.inl (List.mem_append_left _ hp)
    · obtain rfl | hd := (hdeleting other).mp hd
      · exact Or.inl (List.mem_append_right _ (List.mem_singleton_self _))
      · exact Or.inr (Or.inl hd)
    · exact Or.inr (Or.inr (Or.inl ⟨undo, (hrestoring undo).mpr hu, ht⟩))
    · exact Or.inr (Or.inr (Or.inr hr))
  · rw [hparked] at hq
    rw [hledger]
    obtain hq | hq := List.mem_append.mp hq
    · refine (h.only other hq).imp_right ?_
      exact fun ⟨undo, hu, ho⟩ => ⟨undo, (hrestoring undo).mpr hu, ho⟩
    · rw [List.mem_singleton.mp hq]
      exact Or.inl (h.deleting queue ((hdeleting queue).mpr (Or.inl rfl)))
  · rw [hledger]
    exact h.deleting other ((hdeleting other).mpr (Or.inr hq))
  · rw [hledger]
    exact h.pending task (htask task ht)
  · rw [hparked, hreleased]
    exact (h.old task (htask task ht) other hq).imp_left fun hp => List.mem_append_left _ hp

/-- A save lets go of what it wrote. -/
theorem committed (h : s.Keeps r) {saved : Saved} {follow : List Follow}
    (hcalm : ∀ queue ∈ s.parked, queue.queueId ∈ saved.parked → queue.state.adjusted →
      s.disk.readKept queue.queueId = some queue)
    (hundo : follow.filterMap Follow.undo = s.follow.filterMap Follow.undo)
    (hremoved : follow.filterMap Follow.removed = s.follow.filterMap Follow.removed) :
    Keeps ({ s with follow }.settle (.committed saved)) r := by
  generalize hnow : { s with follow }.settle (.committed saved) = now
  have hchanges : now.changes = s.changes ++
      ((s.parked.filter (·.queueId ∈ saved.parked)).map fun queue => .saved queue.queueId) := by
    rw [← hnow]
    rfl
  have hsame : ∀ (queues : List Queue) (ledger : Ledger),
      (queues.map fun queue => Change.saved queue.queueId).foldl Ledger.step ledger = ledger := by
    intro queues ledger
    induction queues with
    | nil => rfl
    | cons queue queues ih => exact ih
  have hledger : now.ledger r = s.ledger r := by
    rw [ledger_append h.since _ hchanges, hsame]
  have hparked : now.parked = s.parked.filter fun queue => queue.queueId ∉ saved.parked := by
    rw [← hnow, parked, parked]
    change (s.account.map (·.committed saved)).elim [] _ = _
    cases s.account with
    | none => rfl
    | some a => rfl
  have hactive : now.account.map Account.active = s.account.map Account.active := by
    rw [← hnow]
    change (s.account.map (·.committed saved)).map Account.active = _
    cases s.account with
    | none => rfl
    | some a => rfl
  have hrestoring : now.restoring = s.restoring := by
    rw [← hnow, Sys.restoring, Sys.restoring, ← hundo]
    rfl
  have hdeleting : now.deleting = s.deleting := by
    rw [← hnow, Sys.deleting, Sys.deleting, ← hremoved]
    rfl
  have htask : now.task = s.task := by rw [← hnow]; rfl
  have hreleased : ∀ queue, s.Released r queue → now.Released r queue := fun queue hq =>
    hq.mono h.since hchanges fun _ => by rw [← hnow]; rfl
  have hparkedStill : ∀ queue ∈ s.parked, queue ∈ now.parked ∨ now.Released r queue := by
    intro queue hq
    by_cases hin : queue.queueId ∈ saved.parked
    · right
      unfold Released
      split
      · rename_i hadjusted
        rw [← hnow]
        exact hcalm queue hq hin hadjusted
      · rw [hchanges, List.drop_append_of_le_length h.since]
        refine List.mem_append_right _ (List.mem_map.mpr ⟨queue, ?_, rfl⟩)
        exact List.mem_filter.mpr ⟨hq, decide_eq_true hin⟩
    · left
      rw [hparked]
      exact List.mem_filter.mpr ⟨hq, decide_eq_true hin⟩
  refine ⟨?_, ?_, fun hnone => ?_, fun undo hu => ?_, fun queue hq => ?_, fun queue hq => ?_,
    fun queue hq => ?_, fun task ht => ?_, fun task ht queue hq => ?_⟩
  · rw [hchanges, List.length_append]
    exact Nat.le_add_right_of_le h.since
  · rw [hledger]
    exact h.distinct
  · rw [hrestoring] at hnone
    rw [hledger, hactive]
    exact h.active hnone
  · rw [hrestoring] at hu
    rw [hledger]
    exact h.restoring undo hu
  · rw [hledger] at hq
    rw [hdeleting, hrestoring]
    obtain hp | hd | ht | hr := h.rest queue hq
    · exact (hparkedStill queue hp).imp_right fun hr => Or.inr (Or.inr hr)
    · exact Or.inr (Or.inl hd)
    · exact Or.inr (Or.inr (Or.inl ht))
    · exact Or.inr (Or.inr (Or.inr (hreleased queue hr)))
  · rw [hparked] at hq
    rw [hledger, hrestoring]
    exact h.only queue (List.mem_filter.mp hq).1
  · rw [hdeleting] at hq
    rw [hledger]
    exact h.deleting queue hq
  · rw [htask] at ht
    rw [hledger]
    exact h.pending task ht
  · rw [htask] at ht
    obtain hp | hr := h.old task ht queue hq
    · exact hparkedStill queue hp
    · exact Or.inr (hreleased queue hr)

end Keeps

end Sys

end JewelCase.Queues
