import JewelCase.Queues.Lossless

/-!
# What a commit changes

A commit is where the ledgers of the requests under way learn of a restore or a delete. What it
writes leaves every queue that a save has let go of as it is.
-/
namespace JewelCase.Queues

open Account (placed)

set_option autoImplicit false

namespace Sys

variable {s : Sys} {r : Request}

namespace Keeps

/-- A restore's commit begins its queue, and what it wrote is what was parked. -/
theorem finishRestore (h : s.Keeps r) (hc : s.Coherent) {request : Request} {restored : Restored}
    {place : Option Position} {disk : Disk}
    (hjob : s.job = some (.written (.restore request restored place) disk)) :
    (s.finish (.restore request restored place) disk).Keeps r := by
  have htask : s.task = some (.restore request restored place) := by
    rw [task, hjob]
    rfl
  have hundoing : s.restoring = [restored.undo] := hc.undoing htask
  have hquiet : s.follow.filterMap Follow.undo = [] := hc.quiet_task htask
  obtain ⟨now, hwrite⟩ := hc.written _ disk hjob
  obtain ⟨a, ha, hpending, hold⟩ := hc.restore request restored place htask
  have hunder : s.Under restored.undo a := by
    obtain ⟨b, hb, hunder⟩ := hc.under restored.undo (by rw [hundoing]; exact List.mem_singleton_self _)
    rw [ha] at hb
    cases hb
    exact hunder
  obtain ⟨hwas, -⟩ := h.restoring restored.undo (by rw [hundoing]; exact List.mem_singleton_self _)
  have hdisk : disk = s.disk.writeStatements restored.pending now := by
    rw [Task.write, Except.ok.injEq] at hwrite
    exact hwrite.symm
  generalize hnow : s.finish (.restore request restored place) disk = after
  have hchanges : after.changes = s.changes ++ [.begun a.active place] := by
    rw [← hnow, finish, ha]
    rfl
  have hledger := ledger_append h.since _ hchanges
  rw [List.foldl_cons, List.foldl_nil, Ledger.step, ← hwas] at hledger
  have hdiskNow : after.disk = s.disk.writeStatements restored.pending now := by
    rw [← hnow, ← hdisk]
    rfl
  have hrestoring : after.restoring = [] := by
    rw [← hnow, Sys.restoring, finish]
    simp only [List.filterMap_append, hquiet]
    rfl
  have hdeleting : after.deleting = s.deleting := by
    rw [← hnow, Sys.deleting, Sys.deleting, htask, finish]
    simp only [List.filterMap_append]
    exact List.append_nil _
  have hparked : after.parked = s.parked := by rw [← hnow]; rfl
  have hdistinct := hc.distinct
  rw [Coherent.names_some ha, List.cons_append, List.nodup_cons, List.mem_append, not_or] at hdistinct
  have hparkedWas : s.parked = a.parked := by
    rw [parked, ha]
    rfl
  have hfilter : ∀ queue ∈ (s.ledger r).rest, queue.queueId ≠ a.queueId →
      queue ∈ (after.ledger r).rest := by
    intro queue hq hne
    rw [hledger]
    exact List.mem_append_left _ (List.mem_filter.mpr ⟨hq, decide_eq_true hne⟩)
  have hpendingOf : ∀ queue ∈ restored.pending.parked,
      queue ∈ (s.ledger r).rest ∨ restored.undo.active.map (placed · place) = some queue :=
    h.pending _ htask _ rfl
  refine ⟨?_, ?_, fun _ => ?_, fun undo hu => ?_, fun queue hq => ?_, fun queue hq => ?_,
    fun queue hq => ?_, fun task ht => ?_, fun task ht => ?_⟩
  · rw [hchanges, List.length_append]
    exact Nat.le_add_right_of_le h.since
  · have hbegun := Ledger.nodup_begun h.distinct a.active place fun old ho => by
      rw [← hwas] at ho
      exact (hunder.replaced old ho).1
    rw [Ledger.step, ← hwas] at hbegun
    rw [hledger]
    exact hbegun
  · rw [hledger, ← hnow, finish, ha]
    rfl
  · rw [hrestoring] at hu
    cases hu
  · rw [hledger] at hq
    rw [hparked, hdeleting]
    obtain ⟨hin, hne⟩ | hin := (List.mem_append.mp hq).imp_left List.mem_filter.mp
    · have hne : queue.queueId ≠ a.queueId := of_decide_eq_true hne
      obtain hp | hd | ⟨undo, hu, ht⟩ | hr := h.rest queue hin
      · exact Or.inl hp
      · exact Or.inr (Or.inl hd)
      · rw [hundoing, List.mem_singleton] at hu
        rw [hu] at ht
        exact absurd (hunder.target queue ht) hne
      · refine Or.inr (Or.inr (Or.inr ?_))
        refine hr.mono h.since hchanges fun hadjusted => ?_
        rw [Released, if_pos hadjusted] at hr
        rw [hdiskNow, hr]
        refine Disk.readKept_writeStatements ?_ (fun other ho heq => ?_) hadjusted (Or.inr hr)
        · rw [hpending]
          exact hne.symm
        · obtain ho | ho := hpendingOf other ho
          · exact Ledger.eq_of_id h.distinct ho hin heq
          · obtain ⟨old, hactive, rfl⟩ := Option.map_eq_some_iff.mp ho
            rw [(Account.placed_same old place).1] at heq
            exact absurd heq.symm (Ledger.active_ne h.distinct (hwas ▸ hactive) hin)
    · obtain ⟨old, hactive, rfl⟩ := Option.map_eq_some_iff.mp (Option.mem_toList.mp hin)
      obtain ⟨hparkedOld, -⟩ := hold old hactive
      have hid := (Account.placed_same old place).1
      obtain hp | hr := h.old _ htask (placed old place) (by rw [Task.old, hactive]; rfl)
      · exact Or.inl hp
      · refine Or.inr (Or.inr (Or.inr ?_))
        refine hr.mono h.since hchanges fun hadjusted => ?_
        rw [Released, if_pos hadjusted] at hr
        rw [hdiskNow, hr]
        refine Disk.readKept_writeStatements ?_ (fun other ho heq => ?_) hadjusted (Or.inl hparkedOld)
        · rw [hpending, hid]
          exact (hunder.replaced old hactive).1.symm
        · obtain ho | ho := hpendingOf other ho
          · rw [hid] at heq
            exact absurd heq (Ledger.active_ne h.distinct (hwas ▸ hactive) ho)
          · rw [hactive, Option.map_some, Option.some.injEq] at ho
            exact ho.symm
  · rw [hparked] at hq
    left
    obtain hin | ⟨undo, hu, old, ho, heq⟩ := h.only queue hq
    · refine hfilter queue hin fun heq => hdistinct.1.1 ?_
      rw [hparkedWas] at hq
      exact heq ▸ mem_ids_of_mem hq
    · rw [hundoing, List.mem_singleton] at hu
      rw [hu] at ho
      rw [hparkedWas] at hq
      rw [(hold old ho).2 queue hq heq.symm, hledger, ho]
      exact List.mem_append_right _ (List.mem_singleton_self _)
  · rw [hdeleting] at hq
    refine hfilter queue (h.deleting queue hq) fun heq => hdistinct.1.2 ?_
    exact heq ▸ mem_ids_of_mem hq
  · rw [← hnow] at ht
    cases ht
  · rw [← hnow] at ht
    cases ht

/-- A delete's commit takes its queue out of the ledger. -/
theorem finishDelete (h : s.Keeps r) (hc : s.Coherent) {request : Request} {removed : Option Queue}
    {disk : Disk} (hjob : s.job = some (.written (.delete request removed) disk)) :
    (s.finish (.delete request removed) disk).Keeps r := by
  have htask : s.task = some (.delete request removed) := by
    rw [task, hjob]
    rfl
  have hundoing : s.restoring = [] := hc.undoing htask
  have hquiet : s.follow.filterMap Follow.undo = [] := hc.quiet_task htask
  have hwaiting := Coherent.waiting s htask
  obtain ⟨now, hwrite⟩ := hc.written _ disk hjob
  obtain ⟨hnames, hnot, hid⟩ := hc.delete request removed htask
  have hdisk : disk = (s.disk.delete request.queueId).deleteUnusedLists := by
    rw [Task.write, deleteStatements] at hwrite
    split_ifs at hwrite
    rw [Except.ok.injEq] at hwrite
    exact hwrite.symm
  generalize hnow : s.finish (.delete request removed) disk = after
  have hchanges : after.changes = s.changes ++ [.deleted request.queueId] := by
    rw [← hnow]
    rfl
  have hledger := ledger_append h.since _ hchanges
  rw [List.foldl_cons, List.foldl_nil, Ledger.step] at hledger
  have hrestoring : after.restoring = [] := by
    rw [← hnow]
    exact hquiet
  have hdeleting : after.deleting = s.follow.filterMap Follow.removed := by
    rw [← hnow]
    rfl
  have hparked : after.parked = s.parked := by rw [← hnow]; rfl
  have hfilter : ∀ queue ∈ (s.ledger r).rest, queue.queueId ≠ request.queueId →
      queue ∈ (after.ledger r).rest := by
    intro queue hq hne
    rw [hledger]
    exact List.mem_filter.mpr ⟨hq, decide_eq_true hne⟩
  refine ⟨?_, ?_, fun _ => ?_, fun undo hu => ?_, fun queue hq => ?_, fun queue hq => ?_,
    fun queue hq => ?_, fun task ht => ?_, fun task ht => ?_⟩
  · rw [hchanges, List.length_append]
    exact Nat.le_add_right_of_le h.since
  · rw [hledger, Ledger.ids]
    refine h.distinct.sublist (List.Sublist.map _ ?_)
    exact List.filter_sublist.append_left _
  · rw [hledger, ← h.active hundoing, ← hnow]
    rfl
  · rw [hrestoring] at hu
    cases hu
  · rw [hledger] at hq
    obtain ⟨hin, hne⟩ := List.mem_filter.mp hq
    have hne : queue.queueId ≠ request.queueId := of_decide_eq_true hne
    rw [hparked, hdeleting]
    obtain hp | hd | ⟨undo, hu, -⟩ | hr := h.rest queue hin
    · exact Or.inl hp
    · rw [hwaiting] at hd
      obtain hd | hd := List.mem_append.mp hd
      · exact absurd (hid queue (Option.mem_toList.mp hd)) hne
      · exact Or.inr (Or.inl hd)
    · rw [hundoing] at hu
      cases hu
    · refine Or.inr (Or.inr (Or.inr (hr.mono h.since hchanges fun _ => ?_)))
      have hsame : after.disk.readKept queue.queueId =
          (s.disk.delete request.queueId).readKept queue.queueId := by
        rw [← hnow]
        change disk.readKept queue.queueId = _
        rw [hdisk, Disk.readKept_deleteUnusedLists]
      rw [hsame]
      refine Disk.readKept_of_find ?_
      rw [Disk.find_delete, if_neg hne.symm]
  · rw [hparked] at hq
    left
    obtain hin | ⟨undo, hu, -⟩ := h.only queue hq
    · refine hfilter queue hin fun heq => hnames ?_
      cases ha : s.account with
      | none =>
        rw [parked, ha] at hq
        cases hq
      | some a =>
        rw [parked, ha] at hq
        rw [Coherent.names_some ha]
        exact List.mem_cons_of_mem _ (heq ▸ mem_ids_of_mem hq)
    · rw [hundoing] at hu
      cases hu
  · rw [hdeleting] at hq
    refine hfilter queue (h.deleting queue ?_) fun heq => hnot (heq ▸ mem_ids_of_mem hq)
    rw [hwaiting]
    exact List.mem_append_right _ hq
  · rw [← hnow] at ht
    cases ht
  · rw [← hnow] at ht
    cases ht

/-- A save's commit leaves every queue it let go of as it is. -/
theorem finishSave (h : s.Keeps r) (hc : s.Coherent) {pending : Pending} {disk : Disk}
    (hjob : s.job = some (.written (.save pending) disk)) :
    (s.finish (.save pending) disk).Keeps r := by
  have htask : s.task = some (.save pending) := by
    rw [task, hjob]
    rfl
  have hundoing : s.restoring = [] := hc.undoing htask
  have hquiet : s.follow.filterMap Follow.undo = [] := hc.quiet_task htask
  obtain ⟨now, hwrite⟩ := hc.written _ disk hjob
  obtain ⟨a, ha, hpending⟩ := hc.save pending htask
  have hdisk : disk = s.disk.writeStatements pending now := by
    rw [Task.write, Except.ok.injEq] at hwrite
    exact hwrite.symm
  generalize hnow : s.finish (.save pending) disk = after
  have hledger : after.ledger r = s.ledger r := by rw [← hnow]; rfl
  have hrestoring : after.restoring = [] := by
    rw [← hnow, Sys.restoring, finish]
    simp only [List.filterMap_append, hquiet]
    rfl
  have hdeleting : after.deleting = s.deleting := by
    rw [← hnow, Sys.deleting, Sys.deleting, htask, finish]
    simp only [List.filterMap_append]
    exact List.append_nil _
  have hparked : after.parked = s.parked := by rw [← hnow]; rfl
  have hactive := h.active hundoing
  rw [ha] at hactive
  refine ⟨?_, ?_, fun _ => ?_, fun undo hu => ?_, fun queue hq => ?_, fun queue hq => ?_,
    fun queue hq => ?_, fun task ht => ?_, fun task ht => ?_⟩
  · rw [← hnow]
    exact h.since
  · rw [hledger]
    exact h.distinct
  · rw [hledger, ← hactive, ← hnow, finish, ha]
  · rw [hrestoring] at hu
    cases hu
  · rw [hledger] at hq
    rw [hparked, hdeleting]
    obtain hp | hd | ⟨undo, hu, -⟩ | hr := h.rest queue hq
    · exact Or.inl hp
    · exact Or.inr (Or.inl hd)
    · rw [hundoing] at hu
      cases hu
    · refine Or.inr (Or.inr (Or.inr ?_))
      refine hr.mono h.since (by rw [← hnow]; exact (List.append_nil _).symm) fun hadjusted => ?_
      rw [Released, if_pos hadjusted] at hr
      rw [← hnow, hr]
      change disk.readKept queue.queueId = _
      rw [hdisk]
      refine Disk.readKept_writeStatements ?_ (fun other ho heq => ?_) hadjusted (Or.inr hr)
      · rw [hpending]
        exact (Ledger.active_ne h.distinct hactive.symm hq).symm
      · obtain ho | ho := h.pending _ htask _ rfl other ho
        · exact Ledger.eq_of_id h.distinct ho hq heq
        · cases ho
  · rw [hparked] at hq
    rw [hledger]
    obtain hin | ⟨undo, hu, -⟩ := h.only queue hq
    · exact Or.inl hin
    · rw [hundoing] at hu
      cases hu
  · rw [hdeleting] at hq
    rw [hledger]
    exact h.deleting queue hq
  · rw [← hnow] at ht
    cases ht
  · rw [← hnow] at ht
    cases ht

end Keeps

end Sys

end JewelCase.Queues
