import JewelCase.Player.Unsaved

/-!
# Where playback got to is never left unsaved

What a save that succeeds leaves stored, and what follows one that fails.
-/
namespace JewelCase.Player.Saved

set_option autoImplicit false

open JewelCase.Library (HashMap)

variable {system : System}

/-! ### After a save -/

/-- Whether an event neither begins a save nor fails a write. -/
def Event.Quiet : Event → Prop
  | .save _ _ | .settle false => False
  | _ => True

theorem calm_append {before rest : List Event} (h : Calm system (before ++ rest)) :
    Calm system before ∧ Calm (system.run before) rest := by
  induction before generalizing system with
  | nil => exact ⟨trivial, h⟩
  | cons event before ih =>
    obtain ⟨hbefore, hrest⟩ := ih h.2
    exact ⟨⟨h.1, hbefore⟩, hrest⟩

/-- What happens but for a new save or a failed write makes no difference to what is yet to land. -/
theorem lands_step (h : system.Kept) {event : Event} (hquiet : event.Quiet) (user : Int) :
    lands (system.step event).saves user ((system.step event).stored.get user) =
      lands system.saves user (system.stored.get user) := by
  cases event with
  | report user device connection update now =>
    dsimp only [System.step, System.report]
    split <;> rfl
  | disconnected user connection heardAt now =>
    dsimp only [System.step, System.disconnected]
    split <;> rfl
  | save playing now => exact absurd hquiet id
  | settle committed =>
    cases committed with
    | false => exact absurd hquiet id
    | true =>
      dsimp only [System.step, System.settle]
      rcases settleFirst_spec true system.saves system.stored with
        ⟨-, heq⟩ | ⟨before, save, after, hsaves, -, hpending, hbefore, heq⟩
      · rw [heq]
      · rw [heq, hsaves, lands_pending hbefore hpending,
          lands_past hbefore (Option.some_ne_none true), if_pos rfl, HashMap.get_merge]
  | finish id =>
    dsimp only [System.step, System.finish]
    cases hfind : system.saves.find? fun save => save.id = id && save.outcome.isSome with
    | none => rfl
    | some save =>
      dsimp only
      split_ifs <;> exact h.lands_finish hfind user _
  | abort id => exact lands_abort id system.saves user _

/-- Once no save is under way, what was to land is stored. -/
theorem stored_after (h : system.Kept) {events : List Event} (hcalm : Calm system events)
    (hquiet : ∀ event ∈ events, event.Quiet) (hended : (system.run events).saves = []) (user : Int) :
    (system.run events).stored.get user = lands system.saves user (system.stored.get user) := by
  induction events generalizing system with
  | nil =>
    change system.saves = [] at hended
    rw [hended]
    rfl
  | cons event rest ih =>
    rw [← lands_step h (hquiet event List.mem_cons_self) user]
    exact ih (h.step event hcalm.1) hcalm.2
      (fun other hother => hquiet other (List.mem_cons_of_mem _ hother)) hended

/-- Where no write has failed, no save is about to mark an account. -/
theorem not_failing (h : ∀ save ∈ system.saves, save.outcome ≠ some false) (user : Int) :
    ¬ Failing system.saves user := by
  rintro ⟨save, hsave, hfailed, -⟩
  exact h save hsave hfailed

/-- **A full save** has an account's item and the place that it had played to land. -/
theorem full_save (h : system.Kept) (hsound : ∀ save ∈ system.saves, save.outcome ≠ some false)
    (now : Instant) {user : Int} {account : Account} {item : String}
    (haccount : system.accounts.get user = some account) (hitem : account.state.itemId = some item) :
    ∃ row, lands (system.save 0 now).saves user ((system.save 0 now).stored.get user) = some row ∧
      row.item = item ∧ row.positionMs = account.state.playedTo (nowMs now) := by
  have hkept := h.accounts user account haccount
  rw [save_row, haccount, Option.bind_some]
  cases hsave : (account.save 0 now).2 with
  | some row =>
    obtain ⟨hrow, hposition, -, -⟩ := save_some hsave
    exact ⟨row, rfl, Option.some_inj.mp (hrow.symm.trans hitem), hposition⟩
  | none =>
    cases hunsaved : account.unsaved with
    | true =>
      obtain ⟨row, -, hplaying⟩ := save_skips hunsaved hitem hsave
      unfold Row.playingOn at hplaying
      simp at hplaying
    | false =>
      rcases hkept.place hunsaved item hitem with hfailing | ⟨row, hrow, hsame, hposition⟩
      · exact absurd hfailing (not_failing hsound user)
      · refine ⟨row, hrow, hsame, ?_⟩
        rw [hposition, PlayerState.playedTo]
        cases hstatus : account.state.status with
        | playing => rw [hkept.playing hstatus] at hunsaved; cases hunsaved
        | paused => rfl
        | stopped => rfl

/-- **A bounded save** has a row of each account playing land, its own or one from less than the bound
ago that says where the account is. -/
theorem bounded_save (h : system.Kept) (hsound : ∀ save ∈ system.saves, save.outcome ≠ some false)
    (playing : Nat) (now : Instant) {user : Int} {account : Account} {item : String}
    (haccount : system.accounts.get user = some account) (hitem : account.state.itemId = some item)
    (hplaying : account.state.status = .playing) :
    ∃ row, lands (system.save playing now).saves user ((system.save playing now).stored.get user) =
        some row ∧ row.item = item ∧
      (row = ⟨item, account.state.playedTo (nowMs now), now⟩ ∨ now - row.takenAt < playing ∧
        absDiff (account.state.playedTo (nowMs now)).val (row.expected now) < 2000) := by
  have hkept := h.accounts user account haccount
  rw [save_row, haccount, Option.bind_some]
  cases hsave : (account.save playing now).2 with
  | some row =>
    obtain ⟨hrow, hposition, htaken, -⟩ := save_some hsave
    have hrow := Option.some_inj.mp (hrow.symm.trans hitem)
    refine ⟨row, rfl, hrow, .inl ?_⟩
    rw [← hrow, ← hposition, ← htaken]
  | none =>
    obtain ⟨row, hnote, hskip⟩ := save_skips (hkept.playing hplaying) hitem hsave
    unfold Row.playingOn at hskip
    simp only [Bool.and_eq_true, decide_eq_true_eq] at hskip
    refine ⟨row, ?_, hskip.1.1, .inr ⟨hskip.1.2, hskip.2⟩⟩
    exact (hkept.note row hnote).resolve_left (not_failing hsound user)

/-! ### After a failure -/

/-- An account that the next save writes a row of, whatever its bound. -/
def Due (system : System) (user : Int) : Prop :=
  ∃ account, system.accounts.get user = some account ∧ account.unsaved = true ∧
    account.saved = none ∧ account.state.itemId.isSome

/-- A save whose write failed leaves its accounts due. -/
theorem due_finish (h : system.Kept) {save : Save} (hsave : save ∈ system.saves)
    (hfailed : save.outcome = some false) {user : Int} (hrow : (save.rows.get user).isSome) :
    Due (system.finish save.id) user := by
  obtain ⟨account, haccount, hitem⟩ := h.items save hsave user hrow
  have hfound : (system.saves.find? fun other =>
      other.id = save.id && other.outcome.isSome).isSome := by
    rw [List.find?_isSome]
    exact ⟨save, hsave, by simp [hfailed]⟩
  obtain ⟨found, hfind⟩ := Option.isSome_iff_exists.mp hfound
  obtain ⟨-, -, -, honly⟩ := h.find hfind
  have hsame : save = found := honly save hsave rfl
  rw [← hsame] at hfind
  unfold System.finish
  rw [hfind]
  dsimp only
  rw [if_pos (by rw [hfailed, h.marks save hsave hfailed]; rfl)]
  refine ⟨account.failed, ?_, rfl, rfl, hitem⟩
  dsimp only
  rw [HashMap.get_change, haccount]
  exact congrArg some (if_pos hrow)

/-- An account stays due until a save begins. -/
theorem due_step {user : Int} (hdue : Due system user) (event : Event)
    (hbegins : ∀ playing now, event ≠ .save playing now) : Due (system.step event) user := by
  have hchanged : ∀ (other : Int) (state : PlayerState),
      (∀ account, system.accounts.get other = some account → account.state.itemId.isSome →
        state.itemId.isSome) → Due (system.changed other state) user := by
    intro other state hitem
    obtain ⟨account, haccount, hunsaved, hnote, hsome⟩ := hdue
    unfold Due System.changed
    dsimp only
    rw [HashMap.get_insert]
    split_ifs with hother
    · rw [← hother, haccount]
      exact ⟨_, rfl, rfl, hnote, hitem account (hother ▸ haccount) hsome⟩
    · exact ⟨account, haccount, hunsaved, hnote, hsome⟩
  cases event with
  | report other device connection update now =>
    dsimp only [System.step, System.report]
    split
    · exact hdue
    · rename_i state hstate
      exact hchanged other state fun _ _ _ => report_item hstate
  | disconnected other connection heardAt now =>
    dsimp only [System.step, System.disconnected]
    split
    · exact hdue
    · rename_i state hstate
      refine hchanged other state fun account haccount hsome => ?_
      have hitem := (disconnected_some hstate).2
      rw [haccount] at hitem
      exact Option.some_inj.mp hitem ▸ hsome
  | save playing now => exact absurd rfl (hbegins playing now)
  | settle committed => exact hdue
  | finish id =>
    dsimp only [System.step, System.finish]
    split
    · exact hdue
    · split_ifs
      · obtain ⟨account, haccount, hunsaved, hnote, hsome⟩ := hdue
        unfold Due
        dsimp only
        rw [HashMap.get_change, haccount]
        refine ⟨_, rfl, ?_⟩
        split_ifs
        · exact ⟨rfl, rfl, hsome⟩
        · exact ⟨hunsaved, hnote, hsome⟩
      · exact hdue
  | abort id => exact hdue

theorem due_run {user : Int} (hdue : Due system user) {events : List Event}
    (hbegins : ∀ event ∈ events, ∀ playing now, event ≠ .save playing now) :
    Due (system.run events) user := by
  induction events generalizing system with
  | nil => exact hdue
  | cons event rest ih =>
    exact ih (due_step hdue event (hbegins event List.mem_cons_self)) fun other hother =>
      hbegins other (List.mem_cons_of_mem _ hother)

/-- A save writes a row of each account that is due. -/
theorem due_save {user : Int} (hdue : Due system user) (playing : Nat) (now : Instant) :
    ∃ save ∈ (system.save playing now).saves, save.id = system.nextId ∧
      (save.rows.get user).isSome := by
  obtain ⟨account, haccount, hunsaved, hnote, hitem⟩ := hdue
  obtain ⟨item, hitem⟩ := Option.isSome_iff_exists.mp hitem
  have hrow : ((account.save playing now).2).isSome := by
    cases hsave : (account.save playing now).2 with
    | some row => rfl
    | none =>
      obtain ⟨row, hsaved, -⟩ := save_skips hunsaved hitem hsave
      rw [hnote] at hsaved
      cases hsaved
  have hcollect := HashMap.get_collect system.accounts user
    (fun _ account => (account.save playing now).2)
  rw [haccount, Option.bind_some] at hcollect
  unfold System.save
  dsimp only
  split_ifs with hempty
  · rw [HashMap.get_of_isEmpty hempty] at hcollect
    rw [← hcollect] at hrow
    cases hrow
  · refine ⟨_, List.mem_append_right _ (List.mem_singleton.mpr rfl), rfl, ?_⟩
    exact hcollect ▸ hrow

/-! ### Runs -/

/-- **Where playback got to is never left unsaved.** In a run in which no write of an aborted save
fails: once no save is under way, each account with an item is marked or its row is its item and
place, and it is not playing. A save that no write fails during, and that no other begins after, has
stored the item and place of each account with an item as it began if it was full; if it was bounded,
a row of each account playing as it began, its own or one from less than the bound before that says
where the account then was. And what a failed write was to save is in the write of the next save. -/
theorem never_left_unsaved (stored : HashMap Int Row) (active : Int → Bool) (start : Instant)
    (before after : List Event) (hcalm : Calm (System.load stored active start) (before ++ after)) :
    let system := (System.load stored active start).run before
    (system.saves = [] → ∀ user account item, system.accounts.get user = some account →
      account.state.itemId = some item → account.unsaved = true ∨
        account.state.status ≠ .playing ∧ ∃ row, system.stored.get user = some row ∧
          row.item = item ∧ row.positionMs = account.state.positionMs) ∧
    (∀ playing now during later, after = .save playing now :: (during ++ later) →
      (∀ save ∈ system.saves, save.outcome ≠ some false) → (∀ event ∈ during, event.Quiet) →
      let ended := (system.save playing now).run during
      ended.saves = [] → ∀ user account item, system.accounts.get user = some account →
        account.state.itemId = some item →
        (playing = 0 → ∃ row, ended.stored.get user = some row ∧ row.item = item ∧
          row.positionMs = account.state.playedTo (nowMs now)) ∧
        (account.state.status = .playing → ∃ row, ended.stored.get user = some row ∧
          row.item = item ∧
          (row = ⟨item, account.state.playedTo (nowMs now), now⟩ ∨ now - row.takenAt < playing ∧
            absDiff (account.state.playedTo (nowMs now)).val (row.expected now) < 2000))) ∧
    ∀ failed ∈ system.saves, failed.outcome = some false →
      ∀ during later, after = .finish failed.id :: (during ++ later) →
      (∀ event ∈ during, ∀ playing now, event ≠ .save playing now) →
      ∀ playing now user, (failed.rows.get user).isSome →
        let waiting := (system.finish failed.id).run during
        ∃ save ∈ (waiting.save playing now).saves, save.id = waiting.nextId ∧
          (save.rows.get user).isSome := by
  intro system
  obtain ⟨hbefore, hafter⟩ := calm_append hcalm
  have h : system.Kept := (kept_load stored active start).run hbefore
  refine ⟨?_, ?_, ?_⟩
  · intro hended user account item haccount hitem
    have hkept := h.accounts user account haccount
    rw [hended] at hkept
    cases hunsaved : account.unsaved with
    | true => exact .inl rfl
    | false =>
      refine .inr ⟨?_, (hkept.place hunsaved item hitem).resolve_left ?_⟩
      · intro hplaying
        rw [hkept.playing hplaying] at hunsaved
        cases hunsaved
      · rintro ⟨save, hsave, -⟩
        exact List.not_mem_nil hsave
  · intro playing now during later hsplit hsound hquiet ended hended user account item haccount hitem
    rw [hsplit] at hafter
    have hstored := stored_after (h.save playing now) (calm_append hafter.2).1 hquiet hended user
    rw [hstored]
    constructor
    · rintro rfl
      exact full_save h hsound now haccount hitem
    · exact bounded_save h hsound playing now haccount hitem
  · intro failed hfailed houtcome during later _ hbegins playing now user hrow
    exact due_save (due_run (due_finish h hfailed houtcome hrow) hbegins) playing now

/-- A report that starts playback of `item`, paused or not, on a user's first connection. -/
def starts (user : Int) (item : String) (status : Reported) (now : Instant) : Event :=
  .report user user 1 ⟨item, status, ⟨0, Nat.zero_le _⟩, none, true⟩ now

theorem never_left_unsaved_once_paused :
    let system := (System.load .empty (fun _ => true) 0).run
      [starts 1 "a" .paused 0, .save 0 0, .settle true, .finish 0]
    ∃ row, system.stored.get 1 = some row ∧ row.item = "a" := by
  have hcalm : Calm (System.load .empty (fun _ => true) 0)
      ([starts 1 "a" .paused 0, .save 0 0, .settle true, .finish 0] ++ []) :=
    ⟨trivial, trivial, trivial, trivial, trivial⟩
  have hkept := (never_left_unsaved .empty (fun _ => true) 0 _ [] hcalm).1 rfl 1
    ⟨⟨.paused, some 1, some 1, some "a", ⟨0, Nat.zero_le _⟩, 0, none⟩, false,
      some ⟨"a", ⟨0, Nat.zero_le _⟩, 0⟩⟩ "a" (by decide +kernel) rfl
  obtain ⟨-, row, hrow, hitem, -⟩ := hkept.resolve_left Bool.false_ne_true
  exact ⟨row, hrow, hitem⟩

/-- **What a save does not promise.** A report during a bounded save leaves an account playing an item
that its stored row does not name. A full save stores nothing of an account whose row was in an
earlier write that fails after it began. And a write that fails after its save was aborted is not
tried again. -/
theorem left_unsaved :
    (let system := (System.load .empty (fun _ => true) 0).run
      [starts 1 "a" .playing 0, .save SAVE_PLAYING_EVERY 0, starts 1 "b" .playing 1000000,
        .settle true, .finish 0]
    system.saves.isEmpty = true ∧
      (system.accounts.get 1).map (fun account => (account.state.status, account.state.itemId)) =
        some (.playing, some "b") ∧
      (system.stored.get 1).map Row.item = some "a") ∧
    (let system := (System.load .empty (fun _ => true) 0).run
      [starts 1 "a" .paused 0, .save SAVE_PLAYING_EVERY 0, starts 2 "b" .paused 0, .save 0 0,
        .settle false, .settle true, .finish 1]
    (system.accounts.get 1).map (fun account => account.state.itemId) = some (some "a") ∧
      system.stored.get 1 = none ∧ (system.stored.get 2).map Row.item = some "b") ∧
    let system := (System.load .empty (fun _ => true) 0).run
      [starts 1 "a" .paused 0, .save SAVE_PLAYING_EVERY 0, .abort 0, .settle false, .finish 0]
    system.saves.isEmpty = true ∧ (system.accounts.get 1).map Account.unsaved = some false ∧
      system.stored.get 1 = none ∧ (system.save 0 0).saves.isEmpty = true := by
  decide +kernel

end JewelCase.Player.Saved
