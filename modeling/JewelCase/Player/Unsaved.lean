import JewelCase.Player.State
import Mathlib.Data.List.Induction

/-!
# What is saved or yet to be

What an account's stored row comes to once the writes under way have committed, and that no account
goes unmarked that this leaves behind.
-/
namespace JewelCase.Player.Saved

set_option autoImplicit false

open JewelCase.Library (HashMap)

/-! ### Writes under way -/

/-- A user's row once every write under way has committed. -/
def lands (saves : List Save) (user : Int) (stored : Option Row) : Option Row :=
  saves.foldl (fun row save =>
    if save.outcome = none then (save.rows.get user).or row else row) stored

/-- Whether a save under way is about to mark the user's account. -/
def Failing (saves : List Save) (user : Int) : Prop :=
  ∃ save ∈ saves, save.outcome = some false ∧ save.aborted = false ∧ (save.rows.get user).isSome

/-- The first save whose write has not settled. -/
def firstPending (saves : List Save) : Option Save := saves.find? fun save => save.outcome.isNone

theorem lands_append (saves saves' : List Save) (user : Int) (stored : Option Row) :
    lands (saves ++ saves') user stored = lands saves' user (lands saves user stored) :=
  List.foldl_append

theorem lands_settled {saves : List Save} (h : ∀ save ∈ saves, save.outcome ≠ none) (user : Int)
    (stored : Option Row) : lands saves user stored = stored := by
  induction saves with
  | nil => rfl
  | cons save rest ih =>
    rw [lands, List.foldl_cons, if_neg (h save List.mem_cons_self)]
    exact ih fun other hother => h other (List.mem_cons_of_mem _ hother)

/-- A save that has settled makes no difference to what is yet to land. -/
theorem lands_without (saves : List Save) (p : Save → Bool)
    (hsettled : ∀ save ∈ saves, p save = false → save.outcome ≠ none) (user : Int)
    (stored : Option Row) : lands (saves.filter p) user stored = lands saves user stored := by
  induction saves generalizing stored with
  | nil => rfl
  | cons save rest ih =>
    have hrest := ih fun other hother => hsettled other (List.mem_cons_of_mem _ hother)
    cases hp : p save with
    | true =>
      rw [List.filter_cons_of_pos hp]
      exact hrest _
    | false =>
      rw [List.filter_cons_of_neg (by rw [hp]; exact Bool.false_ne_true), hrest]
      conv_rhs => rw [lands, List.foldl_cons, if_neg (hsettled save List.mem_cons_self hp)]
      rfl

theorem lands_pending {before after : List Save} {save : Save}
    (hbefore : ∀ other ∈ before, other.outcome ≠ none) (hpending : save.outcome = none) (user : Int)
    (stored : Option Row) : lands (before ++ save :: after) user stored =
      lands after user ((save.rows.get user).or stored) := by
  rw [lands_append, lands_settled hbefore, lands, List.foldl_cons, if_pos hpending]
  rfl

theorem lands_past {before after : List Save} {save : Save}
    (hbefore : ∀ other ∈ before, other.outcome ≠ none) (hsettled : save.outcome ≠ none) (user : Int)
    (stored : Option Row) : lands (before ++ save :: after) user stored = lands after user stored := by
  rw [lands_append, lands_settled hbefore, lands, List.foldl_cons, if_neg hsettled]
  rfl

/-- What settling the first write comes to. -/
theorem settleFirst_spec (committed : Bool) (saves : List Save) (stored : HashMap Int Row) :
    (firstPending saves = none ∧ System.settleFirst committed saves stored = (saves, stored)) ∨
      ∃ before save after, saves = before ++ save :: after ∧ firstPending saves = some save ∧
        save.outcome = none ∧ (∀ other ∈ before, other.outcome ≠ none) ∧
        System.settleFirst committed saves stored =
          (before ++ { save with outcome := some committed } :: after,
            if committed then stored.merge save.rows else stored) := by
  induction saves with
  | nil => exact .inl ⟨rfl, rfl⟩
  | cons save rest ih =>
    cases houtcome : save.outcome with
    | none =>
      refine .inr ⟨[], save, rest, rfl, ?_, houtcome, fun _ h => absurd h List.not_mem_nil, ?_⟩
      · rw [firstPending, List.find?_cons, houtcome]
        rfl
      · rw [System.settleFirst, houtcome]
        rfl
    | some settled =>
      have hfirst : firstPending (save :: rest) = firstPending rest := by
        rw [firstPending, List.find?_cons, houtcome]
        rfl
      have hsettle : System.settleFirst committed (save :: rest) stored =
          (save :: (System.settleFirst committed rest stored).1,
            (System.settleFirst committed rest stored).2) := by
        rw [System.settleFirst, houtcome]
      rw [hfirst, hsettle]
      rcases ih with ⟨hnone, heq⟩ | ⟨before, found, after, rfl, hfound, hnone, hbefore, heq⟩
      · exact .inl ⟨hnone, by rw [heq]⟩
      · refine .inr ⟨save :: before, found, after, rfl, hfound, hnone, ?_, by rw [heq]; rfl⟩
        intro other hother
        rcases List.mem_cons.mp hother with rfl | hother
        · rw [houtcome]
          exact Option.some_ne_none _
        · exact hbefore other hother

/-! ### Accounts -/

/-- What is known of an account whose row comes to be `row`, unless a save is about to mark it. -/
structure Account.Kept (account : Account) (row : Option Row) (failing : Prop) : Prop where
  playing : account.state.status = .playing → account.unsaved = true
  item : account.state.status = .playing → account.state.itemId.isSome
  place : account.unsaved = false → ∀ item, account.state.itemId = some item →
    failing ∨ ∃ r, row = some r ∧ r.item = item ∧ r.positionMs = account.state.positionMs
  note : ∀ r, account.saved = some r → failing ∨ row = some r

variable {account : Account} {row : Option Row} {failing : Prop}

theorem Account.Kept.imp (h : account.Kept row failing) {failing' : Prop}
    (himp : failing → failing') : account.Kept row failing' where
  playing := h.playing
  item := h.item
  place hunsaved item hitem := (h.place hunsaved item hitem).imp_left himp
  note r hr := (h.note r hr).imp_left himp

/-- An account that is about to be marked. -/
theorem Account.Kept.awaits (h : account.Kept row failing) {row' : Option Row} {failing' : Prop}
    (hfailing : failing') : account.Kept row' failing' where
  playing := h.playing
  item := h.item
  place _ _ _ := .inl hfailing
  note _ _ := .inl hfailing

/-- An account that was marked. -/
theorem Account.Kept.marked (h : account.Kept row failing) {row' : Option Row} {failing' : Prop} :
    account.failed.Kept row' failing' where
  playing _ := rfl
  item := h.item
  place hunsaved := absurd hunsaved Bool.true_eq_false.mp
  note _ hr := absurd hr.symm (Option.some_ne_none _)

/-- What a save writes of an account is its item and place, and what it notes. -/
theorem save_some {playing : Nat} {now : Instant} {r : Row}
    (h : (account.save playing now).2 = some r) :
    account.state.itemId = some r.item ∧ r.positionMs = account.state.playedTo (nowMs now) ∧
      r.takenAt = now ∧ (account.save playing now).1 =
        ⟨account.state, decide (account.state.status = .playing), some r⟩ := by
  unfold Account.save at h ⊢
  split at h
  · rename_i item hunsaved hitem
    dsimp only at h ⊢
    split_ifs at h ⊢
    cases h
    exact ⟨hitem, rfl, rfl, rfl⟩
  · cases h

/-- An account that a save writes nothing of stays as it was. -/
theorem save_none {playing : Nat} {now : Instant} (h : (account.save playing now).2 = none) :
    (account.save playing now).1 = account := by
  unfold Account.save at h ⊢
  split at h
  · dsimp only at h ⊢
    split_ifs at h ⊢
    rfl
  · rfl

/-- Why a save writes nothing of an account that is marked and has an item. -/
theorem save_skips {playing : Nat} {now : Instant} {item : String}
    (hunsaved : account.unsaved = true) (hitem : account.state.itemId = some item)
    (h : (account.save playing now).2 = none) :
    ∃ r, account.saved = some r ∧
      r.playingOn item (account.state.playedTo (nowMs now)) playing now = true := by
  unfold Account.save at h
  rw [hunsaved, hitem] at h
  dsimp only at h
  split_ifs at h with hskip
  · rw [Bool.and_eq_true] at hskip
    exact Option.any_eq_true _ _ |>.mp hskip.2

theorem Account.Kept.save (h : account.Kept row failing) (playing : Nat) (now : Instant) :
    (account.save playing now).1.Kept ((account.save playing now).2.or row) failing := by
  cases hsave : (account.save playing now).2 with
  | none =>
    rw [save_none hsave]
    exact h
  | some r =>
    obtain ⟨hitem, hposition, -, haccount⟩ := save_some hsave
    rw [haccount]
    constructor
    · exact fun hplaying => decide_eq_true hplaying
    · exact h.item
    · intro hunsaved item hitem'
      have hstatus := of_decide_eq_false hunsaved
      refine .inr ⟨r, rfl, Option.some_inj.mp (hitem.symm.trans hitem'), ?_⟩
      rw [hposition, PlayerState.playedTo]
      cases hs : account.state.status with
      | playing => exact absurd hs hstatus
      | paused => rfl
      | stopped => rfl
    · intro r' hr'
      cases hr'
      exact .inr rfl

/-! ### Reports -/

/-- A state that a report or the end of a connection leaves has an item if one had. -/
theorem report_item {state : Option PlayerState} {device : Int} {connection : Nat} {now : Int}
    {update : ProgressReport} {next : PlayerState}
    (h : Player.report state device connection now update = .ok next) : next.itemId.isSome := by
  rw [(report_ok h).2.2.2.2.1]
  rfl

theorem disconnected_some {state : Option PlayerState} {connection : Nat} {heardAt now : Int}
    {next : PlayerState} (h : Player.disconnected state connection heardAt now = some next) :
    next.status = .stopped ∧ state.map PlayerState.itemId = some next.itemId := by
  unfold Player.disconnected at h
  obtain ⟨before, rfl, hnext⟩ := Option.bind_eq_some_iff.mp h
  split_ifs at hnext
  cases hnext
  exact ⟨rfl, rfl⟩

/-! ### Events -/

/-- No write of a save that was aborted fails, and no save is aborted whose write has failed. -/
def Event.Calm (system : System) : Event → Prop
  | .settle false => ∀ save, firstPending system.saves = some save → save.aborted = false
  | .abort id => ∀ save ∈ system.saves, save.id = id → save.outcome ≠ some false
  | _ => True

/-- Whether every event of a run is calm. -/
def Calm : System → List Event → Prop
  | _, [] => True
  | system, event :: rest => event.Calm system ∧ Calm (system.step event) rest

/-- What holds of the accounts, the rows and the saves under way. -/
structure System.Kept (system : System) : Prop where
  ids : (system.saves.map Save.id).Nodup
  bounded : ∀ save ∈ system.saves, save.id < system.nextId
  marks : ∀ save ∈ system.saves, save.outcome = some false → save.aborted = false
  items : ∀ save ∈ system.saves, ∀ user, (save.rows.get user).isSome →
    ∃ account, system.accounts.get user = some account ∧ account.state.itemId.isSome
  accounts : ∀ user account, system.accounts.get user = some account →
    account.Kept (lands system.saves user (system.stored.get user)) (Failing system.saves user)

variable {system : System}

theorem kept_load (stored : HashMap Int Row) (active : Int → Bool) (now : Instant) :
    (System.load stored active now).Kept where
  ids := List.nodup_nil
  bounded _ h := absurd h List.not_mem_nil
  marks _ h := absurd h List.not_mem_nil
  items _ h := absurd h List.not_mem_nil
  accounts user account h := by
    unfold System.load at h ⊢
    dsimp only at h ⊢
    rw [HashMap.get_collect] at h
    obtain ⟨row, hrow, hloaded⟩ := Option.bind_eq_some_iff.mp h
    split_ifs at hloaded
    cases hloaded
    constructor
    · exact fun hplaying => Status.noConfusion hplaying
    · exact fun hplaying => Status.noConfusion hplaying
    · intro _ item hitem
      cases hitem
      exact .inr ⟨row, hrow, rfl, rfl⟩
    · exact fun _ hr => absurd hr.symm (Option.some_ne_none _)

/-- A changed state leaves all else as it was. -/
theorem System.Kept.changed (h : system.Kept) (user : Int) {state : PlayerState}
    (hplaying : state.status = .playing → state.itemId.isSome)
    (hitem : ∀ account, system.accounts.get user = some account → account.state.itemId.isSome →
      state.itemId.isSome) : (system.changed user state).Kept where
  ids := h.ids
  bounded := h.bounded
  marks := h.marks
  items save hsave other hrow := by
    obtain ⟨account, haccount, hsome⟩ := h.items save hsave other hrow
    unfold System.changed
    dsimp only
    rw [HashMap.get_insert]
    split_ifs with hother
    · exact ⟨_, rfl, hitem account (hother ▸ haccount) hsome⟩
    · exact ⟨account, haccount, hsome⟩
  accounts other account haccount := by
    unfold System.changed at haccount ⊢
    dsimp only at haccount ⊢
    rw [HashMap.get_insert] at haccount
    split_ifs at haccount with hother
    · cases haccount
      constructor
      · exact fun _ => rfl
      · exact hplaying
      · exact fun hunsaved => absurd hunsaved Bool.true_eq_false.mp
      · intro r hr
        obtain ⟨old, hold, hnote⟩ := Option.bind_eq_some_iff.mp hr
        rw [hother]
        exact (h.accounts user old hold).note r hnote
    · exact h.accounts other account haccount

theorem System.Kept.report (h : system.Kept) (user device : Int) (connection : Nat)
    (update : ProgressReport) (now : Instant) :
    (system.report user device connection update now).Kept := by
  unfold System.report
  split
  · exact h
  · rename_i state hstate
    have hitem := report_item hstate
    exact h.changed user (fun _ => hitem) fun _ _ _ => hitem

theorem System.Kept.disconnected (h : system.Kept) (user : Int) (connection : Nat) (heardAt : Int)
    (now : Instant) : (system.disconnected user connection heardAt now).Kept := by
  unfold System.disconnected
  split
  · exact h
  · rename_i state hstate
    obtain ⟨hstopped, hitem⟩ := disconnected_some hstate
    refine h.changed user (fun hplaying => ?_) fun account haccount hsome => ?_
    · rw [hstopped] at hplaying
      cases hplaying
    · rw [haccount] at hitem
      exact Option.some_inj.mp hitem ▸ hsome

/-- What a save's own write is of a user's account. -/
theorem save_row (system : System) (playing : Nat) (now : Instant) (user : Int) :
    lands (system.save playing now).saves user ((system.save playing now).stored.get user) =
      ((system.accounts.get user).bind fun account => (account.save playing now).2).or
        (lands system.saves user (system.stored.get user)) := by
  have hcollect := HashMap.get_collect system.accounts user
    (fun _ account => (account.save playing now).2)
  rw [← hcollect]
  unfold System.save
  dsimp only
  split_ifs with hempty
  · rw [HashMap.get_of_isEmpty hempty]
    rfl
  · rw [lands_append]
    rfl

theorem save_failing (system : System) (playing : Nat) (now : Instant) (user : Int) :
    Failing (system.save playing now).saves user ↔ Failing system.saves user := by
  unfold System.save
  dsimp only
  split_ifs
  · rfl
  · constructor
    · rintro ⟨save, hsave, hfailed, hrest⟩
      rcases List.mem_append.mp hsave with hold | hnew
      · exact ⟨save, hold, hfailed, hrest⟩
      · rw [List.mem_singleton.mp hnew] at hfailed
        cases hfailed
    · rintro ⟨save, hsave, hrest⟩
      exact ⟨save, List.mem_append_left _ hsave, hrest⟩

theorem save_accounts (system : System) (playing : Nat) (now : Instant) (user : Int) :
    (system.save playing now).accounts.get user =
      (system.accounts.get user).map fun account => (account.save playing now).1 := by
  have hchange := HashMap.get_change system.accounts user
    (fun _ account => (account.save playing now).1)
  rw [← hchange]
  unfold System.save
  dsimp only
  split_ifs <;> rfl

/-- A save that begins takes what is to be saved, and leaves the rest. -/
theorem System.Kept.save (h : system.Kept) (playing : Nat) (now : Instant) :
    (system.save playing now).Kept := by
  have hstate : ∀ account : Account, (account.save playing now).1.state = account.state := by
    intro account
    cases hsave : (account.save playing now).2 with
    | none => rw [save_none hsave]
    | some r => rw [(save_some hsave).2.2.2]
  have hkeeps : ∀ user, (∃ account, system.accounts.get user = some account ∧
      account.state.itemId.isSome) → ∃ account, (system.save playing now).accounts.get user =
        some account ∧ account.state.itemId.isSome := by
    rintro user ⟨account, haccount, hitem⟩
    refine ⟨_, by rw [save_accounts, haccount]; rfl, ?_⟩
    rw [hstate]
    exact hitem
  have haccounts : ∀ user account, (system.save playing now).accounts.get user = some account →
      account.Kept (lands (system.save playing now).saves user
        ((system.save playing now).stored.get user)) (Failing (system.save playing now).saves user) := by
    intro user account haccount
    rw [save_accounts] at haccount
    obtain ⟨old, hold, rfl⟩ := Option.map_eq_some_iff.mp haccount
    rw [save_row, hold]
    exact ((h.accounts user old hold).save playing now).imp (save_failing system playing now user).2
  generalize hnext : system.save playing now = next at hkeeps haccounts
  unfold System.save at hnext
  dsimp only at hnext
  split_ifs at hnext
  · rw [← hnext] at hkeeps haccounts ⊢
    exact ⟨h.ids, h.bounded, h.marks,
      fun save hsave user hrow => hkeeps user (h.items save hsave user hrow), haccounts⟩
  · rw [← hnext] at hkeeps haccounts ⊢
    refine ⟨?_, ?_, ?_, ?_, haccounts⟩
    · rw [List.map_append, List.map_singleton, List.nodup_append]
      refine ⟨h.ids, List.nodup_singleton _, ?_⟩
      intro id hid id' hid' heq
      obtain ⟨save, hsave, rfl⟩ := List.mem_map.mp hid
      have hlt := h.bounded save hsave
      have hnew : id' = system.nextId := List.mem_singleton.mp hid'
      omega
    · intro save hsave
      rcases List.mem_append.mp hsave with hold | hnew
      · exact (h.bounded save hold).trans (Nat.lt_succ_self _)
      · rw [List.mem_singleton.mp hnew]
        exact Nat.lt_succ_self _
    · intro save hsave hfailed
      rcases List.mem_append.mp hsave with hold | hnew
      · exact h.marks save hold hfailed
      · rw [List.mem_singleton.mp hnew]
    · intro save hsave user hrow
      apply hkeeps user
      rcases List.mem_append.mp hsave with hold | hnew
      · exact h.items save hold user hrow
      · rw [List.mem_singleton.mp hnew, HashMap.get_collect] at hrow
        obtain ⟨r, hr⟩ := Option.isSome_iff_exists.mp hrow
        obtain ⟨account, haccount, hsaved⟩ := Option.bind_eq_some_iff.mp hr
        exact ⟨account, haccount, by rw [(save_some hsaved).1]; rfl⟩

/-- Settling a write, which only one of an aborted save may not have failed. -/
theorem System.Kept.settle (h : system.Kept) (committed : Bool)
    (hcalm : (Event.settle committed).Calm system) : (system.settle committed).Kept := by
  unfold System.settle
  rcases settleFirst_spec committed system.saves system.stored with
    ⟨-, heq⟩ | ⟨before, save, after, hsaves, hfirst, hpending, hbefore, heq⟩
  · rw [heq]
    exact h
  · rw [heq]
    dsimp only
    obtain ⟨hids, hbounded, hmarks, hitems, haccounts⟩ := h
    rw [hsaves] at hids hbounded hmarks hitems haccounts
    have hmem : ∀ other ∈ before ++ { save with outcome := some committed } :: after,
        ∃ old ∈ before ++ save :: after, old.id = other.id ∧ old.rows = other.rows ∧
          old.aborted = other.aborted ∧ (other.outcome = some false →
            old.outcome = some false ∨ committed = false ∧ old = save) := by
      intro other hother
      rcases List.mem_append.mp hother with hin | hin
      · exact ⟨other, List.mem_append_left _ hin, rfl, rfl, rfl, .inl⟩
      · rcases List.mem_cons.mp hin with rfl | hin
        · refine ⟨save, List.mem_append_right _ List.mem_cons_self, rfl, rfl, rfl, ?_⟩
          exact fun hfailed => .inr ⟨Option.some_inj.mp hfailed, rfl⟩
        · exact ⟨other, List.mem_append_right _ (List.mem_cons_of_mem _ hin), rfl, rfl, rfl, .inl⟩
    have hfailing : ∀ user, Failing (before ++ save :: after) user →
        Failing (before ++ { save with outcome := some committed } :: after) user := by
      rintro user ⟨other, hother, hfailed, hrest⟩
      refine ⟨other, ?_, hfailed, hrest⟩
      rcases List.mem_append.mp hother with hin | hin
      · exact List.mem_append_left _ hin
      · rcases List.mem_cons.mp hin with rfl | hin
        · rw [hpending] at hfailed
          cases hfailed
        · exact List.mem_append_right _ (List.mem_cons_of_mem _ hin)
    have hunaborted : committed = false → save.aborted = false := by
      rintro rfl
      exact hcalm save hfirst
    refine ⟨?_, ?_, ?_, ?_, ?_⟩
    · simpa using hids
    · intro other hother
      obtain ⟨old, hold, hid, -⟩ := hmem other hother
      exact hid ▸ hbounded old hold
    · intro other hother hfailed
      obtain ⟨old, hold, -, -, haborted, hcause⟩ := hmem other hother
      rw [← haborted]
      rcases hcause hfailed with hwas | ⟨hcommitted, rfl⟩
      · exact hmarks old hold hwas
      · exact hunaborted hcommitted
    · intro other hother user hrow
      obtain ⟨old, hold, -, hrows, -⟩ := hmem other hother
      exact hitems old hold user (hrows ▸ hrow)
    · intro user account haccount
      have hkept := haccounts user account haccount
      rw [lands_pending hbefore hpending] at hkept
      rw [lands_past hbefore (Option.some_ne_none committed)]
      cases hcommitted : committed with
      | true =>
        rw [if_pos rfl, HashMap.get_merge]
        exact hkept.imp (hcommitted ▸ hfailing user)
      | false =>
        rw [if_neg Bool.false_ne_true]
        cases hrow : save.rows.get user with
        | none =>
          rw [hrow] at hkept
          exact hkept.imp (hcommitted ▸ hfailing user)
        | some r =>
          apply hkept.awaits
          refine ⟨{ save with outcome := some false }, List.mem_append_right _ List.mem_cons_self,
            rfl, hunaborted hcommitted, ?_⟩
          dsimp only
          rw [hrow]
          rfl

/-- The save that ends is the only one with its ID. -/
theorem System.Kept.find (h : system.Kept) {id : Nat} {save : Save}
    (hfind : system.saves.find? (fun save => save.id = id && save.outcome.isSome) = some save) :
    save ∈ system.saves ∧ save.id = id ∧ save.outcome ≠ none ∧
      ∀ other ∈ system.saves, other.id = id → other = save := by
  have hmem := List.mem_of_find?_eq_some hfind
  have hfound := List.find?_some hfind
  rw [Bool.and_eq_true, decide_eq_true_eq] at hfound
  obtain ⟨hid, hsettled⟩ := hfound
  refine ⟨hmem, hid, Option.isSome_iff_ne_none.mp hsettled, ?_⟩
  exact fun other hother heq => List.inj_on_of_nodup_map h.ids hother hmem (heq.trans hid.symm)

theorem System.Kept.lands_finish (h : system.Kept) {id : Nat} {save : Save}
    (hfind : system.saves.find? (fun save => save.id = id && save.outcome.isSome) = some save)
    (user : Int) (stored : Option Row) :
    lands (system.saves.filter fun other => other.id ≠ id) user stored =
      lands system.saves user stored := by
  obtain ⟨-, -, hsettled, honly⟩ := h.find hfind
  apply lands_without
  intro other hother hgone
  rw [honly other hother (by simpa using hgone)]
  exact hsettled

theorem System.Kept.finish (h : system.Kept) (id : Nat) : (system.finish id).Kept := by
  unfold System.finish
  cases hfind : system.saves.find? fun save => save.id = id && save.outcome.isSome with
  | none => exact h
  | some save =>
    obtain ⟨-, -, -, honly⟩ := h.find hfind
    have hleft : ∀ user, Failing system.saves user → ¬ (save.outcome = some false ∧
        save.aborted = false ∧ (save.rows.get user).isSome) →
        Failing (system.saves.filter fun other => other.id ≠ id) user := by
      rintro user ⟨other, hother, hfailed⟩ hnot
      refine ⟨other, List.mem_filter.mpr ⟨hother, ?_⟩, hfailed⟩
      rw [decide_eq_true_iff]
      rintro heq
      rw [honly other hother heq] at hfailed
      exact hnot hfailed
    dsimp only
    split_ifs with hfails
    · obtain ⟨hfailed, haborted⟩ := Bool.and_eq_true_iff.mp hfails
      refine ⟨h.ids.sublist (List.filter_sublist.map _),
        fun other hother => h.bounded other (List.mem_of_mem_filter hother),
        fun other hother => h.marks other (List.mem_of_mem_filter hother), ?_, ?_⟩
      · intro other hother user hrow
        obtain ⟨account, haccount, hitem⟩ := h.items other (List.mem_of_mem_filter hother) user hrow
        dsimp only
        rw [HashMap.get_change, haccount]
        refine ⟨_, rfl, ?_⟩
        split_ifs
        · exact hitem
        · exact hitem
      · intro user account haccount
        dsimp only at haccount ⊢
        rw [HashMap.get_change] at haccount
        obtain ⟨old, hold, rfl⟩ := Option.map_eq_some_iff.mp haccount
        have hkept := h.accounts user old hold
        rw [h.lands_finish hfind]
        split_ifs with hrow
        · exact hkept.marked
        · exact hkept.imp fun hfailing => hleft user hfailing fun hsave => hrow hsave.2.2
    · refine ⟨h.ids.sublist (List.filter_sublist.map _),
        fun other hother => h.bounded other (List.mem_of_mem_filter hother),
        fun other hother => h.marks other (List.mem_of_mem_filter hother),
        fun other hother => h.items other (List.mem_of_mem_filter hother), ?_⟩
      intro user account haccount
      dsimp only
      rw [h.lands_finish hfind]
      refine (h.accounts user account haccount).imp fun hfailing => hleft user hfailing ?_
      rintro ⟨hfailed, haborted, -⟩
      rw [hfailed, haborted] at hfails
      exact hfails rfl

/-- A save as it is once the task of `id` was aborted. -/
def Save.abort (id : Nat) (save : Save) : Save :=
  if save.id = id then { save with aborted := true } else save

theorem Save.abort_same (id : Nat) (save : Save) : (save.abort id).id = save.id ∧
    (save.abort id).rows = save.rows ∧ (save.abort id).outcome = save.outcome := by
  unfold abort
  split_ifs <;> exact ⟨rfl, rfl, rfl⟩

/-- A save whose caller gives up lands as it would have. -/
theorem lands_abort (id : Nat) (saves : List Save) (user : Int) (stored : Option Row) :
    lands (saves.map (Save.abort id)) user stored = lands saves user stored := by
  rw [lands, List.foldl_map]
  simp only [(Save.abort_same id _).2.1, (Save.abort_same id _).2.2]
  rfl

theorem System.Kept.abort (h : system.Kept) (id : Nat) (hcalm : (Event.abort id).Calm system) :
    (system.abort id).Kept := by
  have hmem : ∀ save ∈ (system.abort id).saves, ∃ old ∈ system.saves, old.abort id = save :=
    fun save hsave => List.mem_map.mp hsave
  have hleft : ∀ save, save ∈ system.saves → save.outcome = some false → save.abort id = save :=
    fun save hsave hfailed => if_neg fun hid => hcalm save hsave hid hfailed
  refine ⟨?_, ?_, ?_, ?_, ?_⟩
  · have hids : (system.abort id).saves.map Save.id = system.saves.map Save.id := by
      change (system.saves.map (Save.abort id)).map Save.id = _
      rw [List.map_map]
      exact List.map_congr_left fun save _ => (save.abort_same id).1
    exact hids ▸ h.ids
  · intro save hsave
    obtain ⟨old, hold, rfl⟩ := hmem save hsave
    exact (old.abort_same id).1 ▸ h.bounded old hold
  · intro save hsave hfailed
    obtain ⟨old, hold, rfl⟩ := hmem save hsave
    rw [(old.abort_same id).2.2] at hfailed
    rw [hleft old hold hfailed]
    exact h.marks old hold hfailed
  · intro save hsave user hrow
    obtain ⟨old, hold, rfl⟩ := hmem save hsave
    exact h.items old hold user ((old.abort_same id).2.1 ▸ hrow)
  · intro user account haccount
    have hkept := h.accounts user account haccount
    change account.Kept (lands (system.saves.map (Save.abort id)) user (system.stored.get user))
      (Failing (system.saves.map (Save.abort id)) user)
    rw [lands_abort]
    refine hkept.imp ?_
    rintro ⟨save, hsave, hfailed, hrest⟩
    exact ⟨save, List.mem_map.mpr ⟨save, hsave, hleft save hsave hfailed⟩, hfailed, hrest⟩

/-- **Every calm event** keeps it. -/
theorem System.Kept.step (h : system.Kept) (event : Event) (hcalm : event.Calm system) :
    (system.step event).Kept := by
  cases event with
  | report user device connection update now => exact h.report user device connection update now
  | disconnected user connection heardAt now => exact h.disconnected user connection heardAt now
  | save playing now => exact h.save playing now
  | settle committed => exact h.settle committed hcalm
  | finish id => exact h.finish id
  | abort id => exact h.abort id hcalm

/-- **Every calm run** keeps it. -/
theorem System.Kept.run (h : system.Kept) {events : List Event} (hcalm : Calm system events) :
    (system.run events).Kept := by
  induction events generalizing system with
  | nil => exact h
  | cons event rest ih => exact ih (h.step event hcalm.1) hcalm.2

end JewelCase.Player.Saved
