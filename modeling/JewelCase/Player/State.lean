import Mathlib.Order.Lattice
import JewelCase.Library.Keyed

/-!
# Playback state

`crates/server/src/api/player.rs` and `crates/server/src/api/player/progress.rs`: the state the
server keeps of what an account plays, and what a report or a connection's end makes of it. Whether
it has been saved is left out.
-/
namespace JewelCase.Player

set_option autoImplicit false

def U32_MAX : Nat := 4294967295

abbrev U32 := { n : Nat // n ≤ U32_MAX }

/-- `u32::saturating_add` of an unbounded number. -/
def U32.saturatingAdd (n : U32) (more : Nat) : U32 := ⟨min (n.val + more) U32_MAX, Nat.min_le_right _ _⟩

inductive Status where
  | playing
  | paused
  | stopped
deriving DecidableEq, Repr

structure PlayerState where
  status : Status
  /-- The device playing or paused; `none` when stopped. -/
  activeDeviceId : Option Int
  /-- Which of that device's connections plays. -/
  activeConnection : Option Nat
  itemId : Option String
  positionMs : U32
  /-- When `positionMs` was true, in server time. -/
  positionAt : Int
  volume : Option Rat
deriving DecidableEq

/-- The state of an account that has not played anything. -/
def PlayerState.initial (now : Int) : PlayerState :=
  ⟨.stopped, none, none, none, ⟨0, Nat.zero_le _⟩, now, none⟩

/-- Where playback is at `now`. A clock that stepped back counts as no time. -/
def PlayerState.playedTo (state : PlayerState) (now : Int) : U32 :=
  match state.status with
  | .playing => state.positionMs.saturatingAdd (now - state.positionAt).toNat
  | .paused | .stopped => state.positionMs

/-- A saved state, as it is loaded. -/
def PlayerState.loaded (itemId : String) (positionMs : U32) (now : Int) : PlayerState :=
  { PlayerState.initial now with itemId := some itemId, positionMs := positionMs }

inductive Reported where
  | playing
  | paused
  | stopped
  | buffering
deriving DecidableEq, Repr

/-- Nothing advances while buffering. -/
def Reported.status : Reported → Status
  | .playing => .playing
  | .paused | .buffering => .paused
  | .stopped => .stopped

structure ProgressReport where
  itemId : String
  status : Reported
  positionMs : U32
  volume : Option Rat
  start : Bool
deriving DecidableEq

inductive Problem where
  | invalid (detail : String)
  | notFound
  | deviceUnavailable (detail : String)
  | rateLimited (wait : Nat) (detail : String)
deriving DecidableEq, Repr

def Problem.explanation : Problem → Option String
  | .invalid detail | .deviceUnavailable detail | .rateLimited _ detail => some detail
  | .notFound => none

def ProgressReport.starts (report : ProgressReport) : Bool :=
  report.start && !decide (report.status = .stopped)

/-- Applies a report of `device` over `connection`. -/
def report (account : Option PlayerState) (device : Int) (connection : Nat) (now : Int)
    (report : ProgressReport) : Except Problem PlayerState :=
  let active := account.bind PlayerState.activeConnection
  if !report.starts && !decide (active = some connection) then
    .error (.invalid "Only the playing connection reports, unless it starts.")
  else
    let state := account.getD (.initial now)
    let status := report.status.status
    -- Volume belongs to the device: a device taking over does not inherit the last's.
    let volume := if report.volume.isSome || !decide (state.activeDeviceId = some device) then
      report.volume else state.volume
    let playing := status ≠ .stopped
    .ok
      { status := status
        activeDeviceId := if playing then some device else none
        activeConnection := if playing then some connection else none
        itemId := some report.itemId
        positionMs := report.positionMs
        positionAt := now
        volume := volume }

/-- What the end of `connection` makes of a state, if it was the one playing. -/
def disconnected (account : Option PlayerState) (connection : Nat) (heardAt now : Int) :
    Option PlayerState :=
  account.bind fun state =>
    if state.activeConnection = some connection then
      some { state with
        positionMs := state.playedTo heardAt
        positionAt := now
        status := .stopped
        activeDeviceId := none
        activeConnection := none }
    else none

/-! ### What a state names -/

/-- A device and a connection are named together, exactly when the status is not stopped. -/
structure PlayerState.Consistent (state : PlayerState) : Prop where
  device : state.activeDeviceId.isSome ↔ state.status ≠ .stopped
  connection : state.activeConnection.isSome ↔ state.status ≠ .stopped

theorem loaded_consistent (itemId : String) (positionMs : U32) (now : Int) :
    (PlayerState.loaded itemId positionMs now).Consistent := by
  constructor <;> simp [PlayerState.loaded, PlayerState.initial]

/-- Everything an applied report does. -/
theorem report_ok {account : Option PlayerState} {device : Int} {connection : Nat} {now : Int}
    {update : ProgressReport} {state : PlayerState}
    (h : report account device connection now update = .ok state) :
    (update.starts = true ∨ account.bind PlayerState.activeConnection = some connection) ∧
    state.Consistent ∧ state.status = update.status.status ∧
    (state.status ≠ .stopped →
      state.activeDeviceId = some device ∧ state.activeConnection = some connection) ∧
    state.itemId = some update.itemId ∧ state.positionMs = update.positionMs ∧
    state.positionAt = now ∧
    (state.volume = update.volume ∨ update.volume = none ∧
      account.bind PlayerState.activeDeviceId = some device ∧
      state.volume = account.bind PlayerState.volume) := by
  rw [report] at h
  split_ifs at h with hrefused
  obtain rfl := Except.ok.inj h
  simp only [Bool.and_eq_true, Bool.not_eq_true', decide_eq_false_iff_not, not_and] at hrefused
  refine ⟨?_, ?_, rfl, ?_, rfl, rfl, rfl, ?_⟩
  · by_cases hstarts : update.starts = true
    · exact .inl hstarts
    · exact .inr (not_not.mp (hrefused (Bool.eq_false_iff.mpr hstarts)))
  · constructor
    · simp only
      split_ifs with hstatus <;> simp [hstatus]
    · simp only
      split_ifs with hstatus <;> simp [hstatus]
  · intro hstatus
    exact ⟨if_pos hstatus, if_pos hstatus⟩
  · simp only
    cases hvolume : update.volume with
    | some volume => exact .inl rfl
    | none =>
      cases account with
      | none => exact .inl rfl
      | some old =>
        by_cases hdevice : old.activeDeviceId = some device
        · refine .inr ⟨rfl, hdevice, ?_⟩
          simp [hdevice]
        · refine .inl ?_
          simp [hdevice]

theorem playedTo_le (state : PlayerState) (now : Int) :
    state.positionMs.val ≤ (state.playedTo now).val ∧
      (state.playedTo now).val ≤ state.positionMs.val + (now - state.positionAt).toNat := by
  have hbound := state.positionMs.property
  rw [PlayerState.playedTo]
  split
  · simp only [U32.saturatingAdd]
    omega
  all_goals omega

/-- Everything the end of the connection playing does. -/
theorem disconnected_some {account : Option PlayerState} {connection : Nat} {heardAt now : Int}
    {state : PlayerState} (h : disconnected account connection heardAt now = some state) :
    ∃ old, account = some old ∧ old.activeConnection = some connection ∧
      state = { old with
        positionMs := old.playedTo heardAt, positionAt := now, status := .stopped,
        activeDeviceId := none, activeConnection := none } := by
  obtain ⟨old, rfl, hold⟩ := Option.bind_eq_some_iff.mp h
  split_ifs at hold with hactive
  exact ⟨old, rfl, hactive, (Option.some.inj hold).symm⟩

theorem disconnected_none {account : Option PlayerState} {connection : Nat} {heardAt now : Int}
    (h : disconnected account connection heardAt now = none) :
    account.bind PlayerState.activeConnection ≠ some connection := by
  intro hactive
  obtain ⟨old, rfl, hold⟩ := Option.bind_eq_some_iff.mp hactive
  rw [disconnected, Option.bind_some, if_pos hold] at h
  cases h

end JewelCase.Player

/-!
## Playback state kept across restarts

`crates/server/src/api/player/saved.rs`: a report only marks its account's state as unsaved, and a save
writes every unsaved state together. A write commits or fails as a whole, in the order issued; the
save that issued it may have been aborted by then. The two clocks read one time.
-/
namespace JewelCase.Player.Saved

set_option autoImplicit false

open JewelCase.Library (HashMap)

/-- A monotonic clock's reading, in nanoseconds. -/
abbrev Instant := Nat

/-- `now_ms` -/
def nowMs (now : Instant) : Int := (now / 1000000 : Nat)

/-- How far from where its last save puts it an account playing on may be before it counts as a seek,
in milliseconds. -/
def PLAYING_ON_WITHIN : Nat := 2000

/-- How long the place of an account playing on through the same item may go unsaved. -/
def SAVE_PLAYING_EVERY : Nat := 60 * 1000000000

/-- What is saved of an account, and when it was taken, which is not stored. -/
structure Row where
  item : String
  positionMs : U32
  takenAt : Instant
deriving DecidableEq

/-- An account's state as the server keeps it. -/
structure Account where
  state : PlayerState
  /-- Whether it changed since it was last saved. -/
  unsaved : Bool
  /-- The item and position it was last saved at, and when. -/
  saved : Option Row
deriving DecidableEq

/-- Where an account's last save says it would be by now. -/
def Row.expected (row : Row) (now : Instant) : Nat := row.positionMs.val + (now - row.takenAt) / 1000000

/-- `u128::abs_diff` -/
def absDiff (a b : Nat) : Nat := (a - b) + (b - a)

/-- Whether an account at `position` in `item` only plays on from where it was saved less than
`playing` ago. -/
def Row.playingOn (row : Row) (item : String) (position : U32) (playing : Nat) (now : Instant) : Bool :=
  decide (row.item = item) && decide (now - row.takenAt < playing) &&
    decide (absDiff position.val (row.expected now) < PLAYING_ON_WITHIN)

/-- What a save makes of an account, and the row that it writes of it, if any. -/
def Account.save (account : Account) (playing : Nat) (now : Instant) : Account × Option Row :=
  match account.unsaved, account.state.itemId with
  | true, some item =>
    -- Saved as far as it has played, which a restart would otherwise lose.
    let position := account.state.playedTo (nowMs now)
    if account.state.status = .playing &&
        account.saved.any fun row => row.playingOn item position playing now then (account, none)
    else
      let row : Row := ⟨item, position, now⟩
      -- Still unsaved while playing, so its place keeps being saved as it moves on.
      (⟨account.state, decide (account.state.status = .playing), some row⟩, some row)
  | _, _ => (account, none)

/-- Marks an account whose save failed, to be tried again. -/
def Account.failed (account : Account) : Account := { account with unsaved := true, saved := none }

/-- A save that has issued its write. -/
structure Save where
  id : Nat
  rows : HashMap Int Row
  /-- Whether its write committed, once it has. -/
  outcome : Option Bool
  /-- Whether its task was aborted, so that nothing follows its write. -/
  aborted : Bool

/-- The accounts, what is stored, and the saves under way in the order of their writes. -/
structure System where
  accounts : HashMap Int Account
  stored : HashMap Int Row
  saves : List Save
  nextId : Nat

/-- As the server starts, with every active account's state as saved. -/
def System.load (stored : HashMap Int Row) (active : Int → Bool) (now : Instant) : System :=
  ⟨stored.collect fun user row => if active user then
    some ⟨.loaded row.item row.positionMs (nowMs now), false, none⟩ else none, stored, [], 0⟩

/-- What happens. -/
inductive Event where
  | report (user device : Int) (connection : Nat) (report : ProgressReport) (now : Instant)
  | disconnected (user : Int) (connection : Nat) (heardAt : Int) (now : Instant)
  | save (playing : Nat) (now : Instant)
  /-- The first write of those issued commits or fails. -/
  | settle (committed : Bool)
  /-- A save whose write has settled goes on, and ends. -/
  | finish (id : Nat)
  | abort (id : Nat)
deriving DecidableEq

namespace System

/-- Puts a changed state in place, unsaved. -/
def changed (system : System) (user : Int) (state : PlayerState) : System :=
  let saved := (system.accounts.get user).bind Account.saved
  { system with accounts := system.accounts.insert user ⟨state, true, saved⟩ }

def report (system : System) (user device : Int) (connection : Nat) (report : ProgressReport)
    (now : Instant) : System :=
  match Player.report ((system.accounts.get user).map Account.state) device connection (nowMs now)
    report with
  | .error _ => system
  | .ok state => system.changed user state

def disconnected (system : System) (user : Int) (connection : Nat) (heardAt : Int) (now : Instant) :
    System :=
  match Player.disconnected ((system.accounts.get user).map Account.state) connection heardAt
    (nowMs now) with
  | none => system
  | some state => system.changed user state

/-- Saves every state changed since it was last saved, in one write, except where an account plays on
through the item it was saved at less than `playing` ago, where that save says it would be by now. -/
def save (system : System) (playing : Nat) (now : Instant) : System :=
  let rows := system.accounts.collect fun _ account => (account.save playing now).2
  let accounts := system.accounts.change fun _ account => (account.save playing now).1
  if rows.isEmpty then { system with accounts }
  else
    ⟨accounts, system.stored, system.saves ++ [⟨system.nextId, rows, none, false⟩],
      system.nextId + 1⟩

/-- Settles the first write that has not. -/
def settleFirst (committed : Bool) : List Save → HashMap Int Row → List Save × HashMap Int Row
  | [], stored => ([], stored)
  | save :: rest, stored =>
    match save.outcome with
    | none => ({ save with outcome := some committed } :: rest,
        if committed then stored.merge save.rows else stored)
    | some _ =>
      let (rest, stored) := settleFirst committed rest stored
      (save :: rest, stored)

def settle (system : System) (committed : Bool) : System :=
  let (saves, stored) := settleFirst committed system.saves system.stored
  { system with saves, stored }

/-- Ends a save. One whose write failed marks its accounts. -/
def finish (system : System) (id : Nat) : System :=
  match system.saves.find? fun save => save.id = id && save.outcome.isSome with
  | none => system
  | some save =>
    let saves := system.saves.filter fun other => other.id ≠ id
    if save.outcome = some false && !save.aborted then
      { system with
        saves
        accounts := system.accounts.change fun user account =>
          if (save.rows.get user).isSome then account.failed else account }
    else { system with saves }

def abort (system : System) (id : Nat) : System :=
  { system with saves := system.saves.map fun save =>
      if save.id = id then { save with aborted := true } else save }

def step (system : System) : Event → System
  | .report user device connection report now => system.report user device connection report now
  | .disconnected user connection heardAt now => system.disconnected user connection heardAt now
  | .save playing now => system.save playing now
  | .settle committed => system.settle committed
  | .finish id => system.finish id
  | .abort id => system.abort id

def run (system : System) (events : List Event) : System := events.foldl step system

end System
end JewelCase.Player.Saved
