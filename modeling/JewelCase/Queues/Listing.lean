import Mathlib.Algebra.GroupWithZero.Nat
import Mathlib.Data.Prod.Lex
import Mathlib.Data.String.Basic
import JewelCase.Library.Pages
import JewelCase.Queues.Failures

/-!
# Listing an account's kept queues

`crates/server/src/queue/listing.rs`, for one account. The tracks of the slots listed are read by a
parameter, from the held lists and the database.
-/
namespace JewelCase.Queues

open JewelCase.Library.Pages (Followed)
open JewelCase.Library.Windows
open JewelCase.Queue (QueueState ItemId ReadRow)

set_option autoImplicit false

/-- Where a queue sits in the listing: its `last_active`, then its ID, both newest first. A queue
parked and not yet saved has no stored time, so it sorts before every stored one. -/
abbrev Key := Int ×ₗ Uuid

/-- The sort time of a parked queue not yet saved. -/
def UNSAVED : Int := 9223372036854775807

/-- A row as taken under the lock, before its track is read. -/
structure Slot where
  item : ItemId
  libraryId : String
  /-- The row's list by hash and the position in it, or none where the source has no list. -/
  list : Option (String × Nat)
deriving DecidableEq

/-- What a kept queue was playing: the library, and the track unless it can't be read. -/
structure Current where
  libraryId : String
  trackId : Option Nat
deriving DecidableEq

/-- One kept queue as listed: what was playing, and how many rows each tab holds. -/
structure Entry where
  queueId : Uuid
  context : String
  /-- When the queue was parked; the time of the listing for one not yet saved. -/
  lastActive : Int
  current : Option Current
  upNext : Nat
  history : Nat
deriving DecidableEq

/-- A page of the listing, the key to continue after if there is more, and how many kept queues the
whole listing holds. -/
structure Listed where
  entries : List Entry
  next : Option Key
  total : Nat
deriving DecidableEq

/-- A queue's entry before its current track is read. -/
structure Draft where
  queueId : Uuid
  context : String
  lastActive : Int
  current : Option Slot
  upNext : Nat
  history : Nat

/-- What an account has parked in memory. -/
structure Parked where
  /-- The adjusted queues, the others being due for deletion. -/
  drafts : List Draft
  /-- The IDs the stored rows must not repeat: every parked queue, and the active one. -/
  hidden : List Uuid
  held : HeldLists

/-- `row` of `state` as a slot, or none if its source is not in the state. -/
def slot (state : QueueState) (row : ReadRow) : Option Slot :=
  (state.source row.source).map fun source =>
    ⟨row.item, source.libraryId, source.hash.map (·, row.position)⟩

/-- What `state` says about the queue, which needs no lists. -/
def Draft.new (queueId : Uuid) (context : String) (lastActive : Int) (state : QueueState) : Draft :=
  ⟨queueId, context, lastActive, state.currentRow.bind (slot state), state.upNextLen,
    state.historyLen⟩

/-- What the account has parked and not yet saved, and its held lists. -/
def parked (account : Option Account) (now : Int) : Parked :=
  match account with
  | none => ⟨[], [], .empty⟩
  | some account =>
    { drafts := (account.parked.filter (·.state.adjusted)).map fun queue =>
        Draft.new queue.queueId queue.context now queue.state
      hidden := account.parked.map (·.queueId) ++ [account.queueId]
      held := account.lists }

/-- The key of a kept queue's row, which has a `last_active`. -/
def Stored.key (row : Stored) : Option Key := row.lastActive.map fun at' => toLex (at', row.queueId)

/-- A row as listed. One that can't be read has no draft. -/
def Stored.candidate (row : Stored) : Option (Key × Option Draft) :=
  row.key.map fun key =>
    (key, row.content.map fun content => Draft.new row.queueId content.1 (ofLex key).1 content.2)

/-- Up to `limit` of the stored kept queues after `after`, newest first, keyed for paging. -/
def stored (disk : Disk) (after : Option Key) (limit : Nat) : List (Key × Option Draft) :=
  let kept := disk.rows.filter fun row => ¬row.active ∧ row.key.all fun key => after.all (key < ·)
  (newest Prod.fst (kept.filterMap Stored.candidate)).take limit

/-- How many stored kept queues are not in `hidden`, readable or not. -/
def count (disk : Disk) (hidden : List Uuid) : Nat :=
  disk.rows.countP fun row => ¬row.active ∧ row.queueId ∉ hidden

/-- The entries of drafts, and the tracks read for those that have a current row, in their order. -/
def entriesOf : List Draft → List (Option Nat) → List Entry
  | [], _ => []
  | draft :: drafts, tracks =>
    let entry := fun current : Option Current =>
      (⟨draft.queueId, draft.context, draft.lastActive, current, draft.upNext, draft.history⟩ : Entry)
    match draft.current with
    | none => entry none :: entriesOf drafts tracks
    | some slot => entry (some ⟨slot.libraryId, tracks.head?.join⟩) :: entriesOf drafts tracks.tail

/-- Up to `limit` of the kept queues after `after`, most recently parked first, and where the next
page continues, if there is one. -/
def kept (readTracks : List Slot → HeldLists → List (Option Nat)) (account : Option Account)
    (disk : Disk) (now : Int) (after : Option Key) (limit : Nat) : Listed :=
  let memory := parked account now
  let drafts := memory.drafts.map fun draft => (toLex (UNSAVED, draft.queueId), some draft)
  let drafts := newest Prod.fst (drafts.filter fun draft => after.all fun key => decide (draft.1 < key))
  let rows := (stored disk after (limit + 1)).filter fun row => (ofLex row.1).2 ∉ memory.hidden
  let candidates := drafts ++ rows
  let page := candidates.take limit
  let next := if limit < candidates.length then page.getLast?.map Prod.fst else none
  let drafts := page.filterMap Prod.snd
  { entries := entriesOf drafts (readTracks (drafts.filterMap (·.current)) memory.held)
    next
    total := memory.drafts.length + count disk memory.hidden }

end JewelCase.Queues
