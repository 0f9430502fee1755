import JewelCase.Queue.SpanList
import JewelCase.Queue.Permutation

/-!
# The queue's state

`crates/core/src/queue/state.rs` and `cleanup.rs`: the sources, copies, lists and plays of one
account's queue, how a start builds it and how clean-up drops what nothing refers to. How a
list was made (`recipe`) is left out: no operation of the queue reads it.

An operation that can be refused answers its result together with the state after it, so that
what a refusal leaves behind is something to prove.
-/
namespace JewelCase.Queue

set_option autoImplicit false

/-- An item: position `pos` of the source or copy keyed `key`. -/
structure ItemId where
  key : String
  pos : Nat
deriving DecidableEq, Repr

/-- A frozen list as a queue holds it: its length always, its hash once the server confirms
it, and its track IDs once attached. -/
structure Source where
  key : String
  libraryId : String
  hash : Option String
  length : Nat
  tracks : Option (List Nat)
deriving DecidableEq, Repr

/-- A copy of some spans under a new identity: its position `p` is item `p` of `key`. -/
structure QueueCopy where
  key : String
  of : SpanList
deriving DecidableEq

/-- A run of consecutive plays of consecutive positions of one view. -/
structure Run where
  first : Nat
  span : Span
deriving DecidableEq, Repr

/-- The context's one shuffle. -/
structure Shuffle where
  seed : UInt32
  base : SpanList
deriving DecidableEq

/-- How many runs History keeps. -/
@[irreducible] def historyRuns : Nat := 1000

theorem historyRuns_pos : 0 < historyRuns := by
  unfold historyRuns
  omega

/-- The span of one position that `item` names. -/
def playSpan (item : ItemId) : Span := ⟨.key item.key, item.pos, 1⟩

/-- What happens when the context ends. -/
inductive Repeat where
  | off
  | all
  | one
deriving DecidableEq, Repr

/-- Why an operation on the queue was refused. -/
inductive QueueError where
  | duplicateKey
  | outOfRange
  | unknownSource
  | lengthMismatch
  | anchorGone
  | playGone
deriving DecidableEq, Repr

/-- An account's queue: a few spans over views of frozen lists. -/
structure QueueState where
  sources : List Source
  copies : List QueueCopy
  manual : SpanList
  order : SpanList
  cursor : Nat
  current : Option ItemId
  history : List Run
  nextPlay : Nat
  shuffle : Option Shuffle
  repeatMode : Repeat
  adjusted : Bool
deriving DecidableEq

/-- The answer of an operation that can be refused, and the state it leaves. -/
abbrev Outcome := Except QueueError Unit × QueueState

namespace QueueState

/-- No queue. -/
def default : QueueState where
  sources := []
  copies := []
  manual := .empty
  order := .empty
  cursor := 0
  current := none
  history := []
  nextPlay := 0
  shuffle := none
  repeatMode := .off
  adjusted := false

/-- The source keyed `key`. -/
def source (q : QueueState) (key : String) : Option Source := q.sources.find? (·.key = key)

/-- The copy keyed `key`. -/
def copy (q : QueueState) (key : String) : Option QueueCopy := q.copies.find? (·.key = key)

/-- Whether `key` names a source or a copy. -/
def hasKey (q : QueueState) (key : String) : Bool :=
  (q.source key).isSome || q.copies.any (·.key = key)

/-- Starts a new queue over `source`, replacing this one, with position `at` current and the
Manual Queue empty. Only the repeat mode carries over. -/
def start (q : QueueState) (source : Source) (position : Nat) : Outcome :=
  if q.hasKey source.key then (.error .duplicateKey, q)
  else if position ≥ source.length then (.error .outOfRange, q)
  else
    (.ok (), { default with
      order := .fromSpans [⟨.key source.key, 0, source.length⟩]
      cursor := position + 1
      current := some ⟨source.key, position⟩
      sources := [source]
      repeatMode := q.repeatMode })

/-! ### Clean-up -/

end QueueState

/-- The key a view reads, unless it is the shuffle. -/
def View.key? : View → Option String
  | .key k => some k
  | .shuffle => none

/-- Adds the keys `list` reads to `keys`. -/
def addKeys (list : SpanList) (keys : List String) : List String :=
  keys ++ list.spans.filterMap (·.view.key?)

namespace QueueState

/-- The keys that the playing item, the lists and the History runs read. -/
def usedKeys (q : QueueState) : List String :=
  let used := (q.current.map (·.key)).toList
  let used := addKeys q.manual used
  let used := addKeys q.order used
  let used := q.shuffle.elim used fun shuffle => addKeys shuffle.base used
  used ++ q.history.filterMap (·.span.view.key?)

/-- Drops every copy and source nothing refers to: a surviving copy keeps the sources it
names. -/
def cleanUp (q : QueueState) : QueueState :=
  let used := q.usedKeys
  let copies := q.copies.filter (·.key ∈ used)
  let used := copies.foldl (fun used copy => addKeys copy.of used) used
  { q with copies := copies, sources := q.sources.filter (·.key ∈ used) }

end QueueState

end JewelCase.Queue

/-!
## Reading rows and finding items

`crates/core/src/queue/read.rs`: which item a row plays, what it reads, and where an item is.
-/
namespace JewelCase.Queue

set_option autoImplicit false

/-- One row of the queue as it is read: its item, the source and position it reads there, and
its track once the list is attached. -/
structure ReadRow where
  item : ItemId
  source : String
  position : Nat
  track : Option Nat
deriving DecidableEq, Repr

/-- The view a key names. -/
def ItemId.view (item : ItemId) : View := .key item.key

namespace QueueState

/-- The number of rows in Up Next: the Manual Queue, then the context past the cursor. -/
def upNextLen (q : QueueState) : Nat := q.manual.len + (q.order.len - q.cursor)

/-- The item that position `pos` of `view` plays: a list or copy row plays itself, and a
shuffle row plays the base row the permutation maps it to. -/
def itemOf (q : QueueState) (view : View) (pos : Nat) : Option ItemId :=
  match view with
  | .key key => some ⟨key, pos⟩
  | .shuffle =>
    match q.shuffle with
    | none => none
    | some shuffle =>
      let m := shuffle.base.len
      if pos ≥ m then none
      else
        match shuffle.base.get (permute shuffle.seed m pos) with
        | some (.key key, p) => some ⟨key, p⟩
        | _ => none

/-- The item at row `index` of `spans`, read through the shuffle if the row is one. -/
def itemAt (q : QueueState) (spans : SpanList) (index : Nat) : Option ItemId :=
  match spans.get index with
  | some (view, pos) => q.itemOf view pos
  | none => none

/-- The row for position `pos` of the source or copy `key`: a copy's position reads the source
position its spans name. -/
def rowOf (q : QueueState) (key : String) (pos : Nat) : Option ReadRow :=
  let read (source : Source) (position : Nat) : Option ReadRow :=
    if position ≥ source.length then none
    else some ⟨⟨key, pos⟩, source.key, position, source.tracks.bind (·[position]?)⟩
  match q.source key with
  | some source => read source pos
  | none =>
    match q.copy key with
    | none => none
    | some copy =>
      match copy.of.get pos with
      | some (.key k, p) => (q.source k).bind (read · p)
      | _ => none

/-- Row `index` of `spans`. -/
def rowIn (q : QueueState) (spans : SpanList) (index : Nat) : Option ReadRow :=
  (q.itemAt spans index).bind fun item => q.rowOf item.key item.pos

/-- Up Next row `index`, or `none` past the end or where the row can't be read. -/
def upNextRow (q : QueueState) (index : Nat) : Option ReadRow :=
  if index < q.manual.len then q.rowIn q.manual index
  else q.rowIn q.order (q.cursor + (index - q.manual.len))

/-- Context row `index`, the passed part included. -/
def contextRow (q : QueueState) (index : Nat) : Option ReadRow := q.rowIn q.order index

/-- The row of the item playing. -/
def currentRow (q : QueueState) : Option ReadRow :=
  q.current.bind fun item => q.rowOf item.key item.pos

/-- The row of the context that reads `item`, passed rows included. While shuffled, an item of
the base is found by its base position and then the inverse permutation. -/
def orderRowOf (q : QueueState) (item : ItemId) : Option Nat :=
  match q.order.find item.view item.pos with
  | some row => some row
  | none =>
    match q.shuffle with
    | none => none
    | some shuffle =>
      match shuffle.base.find item.view item.pos with
      | none => none
      | some base => q.order.find .shuffle (unpermute shuffle.seed shuffle.base.len base)

/-- `n - k`, unless that is negative. -/
def checkedSub (n k : Nat) : Option Nat := if k ≤ n then some (n - k) else none

/-- The Up Next index of `item`, or `none` if it isn't in Up Next. The Manual Queue is searched
first, and a context item counts only past the cursor. -/
def findItem (q : QueueState) (item : ItemId) : Option Nat :=
  match q.manual.find item.view item.pos with
  | some i => some i
  | none =>
    match q.orderRowOf item with
    | none => none
    | some i => (checkedSub i q.cursor).map (q.manual.len + ·)

end QueueState

end JewelCase.Queue
