import JewelCase.Queue.Rewind

/-!
# Edits

`crates/core/src/queue/edit.rs`: the edits that change a queue's Up Next. Edits name items,
never positions.
-/
namespace JewelCase.Queue

set_option autoImplicit false

/-- Where an add or move lands. -/
inductive Anchor where
  | manualStart
  | manualEnd
  | contextEnd
  | before (item : ItemId)
deriving DecidableEq, Repr

/-- One change to a queue. -/
inductive Edit where
  | add (source : Source) (before : Anchor)
  | remove (items : List ItemId)
  | move (items : List ItemId) (before : Anchor)
  | jump (item : ItemId)
  | next
  | removePlays (plays : List PlayRef)
  | requeue (play : PlayRef) (key : String)
  | previous (key : String)
  | rewind (play : PlayRef) (key : String)
  | shuffle (on : Bool) (seed : UInt32)
  | repeatMode (mode : Repeat)
deriving DecidableEq, Repr

/-- Where rows are put: an index in the Manual Queue, or in the context's `order`. -/
inductive Spot where
  | manual (index : Nat)
  | order (index : Nat)
deriving DecidableEq, Repr

/-- Whether rows put at a spot join the Manual Queue. -/
def Spot.isManual : Spot → Bool
  | .manual _ => true
  | .order _ => false

/-- An item as the sweeps name it. -/
def ItemId.keyPos (item : ItemId) : KeyPos := (item.key, item.pos)

namespace QueueState

/-- The Up Next indices of the named items that are in Up Next, ascending and distinct. -/
def resolve (q : QueueState) (items : List ItemId) : List Nat :=
  let sorted := dedup (sortItems (items.map ItemId.keyPos))
  let manual := q.manual.findSorted sorted
  let order := q.orderRowsOf sorted
  let found := (manual.zip order).filterMap fun (manual, order) =>
    match manual with
    | some i => some i
    | none => (order.bind (checkedSub · q.cursor)).map (q.manual.len + ·)
  dedup (sortRows found)

/-- The context rows of the passed places that the Manual Queue rows at `manual` have. -/
def passedRows (q : QueueState) (manual : List Nat) : List Nat :=
  let items := manual.filterMap (q.itemAt q.manual ·)
  let sorted := sortItems (items.map ItemId.keyPos)
  ((q.orderRowsOf sorted).filterMap id).filter (· < q.cursor)

/-- Takes the rows at Up Next indices `indices` (ascending, distinct) out of the queue and
answers them in queue order, one span per row. A Manual Queue row that also has a passed place
in the context loses it unless `keepPassed`. -/
def take (q : QueueState) (indices : List Nat) (keepPassed : Bool) : List Span × QueueState :=
  let manualLen := q.manual.len
  let n := partitionPoint (fun i => decide (i < manualLen)) indices
  let manual := indices.take n
  let rest := indices.drop n
  let rows := if keepPassed then [] else sortRows (q.passedRows manual)
  let passed := rows.length
  let rows := rows ++ rest.map (fun i => q.cursor + i - manualLen)
  let (taken, manualLeft) := q.manual.removeRows manual
  let (takenOrder, orderLeft) := q.order.removeRows rows
  (taken ++ takenOrder.drop passed,
    { q with manual := manualLeft, order := orderLeft, cursor := q.cursor - passed })

/-- Where `anchor` points now. The Up Next indices `moving` are about to leave, so none of them
can anchor. -/
def spot (q : QueueState) (anchor : Anchor) (moving : List Nat) : Except QueueError Spot :=
  match anchor with
  | .manualStart => .ok (.manual 0)
  | .manualEnd => .ok (.manual q.manual.len)
  | .contextEnd => .ok (.order q.order.len)
  | .before item =>
    match q.findItem item with
    | none => .error .anchorGone
    | some i =>
      if i ∈ moving then .error .anchorGone
      else if i < q.manual.len then .ok (.manual i)
      else .ok (.order (q.cursor + (i - q.manual.len)))

/-- Splices `spans` in at `spot`. -/
def put (q : QueueState) (spot : Spot) (spans : List Span) : QueueState :=
  match spot with
  | .manual i => { q with manual := q.manual.splice i spans }
  | .order i => { q with order := q.order.splice i spans }

/-- Registers `source` and puts all its rows at the anchor. A source with no rows is not
registered. -/
def add (q : QueueState) (source : Source) (before : Anchor) : Outcome :=
  match q.spot before [] with
  | .error e => (.error e, q)
  | .ok spot =>
    if q.hasKey source.key then (.error .duplicateKey, q)
    else if source.length = 0 then (.ok (), q)
    else
      let q := { q with sources := q.sources ++ [source] }
      (.ok (), { q.put spot [⟨.key source.key, 0, source.length⟩] with adjusted := true })

/-- Drops the named items of Up Next, then drops what nothing refers to. -/
def remove (q : QueueState) (items : List ItemId) : QueueState :=
  let indices := q.resolve items
  if indices.isEmpty then q
  else cleanUp { (q.take indices false).2 with adjusted := true }

/-- Moves the named items of Up Next to the anchor. The anchor is found again once the rows are
taken; a refusal there would leave them lost. -/
def moveItems (q : QueueState) (items : List ItemId) (before : Anchor) : Outcome :=
  let indices := q.resolve items
  match q.spot before indices with
  | .error e => (.error e, q)
  | .ok target =>
    if indices.isEmpty then (.ok (), q)
    else
      let toManual := target.isManual
      let (moved, q) := q.take indices toManual
      let moved := if toManual then q.listSpans moved else moved
      match q.spot before [] with
      | .error e => (.error e, q)
      | .ok spot => (.ok (), { q.put spot moved with adjusted := true })

/-- Plays `item` now. Everything ahead of it in Up Next leaves it and, like the item that was
playing, becomes plays. -/
def jump (q : QueueState) (item : ItemId) : QueueState :=
  match q.findItem item with
  | none => q
  | some i =>
    let plays := (q.current.map playSpan).toList
    if i < q.manual.len then
      let (passed, manual) := q.manual.remove 0 i
      recordAndClean { q with manual := (manual.remove 0 1).2, current := some item }
        (plays ++ passed)
    else
      let rest := i - q.manual.len
      let (passed, manual) := q.manual.remove 0 q.manual.len
      recordAndClean
        { q with manual := manual, cursor := q.cursor + (rest + 1), current := some item }
        (plays ++ passed ++ q.order.slice q.cursor (q.cursor + rest))

/-- Starts the context over when it is spent and Repeat All is on. -/
def restart (q : QueueState) : QueueState :=
  if q.manual.isEmpty ∧ q.cursor ≥ q.order.len ∧ q.repeatMode = .all then
    shuffleNextLap { q with cursor := 0 }
  else q

/-- Takes the front of the Manual Queue, or else the next context row, as the item playing. -/
def advance (q : QueueState) : QueueState :=
  if q.manual.isEmpty = false then
    { q with current := q.itemAt q.manual 0, manual := (q.manual.remove 0 1).2 }
  else if q.cursor < q.order.len then
    { q with current := q.itemAt q.order q.cursor, cursor := q.cursor + 1 }
  else { q with current := none }

/-- Plays the front of the Manual Queue, or else the next context row, and records the item
that was playing as a play. -/
def next (q : QueueState) : QueueState :=
  q.restart.advance.recordAndClean (q.current.map playSpan).toList

/-- Applies one edit. -/
def apply (q : QueueState) : Edit → Outcome
  | .add source before => q.add source before
  | .remove items => (.ok (), q.remove items)
  | .move items before => q.moveItems items before
  | .jump item => (.ok (), q.jump item)
  | .next => (.ok (), q.next)
  | .removePlays plays => (.ok (), q.removePlays plays)
  | .requeue play key => q.requeue play key
  | .previous key => q.previous key
  | .rewind play key => q.rewind play key
  | .shuffle on seed => (.ok (), q.setShuffle on seed)
  | .repeatMode mode => (.ok (), { q with repeatMode := mode })

end QueueState

end JewelCase.Queue
