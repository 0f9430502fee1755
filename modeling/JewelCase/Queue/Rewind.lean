import JewelCase.Queue.Shuffle

/-!
# History

`crates/core/src/queue/history.rs`: plays recorded as runs, removed and re-queued.
-/
namespace JewelCase.Queue

set_option autoImplicit false

/-- A play of History as an edit names it: acted on only if the number and the item both
match. -/
structure PlayRef where
  play : Nat
  item : ItemId
deriving DecidableEq, Repr

/-- The plays of `span`, from number `first`, put after `last`: joined to it where they
continue it. -/
def Run.join (last run : Run) : Option Run :=
  if last.first + last.span.len = run.first ∧ last.span.view = run.span.view ∧
      last.span.start + last.span.len = run.span.start then
    some { last with span := { last.span with len := last.span.len + run.span.len } }
  else none

namespace QueueState

/-- The spans naming the source positions read by the `len` positions of view `key` from
`start`, for a flattened copy of them. -/
def sourceRange (q : QueueState) (key : String) (start len : Nat) : List Span :=
  match q.copy key with
  | some copy => copy.of.slice start (start + len)
  | none => [⟨.key key, start, len⟩]

/-- The spans naming the source position `item` reads, for a flattened copy of it. -/
def sourceSpans (q : QueueState) (item : ItemId) : List Span := q.sourceRange item.key item.pos 1

/-- Records one span as plays, extending the last run when it continues it. -/
def recordSpan (q : QueueState) (span : Span) : QueueState :=
  { q with
    history := Library.Stretch.extendLast Run.join q.history ⟨q.nextPlay, span⟩
    nextPlay := q.nextPlay + span.len }

/-- Drops the oldest runs past `historyRuns`, and says whether any went. -/
def trimHistory (q : QueueState) : Bool × QueueState :=
  let excess := q.history.length - historyRuns
  (decide (excess > 0), { q with history := q.history.drop excess })

/-- Records `spans`, in order, as consecutive plays, then trims History. Answers whether the
trim dropped runs. -/
def recordPlays (q : QueueState) (spans : List Span) : Bool × QueueState :=
  let (skipped, spans) := q.played spans
  trimHistory (spans.foldl recordSpan { q with nextPlay := q.nextPlay + skipped })

/-- Records `spans` and cleans up if the trim dropped runs. -/
def recordAndClean (q : QueueState) (spans : List Span) : QueueState :=
  let (trimmed, q) := q.recordPlays spans
  if trimmed then q.cleanUp else q

/-- The number of rows in History. -/
def historyLen (q : QueueState) : Nat := (q.history.map (·.span.len)).sum

/-- The run holding play `play` and the play's offset in it. -/
def findPlay (q : QueueState) (play : Nat) : Option (Nat × Nat) :=
  let i := partitionPoint (fun run : Run => decide (run.first + run.span.len ≤ play)) q.history
  match q.history[i]? with
  | none => none
  | some run => if run.first ≤ play then some (i, play - run.first) else none

/-- The run and offset of `play` if it is in History and played the item it names. -/
def matchPlay (q : QueueState) (play : PlayRef) : Option (Nat × Nat) :=
  match q.findPlay play.play with
  | none => none
  | some (i, offset) =>
    match q.history[i]? with
    | none => none
    | some run =>
      if run.span.view = .key play.item.key ∧ play.item.pos = run.span.start + offset then
        some (i, offset)
      else none

/-- Takes play `offset` of run `i` out of History, splitting the run, then trims since a split
can add a run. -/
def takePlay (q : QueueState) (i offset : Nat) : QueueState :=
  match q.history[i]? with
  | none => q
  | some run =>
    let after := offset + 1
    let tail : Run :=
      ⟨run.first + after, ⟨run.span.view, run.span.start + after, run.span.len - after⟩⟩
    let head : Run := ⟨run.first, { run.span with len := offset }⟩
    let kept := [head, tail].filter (·.span.len > 0)
    (trimHistory { q with history := q.history.take i ++ kept ++ q.history.drop (i + 1) }).2

/-- One play of a removal: the state after it, and whether any play went so far. -/
def removePlay (q : QueueState) (any : Bool) (play : PlayRef) : QueueState × Bool :=
  match q.matchPlay play with
  | some (i, offset) => (q.takePlay i offset, true)
  | none => (q, any)

/-- Removes the plays that are in History and played the item named, ignoring the rest. -/
def removePlays (q : QueueState) (plays : List PlayRef) : QueueState :=
  let (q', any) := plays.foldl (fun (q, any) play => q.removePlay any play) (q, false)
  if any then cleanUp { q' with adjusted := true } else q'

/-- Puts a copy of the played row, under `key`, at the front of the Manual Queue and takes the
play out of History. -/
def requeue (q : QueueState) (play : PlayRef) (key : String) : Outcome :=
  match q.matchPlay play with
  | none => (.ok (), q)
  | some (i, offset) =>
    if q.hasKey key then (.error .duplicateKey, q)
    else
      let copy : QueueCopy := ⟨key, .fromSpans (q.sourceSpans play.item)⟩
      let q := q.takePlay i offset
      (.ok (), cleanUp { q with
        copies := q.copies ++ [copy]
        manual := q.manual.splice 0 [⟨.key key, 0, 1⟩]
        adjusted := true })

end QueueState

end JewelCase.Queue

/-!
## Previous and rewind

`crates/core/src/queue/previous.rs` and `rewind.rs`: one step back, and its bulk form. Rewind
walks the cursor back over what the newest plays match, then queues the rest, cutting them
into the positions Up Next already holds, which become one copy, and the others.
-/
namespace JewelCase.Queue

set_option autoImplicit false

/-- Consecutive positions of one view, and whether they need the copy. -/
structure Piece where
  key : String
  start : Nat
  len : Nat
  copy : Bool
deriving DecidableEq, Repr

/-- The positions that Up Next holds, per view: disjoint ranges by view key and start, each
valued by its end, in ascending order. -/
abbrev Held := List (KeyPos × Nat)

/-- Holds the range from `start`, in place of any range that starts there. -/
def Held.insert (start : KeyPos) (stop : Nat) : Held → Held
  | [] => [(start, stop)]
  | (k, e) :: held =>
    if start.lt k then (start, stop) :: (k, e) :: held
    else if k.lt start then (k, e) :: Held.insert start stop held
    else (start, stop) :: held

/-- The ranges that start from `low` on and before `high`. -/
def Held.range (held : Held) (low high : KeyPos) : Held :=
  held.filter fun (k, _) => decide (¬ k.lt low) && decide (k.lt high)

/-- The parts of positions `first..stop` of `key` around the ranges held (ascending). -/
def cutHeld (key : String) (stop : Nat) : List (Nat × Nat) → Nat → List Piece
  | [], first => if first < stop then [⟨key, first, stop - first, false⟩] else []
  | (s, e) :: overlaps, first =>
    let low := max s first
    let high := min e stop
    (if low > first then [⟨key, first, low - first, false⟩] else []) ++
      ⟨key, low, high - low, true⟩ :: cutHeld key stop overlaps high

/-- Splits `piece` into the parts Up Next already holds, marked as copies, and the rest, in
position order, and then counts the rest as held. -/
def splitHeld (held : Held) (piece : Piece) : List Piece × Held :=
  let stop := piece.start + piece.len
  let before := ((held.range (piece.key, 0) (piece.key, piece.start)).getLast?).toList.filter
    fun (_, e) => decide (e > piece.start)
  let overlaps := (before ++ held.range (piece.key, piece.start) (piece.key, stop)).map
    fun (k, e) => (k.2, e)
  let parts := cutHeld piece.key stop overlaps piece.start
  (parts, (parts.filter (!·.copy)).foldl
    (fun held part => held.insert (part.key, part.start) (part.start + part.len)) held)

/-- Splits pieces, last to first, each against what the ones before it left held. -/
def splitPieces : Held → List Piece → List (List Piece)
  | _, [] => []
  | held, piece :: pieces =>
    let (parts, held) := splitHeld held piece
    parts :: splitPieces held pieces

/-- Ranges in ascending order. -/
def Range.le (a b : Range) : Prop :=
  a.key < b.key ∨
    (a.key = b.key ∧ (a.first < b.first ∨ (a.first = b.first ∧ a.stop ≤ b.stop)))

instance : DecidableRel Range.le := fun _ _ => inferInstanceAs (Decidable (_ ∨ _))

/-- Ascending ranges with those that touch merged: `last` is the range under way. -/
def mergeRanges : List Range → Range → List Range
  | [], last => [last]
  | range :: ranges, last =>
    if last.key = range.key ∧ range.first ≤ last.stop then
      mergeRanges ranges { last with stop := max last.stop range.stop }
    else last :: mergeRanges ranges range

/-- The positions the target and the plays heard after it cover, per view, as disjoint
ranges. -/
def positionsOf (target : Piece) (heard : List Piece) : List Range :=
  match ((target :: heard).map fun p => (⟨p.key, p.start, p.start + p.len⟩ : Range)).insertionSort
      Range.le with
  | [] => []
  | range :: ranges => mergeRanges ranges range

/-- The copy's spans, its length so far, the spans queued and the item that plays, as the parts
are taken in the order heard. -/
structure Built where
  of : List Span
  copyLen : Nat
  queued : List Span
  playing : Option ItemId

namespace QueueState

/-- Takes the newest play out of History, leaving `nextPlay` alone so its number is never
reused. -/
def popPlay (q : QueueState) : QueueState :=
  match q.history.getLast? with
  | none => q
  | some run =>
    let left : Run := { run with span := { run.span with len := run.span.len - 1 } }
    if left.span.len = 0 then { q with history := q.history.dropLast }
    else { q with history := q.history.dropLast ++ [left] }

/-- Whether the row just passed plays `old`. -/
def justPassed (q : QueueState) (old : ItemId) : Bool :=
  (checkedSub q.cursor 1).any fun row => q.itemAt q.order row = some old

/-- Puts the item that was playing at the front of Up Next: back into the context when it is
the row just passed and the Manual Queue is empty, else at the front of the Manual Queue. -/
def putBack (q : QueueState) (old : ItemId) : QueueState :=
  if q.manual.isEmpty && q.justPassed old then { q with cursor := q.cursor - 1 }
  else { q with manual := q.manual.splice 0 [playSpan old] }

/-- Takes the newest play out of History and puts the item that was playing back. -/
def stepBack (q : QueueState) : QueueState :=
  match q.current with
  | some old => q.popPlay.putBack old
  | none => q.popPlay

/-- Pops the last play and makes its item current, or a copy of it under `key` when the item is
then in Up Next. -/
def previous (q : QueueState) (key : String) : Outcome :=
  match q.history.getLast? with
  | none => (.ok (), q)
  | some last =>
    match last.span.view with
    | .shuffle => (.ok (), q)
    | .key keyOfX =>
      let x : ItemId := ⟨keyOfX, last.span.start + last.span.len - 1⟩
      let copyNeeded := q.current = some x ∨ (q.findItem x).isSome
      if copyNeeded ∧ q.hasKey key then (.error .duplicateKey, q)
      else
        let q' := q.stepBack
        if copyNeeded then
          (.ok (), { q' with
            copies := q'.copies ++ [⟨key, .fromSpans (q'.sourceSpans x)⟩]
            current := some ⟨key, 0⟩ })
        else (.ok (), { q' with current := some x })

/-- Matches the last `left` positions of `key` from `start` against the context rows before
`row`, read backwards, taking the rows as far as they match. Answers what is left of both. -/
def matchBack (q : QueueState) (key : String) (start left row : Nat) : Nat × Nat :=
  if _h : left > 0 ∧ row > 0 then
    match q.order.locate (row - 1) with
    | none => (left, row)
    | some (i, offset) =>
      match q.order.spans[i]? with
      | none => (left, row)
      | some span =>
        if span.view = .shuffle then
          -- a shuffle row plays the base row it maps to, so rows match one at a time
          if q.itemAt q.order (row - 1) = some ⟨key, start + left - 1⟩ then
            q.matchBack key start (left - 1) (row - 1)
          else (left, row)
        else if span.view = .key key ∧ span.start + offset = start + left - 1 then
          let taken := min (offset + 1) left
          q.matchBack key start (left - taken) (row - taken)
        else (left, row)
  else (left, row)
termination_by row
decreasing_by all_goals omega

/-- Walks back over pieces, newest first: answers what is left of each and the row reached. -/
def walkBack (q : QueueState) : List Piece → Nat → List Piece × Nat
  | [], row => ([], row)
  | piece :: pieces, row =>
    let (left, row) := q.matchBack piece.key piece.start piece.len row
    if left > 0 then ({ piece with len := left } :: pieces, row)
    else
      let (pieces, row) := q.walkBack pieces row
      ({ piece with len := left } :: pieces, row)

/-- The plays from offset `skip` of the first run on, as stretches, or `none` if a run reads
the shuffle. -/
def heardFrom (skip : Nat) : List Run → Option (List Piece)
  | [] => some []
  | run :: runs =>
    match run.span.view with
    | .shuffle => none
    | .key key =>
      (heardFrom 0 runs).map (⟨key, run.span.start + skip, run.span.len - skip, false⟩ :: ·)

/-- What Up Next holds once the cursor is at `row` and `old` is back. -/
def heldAt (q : QueueState) (row : Nat) (ranges : List Range) (old : Option ItemId) : Held :=
  let hold (held : Held) (span : Span) : Held :=
    match span.view with
    | .key key => held.insert (key, span.start) (span.start + span.len)
    | .shuffle => held
  let held := q.manual.spans.foldl hold []
  let held := (q.order.slice row q.order.len).foldl hold held
  let held := (q.shuffleHeld row ranges).foldl
    (fun held r => held.insert (r.key, r.first) (r.first + (r.stop - r.first))) held
  match old with
  | some old => held.insert (old.key, old.pos) (old.pos + 1)
  | none => held

/-- One part, the `n`th in the order heard, of what a rewind builds. -/
def buildPart (q : QueueState) (key : String) (built : Built) (part : Piece) (n : Nat) : Built :=
  let viewKey := if part.copy then key else part.key
  let start := if part.copy then built.copyLen else part.start
  -- the target is the first row heard: it plays, and the rest of its part is queued
  let skip := if n = 0 then 1 else 0
  { of := if part.copy then built.of ++ q.sourceRange part.key part.start part.len else built.of
    copyLen := if part.copy then built.copyLen + part.len else built.copyLen
    queued :=
      if part.len > skip then built.queued ++ [⟨.key viewKey, start + skip, part.len - skip⟩]
      else built.queued
    playing := if n = 0 then some ⟨viewKey, start⟩ else built.playing }

/-- Phase 1 of a rewind, over the item playing and the plays after the target: the row the
cursor goes back to, the item playing if it is not walked over, and what is left of the
plays. -/
def phaseOne (q : QueueState) (heard : List Piece) : Nat × Option ItemId × List Piece :=
  let (row, oldLeft, walking) :=
    match q.manual.isEmpty, q.current with
    | true, some old =>
      let (left, row) := q.matchBack old.key old.pos 1 q.cursor
      if left = 0 then (row, none, true) else (row, some old, false)
    | walking, old => (q.cursor, old, walking)
  if walking then
    let (left, row) := q.walkBack heard.reverse row
    (row, oldLeft, left.reverse.filter (·.len > 0))
  else (row, oldLeft, heard.filter (·.len > 0))

/-- Goes back to play `play`, with the result of Previous repeated until it is current. -/
def rewind (q : QueueState) (play : PlayRef) (key : String) : Outcome :=
  match q.matchPlay play with
  | none => (.error .playGone, q)
  | some (firstRun, offset) =>
    match heardFrom offset (q.history.drop firstRun) with
    | none | some [] => (.ok (), q)
    | some (first :: heard) =>
      let target : Piece := ⟨first.key, first.start, 1, false⟩
      let heard := { first with start := first.start + 1, len := first.len - 1 } :: heard
      let (row, oldLeft, heard) := q.phaseOne heard
      let held := q.heldAt row (positionsOf target heard) oldLeft
      let parts := (splitPieces held (target :: heard).reverse).reverse.flatten
      let copies := parts.any (·.copy)
      if copies ∧ q.hasKey key then (.error .duplicateKey, q)
      else
        let built := parts.zipIdx.foldl
          (fun built (part, n) => q.buildPart key built part n) ⟨[], 0, [], none⟩
        let history :=
          match q.history[firstRun]? with
          | none => q.history
          | some run =>
            q.history.take firstRun ++
              if offset > 0 then [{ run with span := { run.span with len := offset } }] else []
        (.ok (), { q with
          history := history
          cursor := row
          manual := q.manual.splice 0 (built.queued ++ (oldLeft.map playSpan).toList)
          current := built.playing
          copies := if copies then q.copies ++ [⟨key, .fromSpans built.of⟩] else q.copies })

end QueueState

end JewelCase.Queue
