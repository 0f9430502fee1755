import Mathlib.Algebra.GroupWithZero.Nat
import JewelCase.Queue.State
import JewelCase.Queue.FindSorted

/-!
# Shuffle and unshuffle

`crates/core/src/queue/shuffle.rs`. While shuffled, `order` is the rows passed before the
shuffle, then rows of the shuffle over its frozen base, and edits split and move those spans
like any others.
-/
namespace JewelCase.Queue

set_option autoImplicit false

/-- Where a shuffle span of `order` sits. -/
structure ShuffleRow where
  start : Nat
  len : Nat
  row : Nat
deriving DecidableEq, Repr

/-- First positions first, then lengths, then rows. -/
def ShuffleRow.le (a b : ShuffleRow) : Prop :=
  a.start < b.start ∨
    (a.start = b.start ∧ (a.len < b.len ∨ (a.len = b.len ∧ a.row ≤ b.row)))

instance : DecidableRel ShuffleRow.le := fun _ _ => inferInstanceAs (Decidable (_ ∨ _))

/-- The `order` row of shuffle position `p`, or `none` if no row reads it: it was removed or
moved out. -/
def rowOfPosition (rows : List ShuffleRow) (p : Nat) : Option Nat :=
  let i := partitionPoint (fun r : ShuffleRow => decide (r.start ≤ p)) rows
  if i = 0 then none
  else
    match rows[i - 1]? with
    | none => none
    | some r => if p < r.start + r.len then some (r.row + (p - r.start)) else none

/-- A stretch of positions of a view, and the base row of its first. -/
structure Overlap where
  first : Nat
  count : Nat
  base : Nat
deriving DecidableEq, Repr

/-- The overlaps among spans whose first position is base row `row`. -/
def overlapsFrom (key : String) (start stop : Nat) : List Span → Nat → List Overlap
  | [], _ => []
  | span :: spans, row =>
    let low := max span.start start
    let high := min (span.start + span.len) stop
    (if span.view = .key key ∧ low < high then [⟨low, high - low, row + low - span.start⟩]
      else []) ++
      overlapsFrom key start stop spans (row + span.len)

/-- The parts of positions `start..stop` of view `key` that `base` holds. -/
def baseOverlaps (base : SpanList) (key : String) (start stop : Nat) : List Overlap :=
  overlapsFrom key start stop base.spans 0

/-- The rows of `base` from `first` to `stop`, but for those removed. -/
def withoutFrom (base : SpanList) (stop : Nat) : List Nat → Nat → List Span
  | [], first => base.slice first stop
  | row :: rows, first =>
    if row ≥ stop then base.slice first stop
    else base.slice first row ++ withoutFrom base stop rows (row + 1)

/-- The rows `first..stop` of `base` except those in `removed` (ascending), as spans. -/
def baseWithout (base : SpanList) (removed : List Nat) (first stop : Nat) : List Span :=
  withoutFrom base stop (removed.drop (partitionPoint (fun r => decide (r < first)) removed)) first

/-- The shuffle spans among spans whose first row is `row`. -/
def shuffleSpans : List Span → Nat → List ShuffleRow
  | [], _ => []
  | span :: spans, row =>
    (if span.view = .shuffle then [⟨span.start, span.len, row⟩] else []) ++
      shuffleSpans spans (row + span.len)

/-- What a part of the context still ahead of the cursor is, when shuffle is turned off. -/
inductive Ahead where
  | row (span : Span) (head : Bool)
  | base (row : Nat)
deriving DecidableEq, Repr

/-- The context's key rows before an unshuffle: those before the first shuffle row that were
passed, those passed after it, each with its row, and those still ahead, with the first base
row of each shuffle span ahead. -/
structure Sorted where
  head : List (Nat × Span)
  passed : List (Nat × Span)
  ahead : List Ahead
deriving DecidableEq, Repr

/-- Sorts the spans from `row` on; `seen` says whether a shuffle span came before them. -/
def sortSpans (seed : UInt32) (m cursor : Nat) : List Span → Nat → Bool → Sorted
  | [], _, _ => ⟨[], [], []⟩
  | span :: spans, row, seen =>
    let stop := row + span.len
    if span.view = .shuffle then
      let rest := sortSpans seed m cursor spans stop true
      if stop > cursor then
        { rest with
          ahead := .base (permute seed m (span.start + max cursor row - row)) :: rest.ahead }
      else rest
    else
      let cut := max row (min cursor stop)
      let part (first last : Nat) : Span := ⟨span.view, span.start + first - row, last - first⟩
      let behind := if row < cut then [(row, part row cut)] else []
      let ahead := if cut < stop then [.row (part cut stop) !seen] else []
      let rest := sortSpans seed m cursor spans stop seen
      { head := if seen then rest.head else behind ++ rest.head
        passed := if seen then behind ++ rest.passed else rest.passed
        ahead := ahead ++ rest.ahead }

/-- Where the additions ahead go: each with its anchor, the base row it is put just before, and
those that no base row follows. `following` is the base row that follows the entries, and the
entries are taken last to first. -/
def anchorAhead (split : Nat) : List Ahead → Option Nat → List (Nat × Span) × List Span
  | [], _ => ([], [])
  | .base b :: entries, _ => anchorAhead split entries (some b)
  | .row span true :: entries, following =>
    let (anchored, last) := anchorAhead split entries following
    ((split, span) :: anchored, last)
  | .row span false :: entries, some b =>
    let (anchored, last) := anchorAhead split entries (some b)
    ((max b split, span) :: anchored, last)
  | .row span false :: entries, none =>
    let (anchored, last) := anchorAhead split entries none
    (anchored, span :: last)

/-- Up Next from base row `first` on: the anchored spans among the base rows left. -/
def weave (base : SpanList) (leftOut : List Nat) (first : Nat) :
    List (Nat × Span) → List Span
  | [] => baseWithout base leftOut first base.len
  | (anchor, span) :: anchored =>
    baseWithout base leftOut first anchor ++ span :: weave base leftOut anchor anchored

/-- Stable order by first component. -/
def sortByFst {α : Type} (xs : List (Nat × α)) : List (Nat × α) :=
  xs.insertionSort (fun a b => a.1 ≤ b.1)

/-- The last of the elements where `f` is largest. -/
def maxByKey {α : Type} (f : α → Nat) (xs : List α) : Option α :=
  xs.foldl (fun best x =>
    match best with
    | none => some x
    | some b => if f b ≤ f x then some x else some b) none

/-- The base rows whose shuffle position no shuffle span of `order` reads, from position
`first` on. -/
def gonePositions (m : Nat) : List ShuffleRow → Nat → List Nat
  | [], first => List.range' first (m - first)
  | r :: rows, first => List.range' first (r.start - first) ++ gonePositions m rows (r.start + r.len)

/-- The base rows removed or moved out while shuffled, ascending. -/
def goneRows (rows : List ShuffleRow) (seed : UInt32) (m : Nat) : List Nat :=
  sortRows ((gonePositions m rows 0).map (permute seed m))

/-- Positions `first..stop` of a view. -/
structure Range where
  key : String
  first : Nat
  stop : Nat
deriving DecidableEq, Repr

/-- The stretches of offsets below `n` where `held`, over the offsets still to look at;
`opened` is where the stretch under way began. -/
def heldOffsets (held : Nat → Bool) (n : Nat) : List Nat → Option Nat → List (Nat × Nat)
  | [], _ => []
  | i :: is, opened =>
    match decide (i < n) && held i, opened with
    | true, none => heldOffsets held n is (some i)
    | false, some first => (first, i) :: heldOffsets held n is none
    | _, _ => heldOffsets held n is opened

/-- The stretches of base rows from `row` to `stop` between the gaps (ascending). -/
def betweenGaps (stop : Nat) : List Nat → Nat → List (Nat × Nat)
  | [], row => if row < stop then [(row, stop)] else []
  | gap :: gaps, row =>
    if gap ≥ stop then if row < stop then [(row, stop)] else []
    else (if gap > row then [(row, gap)] else []) ++ betweenGaps stop gaps (gap + 1)

namespace QueueState

/-- The shuffle spans of `order`, by shuffle position. -/
def shuffleRows (q : QueueState) : List ShuffleRow :=
  (shuffleSpans q.order.spans 0).insertionSort ShuffleRow.le

/-- `orderRowOf` for each of `items` (sorted by key, then position), in one sweep over `order`
and, while shuffled, one over the base. -/
def orderRowsOf (q : QueueState) (items : List KeyPos) : List (Option Nat) :=
  let rows := q.order.findSorted items
  match q.shuffle with
  | none => rows
  | some shuffle =>
    let shuffled := q.shuffleRows
    let m := shuffle.base.len
    (rows.zip (shuffle.base.findSorted items)).map fun (row, base) =>
      match row with
      | some row => some row
      | none => base.bind fun b => rowOfPosition shuffled (unpermute shuffle.seed m b)

/-- The list positions one span plays. -/
def listSpan (q : QueueState) (span : Span) : List Span :=
  match span.view with
  | .key _ => [span]
  | .shuffle =>
    (List.range' span.start span.len).filterMap fun p => (q.itemOf .shuffle p).map playSpan

/-- `spans` with every shuffle row replaced by the list position it plays. -/
def listSpans (q : QueueState) (spans : List Span) : List Span :=
  (SpanList.fromSpans (spans.flatMap q.listSpan)).spans

/-- `piece` put before the plays kept so far: an older play merges into the newer run it
continues. -/
def pushPiece (newest : List Span) (piece : Span) : List Span :=
  match newest with
  | next :: rest =>
    if next.view = piece.view ∧ piece.start + piece.len = next.start then
      { next with start := piece.start, len := next.len + piece.len } :: rest
    else piece :: newest
  | [] => [piece]

/-- Puts the plays of shuffle positions before those kept so far, and says whether that is all
History can keep. -/
def playedPositions (q : QueueState) : List Nat → List Span → List Span × Bool
  | [], newest => (newest, false)
  | p :: ps, newest =>
    match q.itemOf .shuffle p with
    | none => q.playedPositions ps newest
    | some item =>
      let newest := pushPiece newest (playSpan item)
      if newest.length > historyRuns then (newest, true) else q.playedPositions ps newest

/-- Puts the plays of spans, newest first, before those kept so far, until History can keep no
more. -/
def playedSpans (q : QueueState) : List Span → List Span → List Span
  | [], newest => newest
  | span :: spans, newest =>
    let (newest, full) :=
      match span.view with
      | .key _ =>
        let newest := pushPiece newest span
        (newest, decide (newest.length > historyRuns))
      | .shuffle => q.playedPositions (List.range' span.start span.len).reverse newest
    if full then newest else q.playedSpans spans newest

/-- `spans` as the plays they make, in order, with each shuffle row as the list position it
plays. Only the newest plays History can keep are computed: also answers how many plays come
before them. -/
def played (q : QueueState) (spans : List Span) : Nat × List Span :=
  if spans.all (·.view ≠ .shuffle) then (0, spans)
  else
    let total := (spans.map (·.len)).sum
    let newest := q.playedSpans spans.reverse []
    (total - (newest.map (·.len)).sum, newest)

/-- At a Repeat All restart: a shuffle with an empty base was turned on with nothing left to
play, so the whole context becomes the base. -/
def shuffleNextLap (q : QueueState) : QueueState :=
  match q.shuffle with
  | none => q
  | some shuffle =>
    if shuffle.base.isEmpty then
      { q with
        shuffle := some { shuffle with base := q.order }
        order := .fromSpans [⟨.shuffle, 0, q.order.len⟩] }
    else q

/-- `shuffleHeld` with the strategy named: `some true` looks up each position of the base the
ranges cover, `some false` finds the rows that aren't held and subtracts them. -/
def shuffleHeldBy (q : QueueState) (first : Nat) (ranges : List Range) (lookup : Option Bool) :
    List Range :=
  match q.shuffle with
  | none => []
  | some shuffle =>
    let seed := shuffle.seed
    let m := shuffle.base.len
    let overlaps := ranges.flatMap fun r =>
      (baseOverlaps shuffle.base r.key r.first r.stop).map (r.key, ·)
    let rows := q.shuffleRows
    let lookedUp := (overlaps.map (·.2.count)).sum
    let covered := (rows.map (·.len)).sum
    let passed := (rows.map fun r => min (first - r.row) r.len).sum
    if lookup.getD (lookedUp ≤ m - covered + passed) then
      overlaps.flatMap fun (key, o) =>
        let held (i : Nat) : Bool :=
          match rowOfPosition rows (unpermute seed m (o.base + i)) with
          | some row => decide (row ≥ first)
          | none => false
        (heldOffsets held o.count (List.range (o.count + 1)) none).map fun (i, j) =>
          ⟨key, o.first + i, o.first + j⟩
    else
      let unheld := sortRows (goneRows rows seed m ++ rows.flatMap fun r =>
        (List.range' r.start (min (first - r.row) r.len)).map (permute seed m))
      overlaps.flatMap fun (key, o) =>
        let gaps := unheld.drop (partitionPoint (fun u => decide (u < o.base)) unheld)
        (betweenGaps (o.base + o.count) gaps o.base).map fun (i, j) =>
          ⟨key, o.first + i - o.base, o.first + j - o.base⟩

/-- Which of the positions `ranges` are in Up Next through the shuffle once the cursor is at
row `first`. -/
def shuffleHeld (q : QueueState) (first : Nat) (ranges : List Range) : List Range :=
  q.shuffleHeldBy first ranges none

/-- A Manual Queue row that also holds a passed shuffle row whose natural place is after the
pivot: its row in `order`, its span and its base row. -/
def twoPlace (q : QueueState) (shuffle : Shuffle) (rows : List ShuffleRow) (pivot : Option Nat) :
    List (Nat × Span × Nat) :=
  q.manual.spans.flatMap fun span =>
    match span.view with
    | .shuffle => []
    | .key key =>
      (baseOverlaps shuffle.base key span.start (span.start + span.len)).flatMap fun o =>
        (List.range o.count).filterMap fun i =>
          let p := unpermute shuffle.seed shuffle.base.len (o.base + i)
          match rowOfPosition rows p with
          | none => none
          | some row =>
            if pivot.all (o.base + i > ·) then
              some (row, ⟨span.view, o.first + i, 1⟩, o.base + i)
            else none

/-- The pivot of an unshuffle, as a base row: the playing item if the base holds it, otherwise
the latest passed shuffle row. -/
def pivot (q : QueueState) (shuffle : Shuffle) (rows : List ShuffleRow) : Option Nat :=
  let inBase := q.current.bind fun c => shuffle.base.find c.view c.pos
  let latestPassed :=
    (maxByKey (·.row) (rows.filter (·.row < q.cursor))).map fun r =>
      permute shuffle.seed shuffle.base.len (r.start + min (q.cursor - r.row) r.len - 1)
  inBase.or latestPassed

/-- Puts the context back in its natural order and drops the shuffle. -/
def unshuffle (q : QueueState) : QueueState :=
  match q.shuffle with
  | none => q
  | some shuffle =>
    let seed := shuffle.seed
    let base := shuffle.base
    let m := base.len
    let rows := q.shuffleRows
    let sorted := sortSpans seed m q.cursor q.order.spans 0 false
    let pivot := q.pivot shuffle rows
    let twoPlace := q.twoPlace shuffle rows pivot
    let leftOut := sortRows (goneRows rows seed m ++ twoPlace.map (·.2.2))
    let passed := sortByFst (sorted.passed ++ twoPlace.map fun t => (t.1, t.2.1))
    let split := pivot.elim 0 (· + 1)
    let before := sorted.head.map (·.2) ++ baseWithout base leftOut 0 split ++ passed.map (·.2)
    let (anchored, last) := anchorAhead split sorted.ahead.reverse none
    let upNext := SpanList.fromSpans
      (weave base leftOut split (sortByFst anchored.reverse) ++ last.reverse)
    cleanUp { q with
      order := .fromSpans (before ++ upNext.spans)
      cursor := (before.map (·.len)).sum
      shuffle := none }

/-- Turns shuffle on or off. Turning it on freezes the unplayed context as the base. Turning it
on while shuffled, or off while not, does nothing. -/
def setShuffle (q : QueueState) (on : Bool) (seed : UInt32) : QueueState :=
  match on, q.shuffle with
  | true, none =>
    let (unplayed, order) := q.order.remove q.cursor q.order.len
    let base := SpanList.fromSpans unplayed
    { q with
      order := order.splice order.len [⟨.shuffle, 0, base.len⟩]
      shuffle := some ⟨seed, base⟩ }
  | false, some _ => q.unshuffle
  | _, _ => q

end QueueState

end JewelCase.Queue
