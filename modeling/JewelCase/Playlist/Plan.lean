import Mathlib.Algebra.BigOperators.Group.List.Basic
import Mathlib.Algebra.GroupWithZero.Nat
import Mathlib.Algebra.Ring.Int.Defs
import JewelCase.Playlist.Ops
import JewelCase.Playlist.Keys
import JewelCase.Library.Runs

/-!
# Planning an edit and writing it

`crates/server/src/api/playlists/edit.rs`. A plan is made off the writer, from the items of the
playlist at one version: the rows to delete and to insert. The write deletes before it inserts, so
no new key meets an old one on its way out. A `Vec` holds fewer than 2^63 items, so the conversions
of counts to `i64` never fall back, and a renumber of fewer than 2^43 items never overflows. A
track's duration is at most `u32::MAX` milliseconds (`crates/scanner/src/audio.rs`), under 2^42
microseconds, so the `i64` sum of a playlist's durations has room.
-/
namespace JewelCase.Playlist

set_option autoImplicit false

/-- A row of `playlist_items`, of one playlist. -/
structure Row where
  key : Int
  track : Int
  addedAt : Int
deriving DecidableEq, Repr

/-- The library's tracks: the duration of each one it has. -/
abbrev Tracks := Int → Option Int

/-- A playlist's item as an edit carries it: its stored key, unless the edit added it. -/
structure Item where
  key : Option Int
  track : Int
  addedAt : Int
  duration : Int
deriving DecidableEq, Repr

/-- An op as it applied, to announce. -/
inductive AppliedOp where
  | add (place : Option Nat) (trackIds : List Int) (addedAt : Int)
  | remove (positions : List Nat)
  | move (positions : List Nat) (place : Nat)
deriving DecidableEq, Repr

/-- What an edit's ops write. -/
structure Plan where
  /-- The item count and duration once written, or `none` for an edit of details alone. -/
  totals : Option (Int × Int)
  /-- The distinct tracks the ops add. -/
  added : List Int
  /-- The keys of the rows to delete, or `none` to delete them all. -/
  delete : Option (List Int)
  insert : List Row
  applied : List AppliedOp
deriving DecidableEq, Repr

/-- The tracks an op adds. -/
def Op.tracks : Op Int → List Int
  | .add _ items => items
  | .remove _ => []
  | .move _ _ => []

/-- `tracks` that the library still has, each once. -/
def durations (library : Tracks) (tracks : List Int) : List Int :=
  (tracks.filter fun track => (library track).isSome).dedup

/-- The item that an added track becomes, where the library still has it. -/
def addedItem (library : Tracks) (now track : Int) : Option Item :=
  (library track).map fun duration => ⟨none, track, now, duration⟩

/-- `op` with an add's tracks as items. -/
def Op.toItems (library : Tracks) (now : Int) : Op Int → Op Item
  | .add place tracks => .add place (tracks.filterMap (addedItem library now))
  | .remove positions => .remove positions
  | .move positions place => .move positions place

def Op.toApplied (now : Int) : Op Item → AppliedOp
  | .add place items => .add place (items.map (·.track)) now
  | .remove positions => .remove positions
  | .move positions place => .move positions place

/-- The rows in key order. -/
def inOrder (rows : List Row) : List Row := rows.insertionSort fun a b => a.key ≤ b.key

/-- The items read, each joined with its track. -/
def itemsOf (library : Tracks) (rows : List Row) : List Item :=
  (inOrder rows).filterMap fun row =>
    (library row.track).map fun duration => ⟨some row.key, row.track, row.addedAt, duration⟩

/-- The rows of a whole playlist renumbered. -/
def renumbered (after : List Item) : List Row :=
  after.zipIdx.map fun r => ⟨(r.2 + 1) * keyGap, r.1.track, r.1.addedAt⟩

/-- Whether an item is stored under another key than it had. -/
def isWritten (r : Item × Int) : Bool := decide (r.1.key ≠ some r.2)

/-- The keys to delete and the rows to insert. -/
def rowsToWrite (before after : List Item) : Option (List Int) × List Row :=
  let stored := after.map (·.key)
  let kept := stored.filterMap id
  let removed := (before.filterMap (·.key)).filter fun key => !decide (key ∈ kept)
  match assign stored with
  | some keys =>
    let written := (after.zip keys).filter isWritten
    (some (removed ++ written.filterMap (·.1.key)),
      written.map fun r => ⟨r.2, r.1.track, r.1.addedAt⟩)
  | none => (none, renumbered after)

/-- Applies `ops` to the items as they are stored, and works out the rows that change. -/
def plan (library : Tracks) (rows : List Row) (ops : List (Op Int)) (now : Int) :
    Except OpError Plan :=
  if ops.isEmpty then
    .ok { totals := none, added := [], delete := some [], insert := [], applied := [] }
  else
    let added := durations library (ops.flatMap Op.tracks)
    let ops := ops.map (Op.toItems library now)
    let applied := ops.map (Op.toApplied now)
    let before := itemsOf library rows
    match applyOps before ops with
    | .error e => .error e
    | .ok after =>
      let duration := (after.map (·.duration)).sum
      let count : Int := after.length
      let (delete, insert) := rowsToWrite before after
      .ok { totals := some (count, duration), added, delete, insert, applied }

/-- Whether every track the plan adds is still in the library. -/
def fresh (library : Tracks) (plan : Plan) : Bool :=
  (durations library plan.added).length = plan.added.length

/-! ### The write -/

/-- A stored playlist: its version, totals and rows. -/
structure Stored where
  version : Int
  trackCount : Int
  duration : Int
  rows : List Row
deriving DecidableEq, Repr

/-- Inserts a row, or fails on the primary key. -/
def insertRow (rows : List Row) (row : Row) : Option (List Row) :=
  if row.key ∈ rows.map (·.key) then none else some (rows ++ [row])

def insertRows (rows : List Row) : List Row → Option (List Row)
  | [] => some rows
  | row :: more => (insertRow rows row).bind fun rows => insertRows rows more

def deleteRows (rows : List Row) : Option (List Int) → List Row
  | some keys => keys.foldl (fun rows key => rows.filter fun row => !decide (row.key = key)) rows
  | none => []

/-- Writes the plan's rows: `none` is a violated constraint. -/
def write (plan : Plan) (rows : List Row) : Option (List Row) :=
  insertRows (deleteRows rows plan.delete) plan.insert

/-- The playlist once the edit is written: its rows, its totals where the ops changed them, and the
next version. -/
def Stored.edited (s : Stored) (plan : Plan) : Option Stored :=
  (write plan s.rows).map fun rows =>
    { version := s.version + 1
      trackCount := (plan.totals.map Prod.fst).getD s.trackCount
      duration := (plan.totals.map Prod.snd).getD s.duration
      rows := rows }

end JewelCase.Playlist

/-!
## Edit requests, read and written

`crates/server/src/api/playlists/edit.rs` and `idempotency.rs`. Each request is read off the writer,
where it is planned, and later written in one transaction, where everything it read is checked
again. Requests interleave in any order, tracks no playlist holds are purged in between, and stored
answers are swept. The playlist is there throughout, so `404` is never answered, and an add's
playables are looked up by an arbitrary function at each read.
-/
namespace JewelCase.Playlist

set_option autoImplicit false

variable {π : Type}

/-- Why a request was refused. -/
inductive Problem where
  | versionConflict (version : Int)
  | invalid (message : String)
  | internal
deriving DecidableEq, Repr

/-- An edit as its request names it, with its `Idempotency-Key`. -/
structure Edit (π : Type) where
  baseVersion : Int
  title : Option String
  /-- `some none` clears the description. -/
  description : Option (Option String)
  pinned : Option Bool
  ops : List (Op π)
  key : Option String

structure Details where
  title : String
  description : Option String
  pinned : Bool
  modifiedAt : Int
deriving DecidableEq, Repr

/-- A response as it is stored and sent: a status and the playlist as edited. -/
structure Answer where
  status : Nat
  details : Details
  trackCount : Int
  duration : Int
  version : Int
deriving DecidableEq, Repr

/-- The answer stored under `key`, if the request had a key and there is one. -/
def Answer.find (answers : List (String × Answer)) (key : Option String) : Option Answer :=
  key.bind fun key => (answers.find? fun r => decide (r.1 = key)).map Prod.snd

/-- Stores the answer under the request's key, if it had one. -/
def Answer.store (answers : List (String × Answer)) (key : Option String) (answer : Answer) :
    List (String × Answer) :=
  match key with
  | none => answers
  | some key => answers ++ [(key, answer)]

inductive Phase where
  /-- To be read, for the first time or again. -/
  | asked
  | planned (plan : Plan) (now : Int)
  | answered (answer : Except Problem Answer)

structure Request (π : Type) where
  edit : Edit π
  phase : Phase

structure Server (π : Type) where
  /-- The library's tracks, each with its duration. -/
  library : List (Int × Int)
  playlist : Stored
  details : Details
  answers : List (String × Answer)
  requests : List (Request π)

def tracksOf (library : List (Int × Int)) : Tracks := fun track =>
  (library.find? fun r => decide (r.1 = track)).map Prod.snd

/-- `409 version_conflict` unless the playlist is at `base`. -/
def atVersion (playlist : Stored) (base : Int) : Except Problem Unit :=
  if playlist.version ≠ base then .error (.versionConflict playlist.version) else .ok ()

/-- `op` with an add's playables expanded to track IDs. -/
def expand (lookup : List π → Except String (List Int)) : Op π → Except Problem (Op Int)
  | .add place items =>
    match lookup items with
    | .error message => .error (.invalid message)
    | .ok tracks => .ok (.add place tracks)
  | .remove positions => .ok (.remove positions)
  | .move positions place => .ok (.move positions place)

def expandAll (lookup : List π → Except String (List Int)) :
    List (Op π) → Except Problem (List (Op Int))
  | [] => .ok []
  | op :: ops =>
    match expand lookup op with
    | .error problem => .error problem
    | .ok op =>
      match expandAll lookup ops with
      | .error problem => .error problem
      | .ok ops => .ok (op :: ops)

/-- The read: a retry already answered, a stale version, the items an add expands to, and the
plan. -/
def prepare (s : Server π) (edit : Edit π) (lookup : List π → Except String (List Int))
    (now : Int) : Phase :=
  match Answer.find s.answers edit.key with
  | some answer => .answered (.ok answer)
  | none =>
    match atVersion s.playlist edit.baseVersion with
    | .error problem => .answered (.error problem)
    | .ok () =>
      match expandAll lookup edit.ops with
      | .error problem => .answered (.error problem)
      | .ok ops =>
        match plan (tracksOf s.library) s.playlist.rows ops now with
        | .error e => .answered (.error (.invalid e.message))
        | .ok plan => .planned plan now

/-- The details once an edit is written. -/
def Details.edited (details : Details) (edit : Edit π) (now : Int) : Details :=
  { title := edit.title.getD details.title
    description := edit.description.getD details.description
    pinned := edit.pinned.getD details.pinned
    modifiedAt := now }

/-- How a write ends. -/
inductive Written where
  | found (answer : Answer)
  /-- A track the edit adds is gone, and the plan is to be made again. -/
  | again
  | refused (problem : Problem)
  | applied (playlist : Stored) (details : Details) (answer : Answer)

/-- The write, in one transaction: only `applied` changes anything. -/
def writeEdit (s : Server π) (edit : Edit π) (plan : Plan) (now : Int) : Written :=
  match Answer.find s.answers edit.key with
  | some answer => .found answer
  | none =>
    if fresh (tracksOf s.library) plan then
      match atVersion s.playlist edit.baseVersion with
      | .error problem => .refused problem
      | .ok () =>
        match s.playlist.edited plan with
        | none => .refused .internal
        | some playlist =>
          let details := s.details.edited edit now
          .applied playlist details
            ⟨200, details, playlist.trackCount, playlist.duration, playlist.version⟩
    else .again

/-! ### Steps -/

inductive Event (π : Type) where
  | ask (edit : Edit π)
  | read (i : Nat) (lookup : List π → Except String (List Int)) (now : Int)
  | write (i : Nat)
  | purge (track : Int)
  | sweep (key : String)

/-- The edit of a request that is to be read. -/
def Server.toRead (s : Server π) (i : Nat) : Option (Edit π) :=
  match s.requests[i]? with
  | some ⟨edit, .asked⟩ => some edit
  | _ => none

/-- The edit and plan of a request that is to be written. -/
def Server.toWrite (s : Server π) (i : Nat) : Option (Edit π × Plan × Int) :=
  match s.requests[i]? with
  | some ⟨edit, .planned plan now⟩ => some (edit, plan, now)
  | _ => none

def Server.setPhase (s : Server π) (i : Nat) (edit : Edit π) (phase : Phase) : Server π :=
  { s with requests := s.requests.set i ⟨edit, phase⟩ }

/-- What a write leaves. -/
def Server.settled (s : Server π) (i : Nat) (edit : Edit π) : Written → Server π
  | .found answer => s.setPhase i edit (.answered (.ok answer))
  | .again => s.setPhase i edit .asked
  | .refused problem => s.setPhase i edit (.answered (.error problem))
  | .applied playlist details answer =>
    { s.setPhase i edit (.answered (.ok answer)) with
      playlist := playlist
      details := details
      answers := Answer.store s.answers edit.key answer }

def Server.step (s : Server π) : Event π → Server π
  | .ask edit => { s with requests := s.requests ++ [⟨edit, .asked⟩] }
  | .read i lookup now =>
    match s.toRead i with
    | none => s
    | some edit => s.setPhase i edit (prepare s edit lookup now)
  | .write i =>
    match s.toWrite i with
    | none => s
    | some (edit, plan, now) => s.settled i edit (writeEdit s edit plan now)
  | .purge track =>
    if track ∈ s.playlist.rows.map (·.track) then s
    else { s with library := s.library.filter fun r => !decide (r.1 = track) }
  | .sweep key => { s with answers := s.answers.filter fun r => !decide (r.1 = key) }

/-- The request a step writes, and how that ends. -/
def Server.writes (s : Server π) : Event π → Option (Nat × Edit π × Written)
  | .write i => (s.toWrite i).map fun r => (i, r.1, writeEdit s r.1 r.2.1 r.2.2)
  | _ => none

/-- Whether a step commits an edit. -/
def Server.commits (s : Server π) (e : Event π) : Bool :=
  match s.writes e with
  | some (_, _, .applied ..) => true
  | _ => false

/-- Whether a step sends request `i` back to be planned again. -/
def Server.replans (i : Nat) (s : Server π) (e : Event π) : Bool :=
  match s.writes e with
  | some (j, _, .again) => decide (j = i)
  | _ => false

end JewelCase.Playlist
