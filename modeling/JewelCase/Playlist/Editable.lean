import Mathlib.Algebra.GroupWithZero.Nat
import JewelCase.Playlist.Undo

/-!
# A playlist as the user edits it

`web/src/lib/playlist.svelte.ts`, `EditablePlaylist`. An edit shows at once and waits its turn: the
edits go to the server one at a time, each against the version the one before produced. An answer
that never came is asked for again under the same key. A conflict reloads the playlist, and any
other refusal goes back to what is confirmed; either drops everything pending.
-/
namespace JewelCase.Editing

set_option autoImplicit false

open Playlist.Web

/-! ### Playlists and edits -/

/-- A library track, by what an edit reads of it. -/
structure TrackSummary where
  id : String
  durationUs : Nat
deriving DecidableEq, Repr

/-- A track from an external source. -/
structure TrackBase where
  source : String
  id : String
  durationUs : Nat
deriving DecidableEq, Repr

/-- Exactly one of `track` and `external` is set. -/
inductive ItemOf where
  | track (t : TrackSummary)
  | external (t : TrackBase)
deriving DecidableEq, Repr

def ItemOf.durationUs : ItemOf → Nat
  | .track t => t.durationUs
  | .external t => t.durationUs

structure PlaylistItem where
  of : ItemOf
  addedAt : String
deriving DecidableEq, Repr

inductive EntityType where
  | track | album | artist | playlist | tag | mix | library
deriving DecidableEq, Repr

/-- What an edit names. -/
inductive Playable where
  | entity (type : EntityType) (id : String)
  | external (sourceId externalId : String)
deriving DecidableEq, Repr

def toPlayable (item : PlaylistItem) : Playable :=
  match item.of with
  | .track t => .entity .track t.id
  | .external t => .external t.source t.id

structure Playlist where
  id : String
  libraryId : String
  version : Nat
  title : String
  description : Option String
  pinned : Bool
  trackCount : Nat
  durationUs : Nat
  image : Option String
deriving DecidableEq, Repr

/-- A playlist and every item in it, at one version. -/
structure LoadedPlaylist where
  playlist : Playlist
  items : List PlaylistItem
deriving DecidableEq, Repr

/-- An edit without its base version. -/
structure PlaylistChange where
  title : Option String := none
  description : Option (Option String) := none
  pinned : Option Bool := none
  ops : Option (List (PlaylistOp Playable)) := none
deriving DecidableEq, Repr

/-- An edit that is not confirmed yet, with its idempotency key and what its adds name. -/
structure Pending where
  change : PlaylistChange
  key : String
  resolve : Resolve Playable PlaylistItem

/-- The edit's ops, applied as they were here, with the same added tracks. -/
def Pending.apply (next : Pending) (items : List PlaylistItem) :
    Except Thrown (List PlaylistItem) :=
  match next.change.ops with
  | none => .ok items
  | some ops => applyOps next.resolve items ops

/-- The request that an edit is sent as. -/
structure Request where
  libraryId : String
  playlistId : String
  change : PlaylistChange
  baseVersion : Nat
  key : String
deriving DecidableEq, Repr

/-! ### Failures -/

/-- What a request is rejected with. -/
inductive Failure where
  | api (status : Nat) (code : Option String) (message : String) (retryAfter : Option Nat)
  | typeError
  | other
deriving DecidableEq, Repr

/-- Whether the server is out of reach or overloaded, rather than refusing the edit. -/
def unreachable : Failure → Bool
  | .api status code _ _ => decide (status ≥ 500) || decide (code = some "rate_limited")
  | .typeError => true
  | .other => false

def versionConflict : Failure → Bool
  | .api _ code _ _ => decide (code = some "version_conflict")
  | _ => false

def maxRetryMs : Nat := 30000

def retryDelay (e : Failure) (attempt : Nat) : Nat :=
  let backoff := min maxRetryMs (1000 * 2 ^ attempt)
  match e with
  | .api _ _ _ (some seconds) => if seconds = 0 then backoff else seconds * 1000
  | _ => backoff

def conflictMessage : String :=
  "This playlist changed on another device, so your change wasn’t applied."

/-- What JavaScript takes for a blank. -/
def isBlank (c : Char) : Bool :=
  let n := c.toNat
  decide (9 ≤ n ∧ n ≤ 13) || decide (8192 ≤ n ∧ n ≤ 8202) ||
    [32, 160, 5760, 8232, 8233, 8239, 8287, 12288, 65279].contains n

def trim (text : List Char) : List Char :=
  ((text.dropWhile isBlank).reverse.dropWhile isBlank).reverse

/-- What the user is told of a refusal. -/
def refusedMessage (e : Failure) : String :=
  let message := match e with
    | .api _ _ message _ => message
    | _ => ""
  String.ofList (trim ("Couldn’t save your change. " ++ message).toList)

/-! ### The playlist -/

/-- An array that was shown: which one it is, and its items. -/
structure Shown where
  array : Nat
  items : List PlaylistItem
deriving DecidableEq, Repr

/-- Where sending is: the answer to `next`, asked against `base`, is awaited, or a time to ask
again, or the playlist reloads. -/
inductive Sending where
  | idle
  | asking (next : Pending) (base : LoadedPlaylist) (attempt : Nat)
  | waiting (ms attempt : Nat)
  | reloading (attempt : Nat)

/-- An edit's undo: the array the edit left, and the edit that reverses it. -/
structure Undo where
  after : Shown
  undo : PlaylistChange
  resolve : Resolve Playable PlaylistItem

structure EditablePlaylist where
  playlist : Playlist
  items : Shown
  confirmed : LoadedPlaylist
  queue : List Pending
  sending : Sending
  added : Bool
  /-- The undos given out, oldest first. -/
  undos : List Undo
  /-- How many arrays were shown. -/
  arrays : Nat

/-- What is done besides: a request, a message to the user, or an error to the caller. -/
inductive Output where
  | request (r : Request)
  | toast (message : String)
  | threw (e : Thrown)
deriving DecidableEq, Repr

namespace EditablePlaylist

def new (loaded : LoadedPlaylist) : EditablePlaylist where
  playlist := loaded.playlist
  items := ⟨0, loaded.items⟩
  confirmed := loaded
  queue := []
  sending := .idle
  added := false
  undos := []
  arrays := 1

/-- `items` shown as an array of their own: `$state` wraps a plain array anew each time it is set. -/
def showItems (s : EditablePlaylist) (items : List PlaylistItem) : EditablePlaylist :=
  { s with items := ⟨s.arrays, items⟩, arrays := s.arrays + 1 }

/-- The details of `change` over those of `playlist`. -/
def details (playlist : Playlist) (change : PlaylistChange) : Playlist :=
  { playlist with
    title := change.title.getD playlist.title
    description := change.description.getD playlist.description
    pinned := change.pinned.getD playlist.pinned }

/-- The confirmed details with pending ones over them; totals count what shows here. -/
def presented (confirmed : Playlist) (queue : List Pending) (items : List PlaylistItem) :
    Playlist :=
  if queue.isEmpty then confirmed
  else
    let playlist := queue.foldl (fun playlist next => details playlist next.change) confirmed
    { playlist with
      trackCount := items.length
      durationUs := (items.map fun item => item.of.durationUs).sum
      image := if items.isEmpty then none else playlist.image }

def present (s : EditablePlaylist) : EditablePlaylist :=
  { s with playlist := presented s.confirmed.playlist s.queue s.items.items }

/-- Drops every pending edit, showing what the server last confirmed. -/
def reset (s : EditablePlaylist) : EditablePlaylist :=
  { showItems { s with queue := [] } s.confirmed.items with playlist := s.confirmed.playlist }

/-- The next turn of the loop that sends: the oldest edit, or the end. -/
def ask (s : EditablePlaylist) (attempt : Nat) : EditablePlaylist × List Output :=
  match s.queue with
  | [] => ({ s with sending := .idle }, [])
  | next :: _ =>
    ({ s with sending := .asking next s.confirmed attempt },
      [.request ⟨s.confirmed.playlist.libraryId, s.confirmed.playlist.id, next.change,
        s.confirmed.playlist.version, next.key⟩])

/-- Sends, unless that is under way. -/
def send (s : EditablePlaylist) : EditablePlaylist × List Output :=
  match s.sending with
  | .idle => s.ask 0
  | _ => (s, [])

def isAdd : PlaylistOp Playable → Bool
  | .add _ _ => true
  | _ => false

/-- The ops that undo `change`, and what they bring back. -/
def inverse (before : List PlaylistItem) (change : PlaylistChange)
    (resolve : Resolve Playable PlaylistItem) :
    Except Thrown (Inverse Playable PlaylistItem) :=
  match change.ops with
  | none => .ok ⟨[], resolve⟩
  | some ops => invertOps before ops resolve toPlayable

/-- The edit that reverses `change`. -/
def undoOf (before : Playlist) (change : PlaylistChange)
    (inverse : Inverse Playable PlaylistItem) : PlaylistChange where
  title := change.title.map fun _ => before.title
  description := change.description.map fun _ => before.description
  pinned := change.pinned.map fun _ => before.pinned
  ops := if inverse.ops.isEmpty then none else some inverse.ops

/-- An edit shown, as the array `after` where it has ops, and queued. -/
def enqueue (s : EditablePlaylist) (next : Pending) (after : List PlaylistItem) :
    EditablePlaylist :=
  let shown := if next.change.ops.isSome then s.showItems after else s
  present { shown with
    added := shown.added || (next.change.ops.getD []).any isAdd
    queue := shown.queue ++ [next] }

/-- An edit made here and queued for the server, with its undo. -/
def makeEdit (s : EditablePlaylist) (change : PlaylistChange)
    (resolve : Resolve Playable PlaylistItem) (key : String) :
    Except Thrown (EditablePlaylist × List Output × Undo) :=
  let next : Pending := ⟨change, key, resolve⟩
  match next.apply s.items.items with
  | .error e => .error e
  | .ok after =>
    let (sent, outputs) := (s.enqueue next after).send
    match inverse s.items.items change resolve with
    | .error e => .error e
    | .ok inverse =>
      .ok (sent, outputs, ⟨sent.items, undoOf s.playlist change inverse, inverse.resolve⟩)

/-- The tracks an add names, by the summaries given with it. -/
def resolveAdded (tracks : List TrackSummary) (addedAt : String) :
    Resolve Playable PlaylistItem := fun named =>
  match named.playables.mapM fun
    | .entity .track id => tracks.find? (·.id = id)
    | _ => none with
  | none => .error .noSummary
  | some added => .ok (added.map fun track => ⟨.track track, addedAt⟩)

/-- Applies `change` here at once and queues it, keeping its undo. -/
def edit (s : EditablePlaylist) (change : PlaylistChange) (tracks : List TrackSummary)
    (addedAt key : String) : EditablePlaylist × List Output :=
  match s.makeEdit change (resolveAdded tracks addedAt) key with
  | .error e => (s, [.threw e])
  | .ok (s', outputs, undo) => ({ s' with undos := s'.undos ++ [undo] }, outputs)

/-- An undo called: nothing once the contents have changed again, or with nothing to reverse. -/
def callUndo (s : EditablePlaylist) (undo : Undo) (key : String) :
    EditablePlaylist × List Output :=
  if s.items.array ≠ undo.after.array ∨ undo.undo = {} then (s, [])
  else
    match s.makeEdit undo.undo undo.resolve key with
    | .error e => (s, [.threw e])
    | .ok (s', outputs, _) => (s', outputs)

/-- The oldest edit confirmed, with the playlist the server answered. -/
def confirm (s : EditablePlaylist) (next : Pending) (base : LoadedPlaylist) (attempt : Nat)
    (confirmed : Playlist) : EditablePlaylist × List Output :=
  match next.apply base.items with
  | .error _ =>
    let (s', outputs) := s.reset.ask attempt
    (s', .toast (refusedMessage .other) :: outputs)
  | .ok items =>
    ask (present { s with confirmed := ⟨confirmed, items⟩, queue := s.queue.tail }) 0

/-- An edit not confirmed: asked again later, or everything pending is dropped, after a reload
where the playlist changed elsewhere. -/
def refuse (s : EditablePlaylist) (attempt : Nat) (e : Failure) :
    EditablePlaylist × List Output :=
  if unreachable e then
    ({ s with sending := .waiting (retryDelay e attempt) (attempt + 1) }, [])
  else if versionConflict e then ({ s with sending := .reloading attempt }, [])
  else
    let (s', outputs) := s.reset.ask attempt
    (s', .toast (refusedMessage e) :: outputs)

/-- After a conflict: the server's playlist, with nothing of this device's pending. -/
def reloaded (s : EditablePlaylist) (attempt : Nat) (loaded : Option LoadedPlaylist) :
    EditablePlaylist × List Output :=
  let (s', outputs) := (reset { s with confirmed := loaded.getD s.confirmed }).ask attempt
  (s', .toast conflictMessage :: outputs)

/-- What comes to the playlist: an edit, the `n`-th undo called, the answer to the request under
way, the end of a wait, or what a reload gave. -/
inductive Input where
  | edit (change : PlaylistChange) (tracks : List TrackSummary) (addedAt key : String)
  | undo (n : Nat) (key : String)
  | answer (answer : Except Failure Playlist)
  | wake
  | loaded (loaded : Option LoadedPlaylist)

/-- One input taken. What does not await its input is left as it is. -/
def step (s : EditablePlaylist) : Input → EditablePlaylist × List Output
  | .edit change tracks addedAt key => s.edit change tracks addedAt key
  | .undo n key =>
    match s.undos[n]? with
    | none => (s, [])
    | some undo => s.callUndo undo key
  | .answer answer =>
    match s.sending with
    | .asking next base attempt =>
      match answer with
      | .ok confirmed => s.confirm next base attempt confirmed
      | .error e => s.refuse attempt e
    | _ => (s, [])
  | .wake =>
    match s.sending with
    | .waiting _ attempt => s.ask attempt
    | _ => (s, [])
  | .loaded loaded =>
    match s.sending with
    | .reloading attempt => s.reloaded attempt loaded
    | _ => (s, [])

/-- The playlist after `inputs`. -/
def runFrom (s : EditablePlaylist) (inputs : List Input) : EditablePlaylist :=
  inputs.foldl (fun s input => (s.step input).1) s

def run (loaded : LoadedPlaylist) (inputs : List Input) : EditablePlaylist :=
  (new loaded).runFrom inputs

end EditablePlaylist

end JewelCase.Editing
