

/-!
# Recording plays

`crates/server/src/api/plays.rs` and the plays of `migrations/0005_activity.sql`. A play is
reported when it starts, again as listen time accumulates, and when it ends, each time under the ID
its device chose. How JSON reads as text is a parameter.
-/
namespace JewelCase.Plays

set_option autoImplicit false

inductive End where
  | finished
  | skipped
  | stopped
deriving DecidableEq, Repr

inductive Origin where
  | manual
  | context
  | automatic
deriving DecidableEq, Repr

inductive Json where
  | null
  | bool (value : Bool)
  | number (text : String)
  | string (text : String)
  | array (items : List Json)
  | object (fields : List (String × Json))

structure Problem where
  detail : String
deriving DecidableEq, Repr

/-- The account and device a request is from. -/
structure Caller where
  user : Int
  device : Int
  admin : Bool
deriving DecidableEq, Repr

structure PlayReport where
  playId : String
  libraryId : Option Int
  /-- The track, where one is named at all; one named badly is none. -/
  trackId : Option (Option Int)
  external : Bool
  startedAt : Int
  listenTimeMs : Nat
  ended : Option End
  context : Json
  origin : Origin
  reason : Option Json

/-- A report checked and ready to record. -/
structure Play where
  id : String
  library : Option Int
  track : Option Int
  startedAt : Int
  listenTimeMs : Nat
  ended : Option End
  context : String
  origin : Origin
  reason : Option String
deriving DecidableEq, Repr

/-- The most reports one request holds. -/
def MAX_REPORTS : Nat := 500

/-- The most bytes a report's `context` or `reason` takes as JSON. -/
def MAX_JSON_BYTES : Nat := 4096

/-! ### Checking -/

def Json.isObject : Json → Bool
  | .object _ => true
  | _ => false

def Json.isString : Json → Bool
  | .string _ => true
  | _ => false

/-- The value of an object's field. -/
def Json.get : Json → String → Option Json
  | .object fields, name => (fields.find? fun field => field.1 = name).map Prod.snd
  | _, _ => none

variable (render : Json → String)

/-- `value` as JSON text, if it is an object, with a string `type` when `typed`, and not large. -/
def jsonText (value : Json) (field : String) (typed : Bool) : Except Problem String :=
  if value.isObject = false ∨ typed = true ∧ (value.get "type").any Json.isString = false then
    let needs := if typed then "an object with a string type" else "an object"
    .error ⟨field ++ " is " ++ needs ++ "."⟩
  else if MAX_JSON_BYTES < (render value).utf8ByteSize then .error ⟨field ++ " is at most 4 KiB."⟩
  else .ok (render value)

/-- A report as a play to record, none for an external track's. -/
def checked (report : PlayReport) (now : Int) : Except Problem (Option Play) :=
  match report.trackId, report.external with
  | some track, false => do
    let context ← jsonText render report.context "A play's context" true
    let reason ← report.reason.mapM fun reason => jsonText render reason "A play's reason" false
    pure (some
      { id := report.playId
        library := report.libraryId
        track := track
        startedAt := max 0 (min now report.startedAt)
        listenTimeMs := report.listenTimeMs
        ended := report.ended
        context := context
        origin := report.origin
        reason := reason })
  | none, true => .ok none
  | _, _ => .error ⟨"A play names exactly one of trackId and external."⟩

/-! ### Tables -/

/-- A track as history shows and statistics count it once it is gone. -/
structure Snapshot where
  title : String
  artists : String
  artistKeys : String
  album : Option String
  albumTitleKey : String
  albumArtistsKey : String
  genreKeys : String
  releaseDate : Option String
  durationUs : Int
deriving DecidableEq, Repr

structure Track where
  id : Int
  libraryId : Int
  snapshot : Snapshot
deriving DecidableEq, Repr

/-- The tracks, and the libraries each user has. -/
structure Catalog where
  tracks : List Track
  libraryAccess : List (Int × Int)

/-- A row of `plays`. -/
structure PlayRow where
  id : String
  userId : Int
  deviceId : Int
  libraryId : Int
  trackId : Int
  snapshot : Snapshot
  startedAt : Int
  listenTimeMs : Nat
  ended : Option End
  context : String
  origin : Origin
  reason : Option String
  updatedAt : Int
deriving DecidableEq, Repr

inductive Kind where
  | started
  | ended
deriving DecidableEq, Repr

/-- A row of `play_events`. -/
structure PlayEvent where
  seq : Nat
  playId : String
  userId : Int
  libraryId : Int
  kind : Kind
  reportedAt : Int
deriving DecidableEq, Repr

structure Tables where
  plays : List PlayRow
  events : List PlayEvent
  /-- The last sequence number of `play_events`, which are never used again. -/
  seq : Nat

def Tables.empty : Tables := ⟨[], [], 0⟩

/-- The rows are of one play. -/
def PlayRow.same (a b : PlayRow) : Bool := a.userId = b.userId && a.id = b.id

def Tables.addEvent (tables : Tables) (row : PlayRow) (kind : Kind) : Tables :=
  { tables with
    events := tables.events ++
      [⟨tables.seq + 1, row.id, row.userId, row.libraryId, kind, row.updatedAt⟩]
    seq := tables.seq + 1 }

/-- The trigger `plays_first_report`. -/
def Tables.firstReport (tables : Tables) (row : PlayRow) : Tables :=
  let tables := tables.addEvent row (if row.ended.isNone then .started else .ended)
  { tables with events := tables.events.filter fun event =>
      ¬ (event.kind = .started ∧ event.reportedAt < row.updatedAt - 3600000) }

/-- The trigger `plays_end`. -/
def Tables.playEnd (tables : Tables) (old row : PlayRow) : Tables :=
  if old.ended = none ∧ row.ended ≠ none then tables.addEvent row .ended else tables

/-- What the latest report changes of a play's row. -/
def PlayRow.refresh (old excluded : PlayRow) : PlayRow :=
  { old with
    snapshot := excluded.snapshot
    listenTimeMs := max old.listenTimeMs excluded.listenTimeMs
    ended := excluded.ended.or old.ended
    updatedAt := excluded.updatedAt }

/-- A report's row, inserted or taken into the play's. -/
def Tables.upsert (tables : Tables) (row : PlayRow) : Tables :=
  match tables.plays.find? row.same with
  | none => { tables with plays := tables.plays ++ [row] }.firstReport row
  | some old =>
    if old.trackId = row.trackId then
      { tables with plays := tables.plays.map fun play =>
          if row.same play then old.refresh row else play }.playEnd old (old.refresh row)
    else tables

/-! ### Requests -/

/-- The track a play names, in a library the caller reaches. -/
def Catalog.find (catalog : Catalog) (caller : Caller) (play : Play) : Option Track :=
  catalog.tracks.find? fun track =>
    some track.id = play.track ∧ some track.libraryId = play.library ∧
      (caller.admin ∨ (caller.user, track.libraryId) ∈ catalog.libraryAccess)

/-- The row of a report, where it is recorded at all. -/
def rowOf (catalog : Catalog) (caller : Caller) (now : Int) (play : Play) : Option PlayRow :=
  (catalog.find caller play).map fun track =>
    { id := play.id
      userId := caller.user
      deviceId := caller.device
      libraryId := track.libraryId
      trackId := track.id
      snapshot := track.snapshot
      startedAt := play.startedAt
      listenTimeMs := play.listenTimeMs
      ended := play.ended
      context := play.context
      origin := play.origin
      reason := play.reason
      updatedAt := now }

/-- Records plays for a caller, as heard at `now`. -/
def save (catalog : Catalog) (tables : Tables) (caller : Caller) (plays : List Play) (now : Int) :
    Tables :=
  plays.foldl (fun tables play =>
    match rowOf catalog caller now play with
    | none => tables
    | some row => tables.upsert row) tables

/-- A request to record plays, with the catalog as it then is. -/
structure Request where
  caller : Caller
  items : List PlayReport
  now : Int
  catalog : Catalog

/-- The plays a request holds, or the problem that makes it malformed. -/
def Request.plays (request : Request) : Except Problem (List Play) :=
  if MAX_REPORTS < request.items.length then .error ⟨"A request holds at most 500 plays."⟩
  else (request.items.mapM fun report => checked render report request.now).map fun plays =>
    plays.filterMap id

/-- Records every report, or none. -/
def record (tables : Tables) (request : Request) : Except Problem Tables :=
  (request.plays render).map fun plays =>
    save request.catalog tables request.caller plays request.now

/-- The tables after a request, which a refused one leaves as they are. -/
def step (tables : Tables) (request : Request) : Tables :=
  match record render tables request with
  | .ok tables => tables
  | .error _ => tables

def after (requests : List Request) : Tables := requests.foldl (step render) .empty

end JewelCase.Plays
