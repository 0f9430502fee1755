import JewelCase.Plugins.Grants

/-!
# Tag types and the generation that files are read with

`crates/server/src/db/store/tag_types.rs`, `crates/scanner/src/scan/file.rs` and the tags of
`crates/scanner/src/tags.rs` and `crates/server/src/db/store/upsert.rs`, for one library, whose scans
run one at a time. A track is named by its path. How a file's own tags are read is a parameter, and
of a record only the tags are kept.
-/
namespace JewelCase.Scanner

open JewelCase.Plugins (Manifest TagType TagTypes)

set_option autoImplicit false

/-- A tag type as a scan reads it: from an item all formats have, and else from a field. -/
structure TagTypeField where
  key : String
  item : Option String
  field : Option String
deriving DecidableEq, Repr

/-- A release and its built-in types. Its plugins' keys have a dot, and those have none. -/
structure Release where
  /-- `BUILT_IN_GENERATION` -/
  number : Nat
  builtIn : List TagTypeField
  undotted : ∀ type ∈ builtIn, '.' ∉ type.key.toList
  once : (builtIn.map TagTypeField.key).Nodup

/-- How a file's tags are read. -/
structure Reader (Contents : Type) where
  strings : Contents → String → List String
  custom : Contents → String → List String

/-- The tag types a scan reads, and the generation they are read with. -/
structure Reading where
  fields : List TagTypeField
  generation : Nat

/-- `TagTypes::with` -/
def Reading.withAdded (release : Release) (added : List TagType) (generation : Nat) : Reading :=
  ⟨release.builtIn ++ added.map fun type => ⟨type.key, none, some type.field⟩, generation⟩

variable {Contents : Type} (reader : Reader Contents)

/-- The values of a type in a file. -/
def Reader.values (contents : Contents) (type : TagTypeField) : List String :=
  let values := (type.item.map (reader.strings contents)).getD []
  if values.isEmpty then (type.field.map (reader.custom contents)).getD [] else values

/-- `TagSet::set_values` -/
def setValues (tagValues : List (String × List String)) (key : String) (values : List String) :
    List (String × List String) :=
  let others := tagValues.filter fun entry => entry.1 ≠ key
  if values.isEmpty then others else others ++ [(key, values)]

/-- The values of each type in a file. -/
def Reader.read (types : Reading) (contents : Contents) : List (String × List String) :=
  types.fields.foldl (fun tagValues type =>
    setValues tagValues type.key (reader.values contents type)) []

/-- `TagSet::values_of` -/
def valuesOf (tagValues : List (String × List String)) (key : String) : List String :=
  ((tagValues.find? fun entry => entry.1 = key).map Prod.snd).getD []

/-! ### Files -/

/-- A file as a folder lists it. -/
structure Candidate (Contents : Type) where
  size : Nat
  mtimeMs : Nat
  sidecarStamp : Nat
  /-- Unless it cannot be read. -/
  contents : Option Contents

structure Track (Contents : Type) where
  path : String
  size : Nat
  mtimeMs : Nat
  sidecarStamp : Nat
  missing : Bool
  tagsGeneration : Nat
  tagValues : List (String × List String)
  /-- What its file held as last read. -/
  file : Contents

/-- Tags read again from an unchanged file. -/
structure TagsReread (Contents : Type) where
  path : String
  tagValues : List (String × List String)
  tagsGeneration : Nat
  file : Contents

inductive FileOutcome (Contents : Type) where
  | unchanged
  | returned
  | added (record : Track Contents)
  | updated (record : Track Contents)
  | reread (reread : TagsReread Contents)
  | problem

/-- What a scan does with a file, given what the index holds at its path. -/
def processFile (types : Reading) (path : String) (candidate : Candidate Contents)
    (indexed : Option (Track Contents)) : FileOutcome Contents :=
  let record (contents : Contents) : Track Contents :=
    { path := path
      size := candidate.size
      mtimeMs := candidate.mtimeMs
      sidecarStamp := candidate.sidecarStamp
      missing := false
      tagsGeneration := types.generation
      tagValues := reader.read types contents
      file := contents }
  match indexed with
  | some ix =>
    if ix.size = candidate.size ∧ ix.mtimeMs = candidate.mtimeMs ∧
        ix.sidecarStamp = candidate.sidecarStamp then
      if ix.missing then .returned
      else if ix.tagsGeneration < types.generation then
        match candidate.contents with
        | some contents =>
          .reread ⟨path, reader.read types contents, types.generation, contents⟩
        | none => .problem
      else .unchanged
    else
      match candidate.contents with
      | some contents => .updated (record contents)
      | none => .problem
  | none =>
    match candidate.contents with
    | some contents => .added (record contents)
    | none => .problem

/-! ### Scans -/

/-- What a scan found as it came to a file. -/
inductive Came where
  | read
  | unread
  /-- Its track was missing. -/
  | returned
deriving DecidableEq, Repr

/-- One transaction's worth of outcomes. -/
structure Batch (Contents : Type) where
  upserts : List (Track Contents)
  rereads : List (TagsReread Contents)
  missing : List String
  returned : List String
  /-- The files that it came to. -/
  came : List (String × Came)

def Batch.empty : Batch Contents := ⟨[], [], [], [], []⟩

/-- What a scan has read of the tag types. -/
inductive Stage where
  /-- Not running, as after a restart. -/
  | idle
  | counted (generation : Nat)
  | reading (types : Reading)

structure Scan (Contents : Type) where
  /-- The generation as it began. -/
  began : Nat
  /-- The files it came to, as far as its cursor. -/
  came : List (String × Came)
  stage : Stage
  batch : Batch Contents

structure Database (Contents : Type) where
  types : TagTypes
  /-- The `BUILT_IN_GENERATION` last counted. -/
  builtIn : Nat
  /-- The release that runs. -/
  release : Option Release
  tracks : List (Track Contents)
  scan : Option (Scan Contents)

def Database.empty : Database Contents := ⟨⟨[], 0⟩, 0, none, [], none⟩

/-- Counts a release that adds to the built-in types, once. -/
def countBuiltIn (database : Database Contents) (release : Release) : Database Contents :=
  if database.builtIn < release.number then
    { database with
      types := { database.types with generation := database.types.generation + 1 }
      builtIn := release.number }
  else database

/-- `upsert_track` -/
def upsertTrack (tracks : List (Track Contents)) (record : Track Contents) :
    List (Track Contents) :=
  if tracks.any fun track => track.path = record.path then
    tracks.map fun track => if track.path = record.path then record else track
  else tracks ++ [record]

/-- `reread_tags` -/
def rereadTags (tracks : List (Track Contents)) (reread : TagsReread Contents) :
    List (Track Contents) :=
  tracks.map fun track =>
    if track.path = reread.path then
      { track with
        tagValues := reread.tagValues
        tagsGeneration := reread.tagsGeneration
        file := reread.file }
    else track

def setMissing (missing : Bool) (tracks : List (Track Contents)) (path : String) :
    List (Track Contents) :=
  tracks.map fun track => if track.path = path then { track with missing := missing } else track

/-- A batch, written in one transaction. -/
def Batch.write (batch : Batch Contents) (tracks : List (Track Contents)) : List (Track Contents) :=
  let tracks := batch.upserts.foldl upsertTrack tracks
  let tracks := batch.rereads.foldl rereadTags tracks
  let tracks := batch.missing.foldl (setMissing true) tracks
  batch.returned.foldl (setMissing false) tracks

/-- Adds what a scan does with a file to its batch. -/
def Batch.add (batch : Batch Contents) (path : String) : FileOutcome Contents → Batch Contents
  | .unchanged => { batch with came := batch.came ++ [(path, .read)] }
  | .returned =>
    { batch with returned := batch.returned ++ [path], came := batch.came ++ [(path, .returned)] }
  | .added record | .updated record =>
    { batch with upserts := batch.upserts ++ [record], came := batch.came ++ [(path, .read)] }
  | .reread reread =>
    { batch with rereads := batch.rereads ++ [reread], came := batch.came ++ [(path, .read)] }
  | .problem => { batch with came := batch.came ++ [(path, .unread)] }

/-- What a scan finds at a path. -/
inductive Found (Contents : Type) where
  | listed (candidate : Candidate Contents)
  /-- Its folder lists no such file. -/
  | gone
  /-- It, or its folder, cannot be listed. -/
  | unlisted

/-- Whether a scan of the whole library came to every file the index holds. -/
def Scan.cameToAll (scan : Scan Contents) (tracks : List (Track Contents)) : Bool :=
  scan.batch.came.isEmpty && scan.batch.missing.isEmpty &&
    tracks.all fun track => track.missing || scan.came.any fun came => came.1 = track.path

inductive Label (Contents : Type) where
  /-- A release starts the server, after a stop or a crash. -/
  | start (release : Release)
  /-- A plugin is granted `tagTypes`. -/
  | register (manifest : Manifest)
  | begin
  /-- The scan reads the generation, as it begins or goes on. -/
  | generation
  /-- Then it reads the types. -/
  | types
  | visit (path : String) (found : Found Contents)
  | flush
  | stop
  | complete
  /-- A track missing for long is deleted. -/
  | purge (path : String)

/-- One step. One that cannot be taken changes nothing. -/
def step (database : Database Contents) : Label Contents → Database Contents
  | .start release =>
    { countBuiltIn database release with
      release := some release
      scan := database.scan.map fun scan => { scan with stage := .idle, batch := .empty } }
  | .register manifest => { database with types := (database.types.register manifest).1 }
  | .begin =>
    match database.scan with
    | some _ => database
    | none => { database with scan := some ⟨database.types.generation, [], .idle, .empty⟩ }
  | .generation =>
    match database.scan with
    | some scan =>
      match scan.stage with
      | .idle =>
        { database with scan := some { scan with stage := .counted database.types.generation } }
      | .counted _ | .reading _ => database
    | none => database
  | .types =>
    match database.release, database.scan with
    | some release, some scan =>
      match scan.stage with
      | .counted generation =>
        { database with scan := some { scan with
            stage := .reading (.withAdded release database.types.added generation) } }
      | .idle | .reading _ => database
    | _, _ => database
  | .visit path found =>
    match database.scan with
    | some scan =>
      match scan.stage with
      | .reading types =>
        let batch := match found with
          | .listed candidate => scan.batch.add path (processFile reader types path candidate
              (database.tracks.find? fun track => track.path = path))
          | .gone => { scan.batch with missing := scan.batch.missing ++ [path] }
          | .unlisted => scan.batch.add path .problem
        { database with scan := some { scan with batch := batch } }
      | .idle | .counted _ => database
    | none => database
  | .flush =>
    match database.scan with
    | some scan =>
      { database with
        tracks := scan.batch.write database.tracks
        scan := some { scan with came := scan.came ++ scan.batch.came, batch := .empty } }
    | none => database
  | .stop =>
    { database with scan := database.scan.map fun scan =>
        { scan with stage := .idle, batch := .empty } }
  | .complete =>
    match database.scan with
    | some scan => if scan.cameToAll database.tracks then { database with scan := none } else database
    | none => database
  | .purge path =>
    { database with
      tracks := database.tracks.filter fun track => ¬ (track.path = path ∧ track.missing) }

/-- The database after steps from the start. -/
def after (labels : List (Label Contents)) : Database Contents :=
  labels.foldl (step reader) .empty

end JewelCase.Scanner
