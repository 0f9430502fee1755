import JewelCase.Library.Keyed
import JewelCase.Network.Limits
import JewelCase.Store.Roots

/-!
# Scan problems and their groups

A scan's problems are one row a path, and each is in a group of its kind, its root and its detail
without paths and numbers. A group keeps how many problems it holds, moved by one as a problem joins
or leaves it. Recording and clearing problems keeps the counts right, and no group is left empty.
-/
namespace JewelCase.Store

open JewelCase.Library

set_option autoImplicit false

inductive ProblemKind where
  | unreadable
  | permissionDenied
  | malformedTags
  | unsupportedEncoding
  | corruptAudio
  | stalled
deriving DecidableEq, Repr

/-- A kind's name, as `Debug` writes it. -/
def ProblemKind.name : ProblemKind → Text
  | .unreadable => ['U', 'n', 'r', 'e', 'a', 'd', 'a', 'b', 'l', 'e']
  | .permissionDenied =>
    ['P', 'e', 'r', 'm', 'i', 's', 's', 'i', 'o', 'n', 'D', 'e', 'n', 'i', 'e', 'd']
  | .malformedTags => ['M', 'a', 'l', 'f', 'o', 'r', 'm', 'e', 'd', 'T', 'a', 'g', 's']
  | .unsupportedEncoding =>
    ['U', 'n', 's', 'u', 'p', 'p', 'o', 'r', 't', 'e', 'd', 'E', 'n', 'c', 'o', 'd', 'i', 'n', 'g']
  | .corruptAudio => ['C', 'o', 'r', 'r', 'u', 'p', 't', 'A', 'u', 'd', 'i', 'o']
  | .stalled => ['S', 't', 'a', 'l', 'l', 'e', 'd']

/-- A problem with one file. -/
structure Problem where
  path : FilePath
  kind : ProblemKind
  detail : Text
  seenAt : Int
deriving DecidableEq, Repr

/-! ### Group keys -/

/-- What a character adds to a normalized detail: a run of digits is one `#`. -/
def normalizeChar (state : Text × Bool) (ch : Char) : Text × Bool :=
  if ch.isDigit then (if state.2 then state.1 else state.1 ++ ['#'], true)
  else (state.1 ++ [ch.toLower], false)

/-- What a word adds: nothing if it has a path separator. -/
def normalizeToken (state : Text × Bool) (token : Text) : Text × Bool :=
  if token.contains '/' || token.contains '\\' then state
  else
    let state := token.foldl normalizeChar state
    (state.1 ++ [' '], state.2)

def splitWhitespace (text : Text) : List Text :=
  (text.splitOnP Network.isWhitespace).filter fun token => !token.isEmpty

def trimEnd (text : Text) : Text := (text.reverse.dropWhile Network.isWhitespace).reverse

def normalizeDetail (detail : Text) : Text :=
  trimEnd ((splitWhitespace detail).foldl normalizeToken ([], false)).1

/-- Kind, root, and the detail with paths and numbers stripped. -/
def problemGroupKey (kind : ProblemKind) (root : FilePath) (detail : Text) : Text :=
  kind.name ++ '|' :: (display root ++ '|' :: normalizeDetail detail)

/-! ### Tables -/

structure Group where
  id : Int
  library : Int
  kind : ProblemKind
  groupKey : Text
  summary : Text
  count : Int
  firstSeenAt : Int
  lastSeenAt : Int
deriving DecidableEq, Repr

structure Row where
  library : Int
  group : Int
  root : Int
  path : Text
  detail : Text
  seenAt : Int
deriving DecidableEq, Repr

/-- A group as it is counted: its count moves by `delta` if it is `group`. -/
def Group.counted (g : Group) (group delta : Int) : Group :=
  if g.id = group then { g with count := g.count + delta } else g

/-- A group as it is seen: it was last seen no earlier than `seenAt` if it is the library's of
`key`. -/
def Group.seen (g : Group) (library : Int) (key : Text) (seenAt : Int) : Group :=
  if g.library = library ∧ g.groupKey = key then { g with lastSeenAt := max g.lastSeenAt seenAt }
  else g

/-- What a problem's row is kept by: its root and its path below it. -/
abbrev Key := Int × Text

def Row.key (row : Row) : Key := (row.root, row.path)

/-- A row as it is updated: it takes a problem's detail and time if it is at `key`. -/
def Row.updated (row : Row) (key : Key) (problem : Problem) : Row :=
  if row.key = key then { row with detail := problem.detail, seenAt := problem.seenAt } else row

structure Tables where
  groups : List Group
  problems : List Row
deriving DecidableEq, Repr

namespace Tables

/-- The group that the problem at `key` is in. -/
def groupAt (s : Tables) (key : Key) : Option Int :=
  (Keyed.find Row.key s.problems key).map (·.group)

/-- Finds a problem's group or makes it, and has it seen. `drawn` is the new group's ID: an insert
fails if another has it. -/
def upsertGroup (s : Tables) (drawn library : Int) (key : Text) (problem : Problem) :
    Option (Int × Tables) :=
  match s.groups.find? fun g => decide (g.library = library ∧ g.groupKey = key) with
  | some found =>
    some (found.id, { s with groups := s.groups.map fun g => g.seen library key problem.seenAt })
  | none =>
    if s.groups.any fun g => decide (g.id = drawn) then none
    else
      some (drawn, { s with
        groups := s.groups ++ [{
          id := drawn, library := library, kind := problem.kind, groupKey := key
          summary := problem.detail, count := 0
          firstSeenAt := problem.seenAt, lastSeenAt := problem.seenAt }] })

def updateRow (s : Tables) (key : Key) (problem : Problem) : Tables :=
  { s with problems := s.problems.map fun row => row.updated key problem }

def deleteRow (s : Tables) (key : Key) : Tables :=
  { s with problems := Keyed.without Row.key s.problems key }

def insertRow (s : Tables) (row : Row) : Tables := { s with problems := s.problems ++ [row] }

/-- Moves a group's count by `by`. As a problem leaves, the group is deleted if no problem is left
in it. -/
def countInGroup (s : Tables) (group delta : Int) : Tables :=
  let s := { s with groups := s.groups.map fun g => g.counted group delta }
  if delta < 0 then
    { s with
      groups := s.groups.filter fun g =>
        !(decide (g.id = group) && !s.problems.any fun row => decide (row.group = group)) }
  else s

end Tables

/-! ### Recording and clearing -/

variable (roots : Roots)

/-- Records a problem in its group, replacing any problem already recorded at its path, and counts
it out of the group it leaves and into the one it joins. `none` is an insert that fails. -/
def recordProblem (s : Tables) (library : Int) (problem : Problem) (drawn : Int) : Option Tables :=
  match roots.locate library problem.path with
  | none => some s
  | some (rootId, rel) =>
    match roots.root library rootId with
    | none => some s
    | some rootPath => do
      let key := problemGroupKey problem.kind rootPath problem.detail
      let (group, s) ← s.upsertGroup drawn library key problem
      let existing := s.groupAt (rootId, rel)
      if existing = some group then return s.updateRow (rootId, rel) problem
      else
        let s := (s.deleteRow (rootId, rel)).insertRow
          { library := library, group := group, root := rootId, path := rel
            detail := problem.detail, seenAt := problem.seenAt }
        let s := s.countInGroup group 1
        match existing with
        | none => return s
        | some old => return s.countInGroup old (-1)

/-- Deletes the problem at `key` when `group`, the group it is in, is some, and counts it out of
that group. -/
def clearProblemRel (s : Tables) (key : Key) (group : Option Int) : Tables :=
  match group with
  | none => s
  | some group => (s.deleteRow key).countInGroup group (-1)

/-- Clears any problem recorded at `path`. -/
def clearProblem (s : Tables) (library : Int) (path : FilePath) : Tables :=
  match roots.locate library path with
  | none => s
  | some key => clearProblemRel s key (s.groupAt key)

/-- Clears the problem at `path` if it is of one of `kinds`. -/
def clearProblemOf (s : Tables) (library : Int) (path : FilePath) (kinds : List ProblemKind) :
    Tables :=
  match roots.locate library path with
  | none => s
  | some key =>
    clearProblemRel s key <| (s.groupAt key).bind fun group =>
      (s.groups.find? fun g => decide (g.id = group ∧ g.kind ∈ kinds)).map (·.id)

/-- A call on the tables. -/
inductive Call where
  | record (library : Int) (problem : Problem) (drawn : Int)
  | clear (library : Int) (path : FilePath)
  | clearOf (library : Int) (path : FilePath) (kinds : List ProblemKind)
deriving DecidableEq, Repr

def apply (s : Tables) : Call → Option Tables
  | .record library problem drawn => recordProblem roots s library problem drawn
  | .clear library path => some (clearProblem roots s library path)
  | .clearOf library path kinds => some (clearProblemOf roots s library path kinds)

/-- The tables after calls that all succeed. -/
def applyAll (calls : List Call) : Option Tables := calls.foldlM (apply roots) ⟨[], []⟩

/-! ### What is meant -/

/-- A problem as it is kept. -/
structure Recorded where
  kind : ProblemKind
  detail : Text
  seenAt : Int
deriving DecidableEq, Repr

/-- The last problem recorded at each path and not cleared since, after one more call. -/
def Call.held (held : Key → Option Recorded) : Call → Key → Option Recorded
  | .record library problem _, key =>
    if roots.locate library problem.path = some key then
      some ⟨problem.kind, problem.detail, problem.seenAt⟩
    else held key
  | .clear library path, key => if roots.locate library path = some key then none else held key
  | .clearOf library path kinds, key =>
    if roots.locate library path = some key then (held key).filter fun r => r.kind ∉ kinds
    else held key

def heldAfter (calls : List Call) : Key → Option Recorded :=
  calls.foldl (Call.held roots) fun _ => none

/-- The problem that the tables hold at `key`, of its group's kind. -/
def Tables.recorded (s : Tables) (key : Key) : Option Recorded := do
  let row ← Keyed.find Row.key s.problems key
  let group ← Keyed.find Group.id s.groups row.group
  return ⟨group.kind, row.detail, row.seenAt⟩

/-- How many problems a group holds. -/
def Tables.held (s : Tables) (group : Int) : Nat := s.problems.countP fun row => row.group = group

/-- **What the tables keep to.** -/
structure Tables.Sound (s : Tables) : Prop where
  /-- A path has at most one problem. -/
  rows : (s.problems.map Row.key).Nodup
  ids : (s.groups.map Group.id).Nodup
  /-- A group's key begins with its kind. -/
  kinds : ∀ g ∈ s.groups, ∃ rest, g.groupKey = g.kind.name ++ '|' :: rest
  placed : ∀ row ∈ s.problems, ∃ g ∈ s.groups, g.id = row.group
  counts : ∀ g ∈ s.groups, g.count = s.held g.id
  /-- No group is empty. -/
  filled : ∀ g ∈ s.groups, 0 < s.held g.id

end JewelCase.Store
