import Mathlib.Data.List.Dedup
import Mathlib.Data.Prod.Lex
import Mathlib.Data.String.Basic
import JewelCase.Library.OrderedMap
import JewelCase.Page.Keyset

/-!
# Filters by tags

`crates/server/src/api/tag_filter.rs` and `page/filter.rs`. A list reads the rows that carry the
tags a filter names. The tags of one type in `tagAll` or in `tagAny` are a group; a page starts from
the rows of one group, its lead, or walks every row, and checks each row against the other groups.
A query's parameters stand in it where the source has their marks.
-/
namespace JewelCase.Filters

set_option autoImplicit false

open Library
open Page (Source)

variable {ρ : Type}

/-! ### What the library holds -/

structure TagRow where
  id : Int
  library : Int
  type : String
  /-- The stored count of the rows that carry the tag. -/
  count : Int
deriving DecidableEq, Repr

/-- A row of the link table, such as `track_tags`. -/
structure Link where
  library : Int
  owner : Int
  tag : Int
deriving DecidableEq, Repr

/-- The rows of a list's table, and how they carry tags. The counts are exact. -/
structure Contents (ρ : Type) where
  rows : List ρ
  id : ρ → Int
  library : ρ → Int
  tags : List TagRow
  links : List Link
  /-- The stored number of a library's rows. -/
  number : Int → Int
  rows_unique : (rows.map id).Nodup
  tags_unique : (tags.map TagRow.id).Nodup
  links_once : (links.map fun link => (link.owner, link.tag)).Nodup
  links_rows : ∀ link ∈ links, ∃ row ∈ rows, id row = link.owner ∧ library row = link.library
  links_tags : ∀ link ∈ links, ∃ tag ∈ tags, tag.id = link.tag ∧ tag.library = link.library
  counts : ∀ tag ∈ tags, tag.count = (links.filter fun link => link.tag = tag.id).length
  numbers : ∀ lib, number lib = (rows.filter fun row => library row = lib).length

/-! ### Queries -/

/-- `AND` -/
def and3 : Option Bool → Option Bool → Option Bool
  | some false, _ => some false
  | _, some false => some false
  | some true, some true => some true
  | _, _ => none

/-- A condition on a row, or on the ID that `idOf` gives of it. -/
inductive Condition (ρ : Type) where
  /-- `0` -/
  | never
  | meets (holds : ρ → Option Bool)
  /-- `EXISTS (SELECT 1 FROM links WHERE owner = row.id AND tag_id IN (tags))` -/
  | carriesOne (idOf : ρ → Int) (tags : List Int)
  /-- One `EXISTS` for each tag, joined by `AND` -/
  | carriesEach (idOf : ρ → Int) (tags : List Int)
  | both (a b : Condition ρ)

def linked (links : List Link) (owner tag : Int) : Bool :=
  links.any fun link => decide (link.owner = owner ∧ link.tag = tag)

def Condition.holds (links : List Link) : Condition ρ → ρ → Option Bool
  | .never, _ => some false
  | .meets holds, row => holds row
  | .carriesOne idOf tags, row =>
    some (links.any fun link => decide (link.owner = idOf row ∧ link.tag ∈ tags))
  | .carriesEach idOf tags, row => some (tags.all fun tag => linked links (idOf row) tag)
  | .both a b, row => and3 (a.holds links row) (b.holds links row)

/-- One check that a row passes when it passes every one of `checks`; none for none. -/
def checkAll : List (Condition ρ) → Option (Condition ρ)
  | [] => none
  | check :: checks => some (checks.foldl .both check)

/-- Reads the IDs of rows. -/
inductive Select where
  /-- The rows of an artist, say -/
  | given (ids : List Int)
  /-- `SELECT owner AS id FROM links WHERE tag_id = tag` -/
  | carrying (tag : Int)
  /-- `SELECT DISTINCT owner AS id FROM links WHERE tag_id IN (tags)` -/
  | distinct (tags : List Int)
  /-- `SELECT owner AS id FROM links WHERE tag_id = tag` for each tag, joined by `INTERSECT` -/
  | intersect (tags : List Int)
deriving DecidableEq, Repr

def owners (links : List Link) (tag : Int) : List Int :=
  (links.filter fun link => decide (link.tag = tag)).map Link.owner

def Select.run (links : List Link) : Select → List Int
  | .given ids => ids
  | .carrying tag => owners links tag
  | .distinct tags => ((links.filter fun link => decide (link.tag ∈ tags)).map Link.owner).dedup
  | .intersect [] => []
  | .intersect (tag :: tags) =>
    tags.foldl (fun ids tag => ids.dedup.filter fun id => decide (id ∈ owners links tag))
      (owners links tag)

/-- Rows a page starts from and sorts. -/
structure Lead where
  ids : Select
  size : Int
deriving DecidableEq, Repr

/-- Where a page's total comes from. -/
inductive Total where
  | stored (count : Int)
  | counted
deriving DecidableEq, Repr

/-- What a list reads, and where its total comes from. -/
structure Listing (ρ : Type) where
  source : Source ρ
  total : Total

/-- A page's total. -/
def Listing.number (listing : Listing ρ) : Int :=
  match listing.total with
  | .stored count => count
  | .counted =>
    (listing.source.rows.filter fun row => decide (listing.source.filter row = some true)).length

/-- The rows of the table, or those of `lead`. -/
def fromLead (contents : Contents ρ) : Option Lead → List ρ
  | none => contents.rows
  | some lead => (lead.ids.run contents.links).flatMap fun id =>
      contents.rows.filter fun row => decide (contents.id row = id)

def tableTotal (contents : Contents ρ) (library : Int) :
    Option Lead → Option (Condition ρ) → Total
  | none, none => .stored (contents.number library)
  | some lead, none => .stored lead.size
  | _, some _ => .counted

/-- A row is of `library`, and meets `check` if there is one. -/
def tableFilter (contents : Contents ρ) (library : Int) (check : Option (Condition ρ)) :
    Condition ρ :=
  let inLibrary := Condition.meets fun row => some (decide (contents.library row = library))
  match check with
  | none => inLibrary
  | some check => .both inLibrary check

/-- The rows of the table in `library`, or those of `lead`, that meet `check` if there is one. -/
def tableSource (contents : Contents ρ) (library : Int) (lead : Option Lead)
    (check : Option (Condition ρ)) : Listing ρ :=
  { source :=
      { rows := fromLead contents lead
        filter := (tableFilter contents library check).holds contents.links
        id := contents.id }
    total := tableTotal contents library lead check }

/-! ### Groups -/

inductive TagMatch where
  | any
  | all
deriving DecidableEq, Repr

def TagMatch.rank : TagMatch → Nat
  | .any => 0
  | .all => 1

theorem TagMatch.rank_injective : Function.Injective TagMatch.rank := by
  intro a b h
  cases a <;> cases b <;> first | rfl | cases h

instance : LinearOrder TagMatch := LinearOrder.lift' TagMatch.rank TagMatch.rank_injective

/-- The tags a list's rows carry every one of, and those they carry one of of each type; `none` is
text that is no ID. -/
structure TagFilter where
  all : List (Option Int)
  any : List (Option Int)
deriving DecidableEq, Repr

def TagFilter.isEmpty (filter : TagFilter) : Bool := filter.all.isEmpty && filter.any.isEmpty

/-- The tags of one type in `tagAll` or in `tagAny`. -/
structure Group where
  ids : List Int
  tagMatch : TagMatch
  /-- How many rows match the group at most. -/
  size : Int
deriving DecidableEq, Repr

/-- The tags a filter names, as the library holds them. -/
inductive Tags where
  | unfiltered
  | nothing
  | groups (groups : List Group)
deriving DecidableEq, Repr

/-- Every value, if none is missing. -/
def collect {α : Type} : List (Option α) → Option (List α)
  | [] => some []
  | none :: _ => none
  | some value :: rest => (collect rest).map (value :: ·)

def sortDedup (ids : List Int) : List Int := (ids.insertionSort (· ≤ ·)).dedup

/-- A group with one more tag, of `count` rows. -/
def Group.add (group : Group) (id count : Int) : Group :=
  { group with
    ids := group.ids ++ [id]
    size :=
      if group.ids.isEmpty then count
      else
        match group.tagMatch with
        | .any => group.size + count
        | .all => min group.size count }

/-- A group's place among the others: by type, and `tagAny`'s first. -/
abbrev GroupKey := String ×ₗ TagMatch

def addTag (found : List TagRow) (groups : OrderedMap GroupKey Group) (named : Int × TagMatch) :
    OrderedMap GroupKey Group :=
  match found.find? fun tag => decide (tag.id = named.1) with
  | none => groups
  | some tag =>
    groups.alter (toLex (tag.type, named.2)) fun group =>
      (group.getD ⟨[], named.2, 0⟩).add tag.id tag.count

/-- The tags of `library` that `filter` names, a group for each list's tags of each type. -/
def Tags.read (contents : Contents ρ) (library : Int) (filter : TagFilter) : Tags :=
  if filter.isEmpty then .unfiltered
  else
    match (collect filter.all).map sortDedup, (collect filter.any).map sortDedup with
    | some all, some any =>
      let named := sortDedup (all ++ any)
      let found := contents.tags.filter fun tag =>
        decide (tag.library = library ∧ tag.id ∈ named)
      if found.length ≠ named.length then .nothing
      else
        .groups (((all.map fun id => (id, TagMatch.all)) ++ any.map fun id => (id, TagMatch.any)).foldl
          (addTag found) OrderedMap.empty).values
    | _, _ => .nothing

/-- The group's rows, for a page to start from. -/
def Group.lead (group : Group) : Lead :=
  let ids : Select :=
    match group.tagMatch, group.ids with
    | _, [tag] => .carrying tag
    | .any, tags => .distinct tags
    | .all, tags => .intersect tags
  ⟨ids, group.size⟩

/-- The condition a row meets to match the group. -/
def Group.check (group : Group) (idOf : ρ → Int) : Condition ρ :=
  match group.tagMatch with
  | .any => .carriesOne idOf group.ids
  | .all => .carriesEach idOf group.ids

/-! ### Plans -/

/-- What the filter makes of a list. -/
structure Plan (ρ : Type) where
  lead : Option Lead
  check : Option (Condition ρ)
  total : Option Total

/-- `i64::saturating_mul` -/
def saturatingMul (a b : Int) : Int := max (-2 ^ 63) (min (2 ^ 63 - 1) (a * b))

/-- A list without the item at `i`, in whose place the last one stands. -/
def swapRemove {α : Type} (items : List α) (i : Nat) : List α :=
  match items.getLast? with
  | none => []
  | some last => (items.set i last).dropLast

def smaller (group : Group × Nat) : Option (Group × Nat) → Group × Nat
  | none => group
  | some best => if best.1.size < group.1.size then best else group

/-- The smallest group, the first of several, and its place. -/
def smallest (groups : List Group) : Option (Group × Nat) :=
  groups.zipIdx.foldr (fun group best => some (smaller group best)) none

/-- The total of a list that groups filter: the one tag's stored count where it is all that filters
the list, which `alone` says. -/
def groupsTotal (alone : Bool) : List Group → Total
  | [one] => if alone && one.ids.length = 1 then .stored one.size else .counted
  | _ => .counted

/-- The rows a list that groups filter starts from, and the groups that do not lead: the smallest
leads when it holds one row in `share` at most, unless a lead is given. -/
def chooseLead (members : List Group) (lead : Option Lead) (rows share : Int) :
    Option Lead × List Group :=
  match lead with
  | some lead => (some lead, members)
  | none =>
    match smallest members with
    | none => (none, members)
    | some (group, i) =>
      if saturatingMul group.size share ≤ rows then (some group.lead, swapRemove members i)
      else (none, members)

/-- How a list of `rows` rows reads the filter. -/
def Tags.plan (tags : Tags) (idOf : ρ → Int) (lead : Option Lead) (rows : Int) (alone : Bool)
    (share : Int) : Plan ρ :=
  match tags with
  | .unfiltered => ⟨lead, none, none⟩
  | .nothing => ⟨lead, some .never, some (.stored 0)⟩
  | .groups members =>
    let chosen := chooseLead members lead rows share
    ⟨chosen.1, checkAll (chosen.2.map fun group => group.check idOf),
      some (groupsTotal alone members)⟩

/-- The rows in `library` that start from `lead`, pass `check` and carry the tags `filter` names. -/
def source (contents : Contents ρ) (library : Int) (lead : Option Lead)
    (check : Option (ρ → Option Bool)) (filter : TagFilter) (share : Int) : Listing ρ :=
  let tags := Tags.read contents library filter
  let rows :=
    match tags with
    | .groups _ => contents.number library
    | _ => 0
  let plan := tags.plan contents.id lead rows (lead.isNone && check.isNone) share
  let listing := tableSource contents library plan.lead
    (checkAll ((check.map Condition.meets).toList ++ plan.check.toList))
  { listing with total := plan.total.getD listing.total }

/-- The IDs of the rows that match every group, where the filter names tags. -/
def Tags.ids (contents : Contents ρ) (tags : Tags) : Option (List Int) :=
  match tags with
  | .unfiltered => none
  | .nothing => some []
  | .groups members =>
    (smallest members).map fun group =>
      let checks := checkAll ((swapRemove members group.2).map fun other => other.check id)
      (group.1.lead.ids.run contents.links).filter fun owner =>
        checks.all fun check => decide (check.holds contents.links owner = some true)

end JewelCase.Filters
