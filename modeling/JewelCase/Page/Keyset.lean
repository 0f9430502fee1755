import Mathlib.Algebra.GroupWithZero.Nat
import Mathlib.Algebra.Order.Ring.Unbundled.Rat
import Mathlib.Data.List.Lex
import Mathlib.Data.List.Sort
import Mathlib.Data.Prod.Lex
import Mathlib.Data.String.Basic

/-!
# Values as the database compares them

`NULL` is less than every other value, numbers come before text and text before blobs. Numbers
compare by what they are worth, an integer with a real too; text and blobs by their bytes, and the
bytes of UTF-8 are in the order of its code points. A comparison with `NULL` is `NULL`.
-/
namespace JewelCase.Page

set_option autoImplicit false

/-- A database value. A real is the bits of a double; the database keeps no NaN. -/
inductive Value where
  | null
  | integer (i : Int)
  | real (bits : BitVec 64)
  | text (text : String)
  | blob (bytes : List UInt8)
deriving DecidableEq, Repr

/-- A double as a multiple of the least positive one. -/
def realUnits (bits : BitVec 64) : Int :=
  let exponent := bits.toNat / 2 ^ 52 % 2 ^ 11
  let fraction := bits.toNat % 2 ^ 52
  let units : Nat := if exponent = 0 then fraction else (2 ^ 52 + fraction) * 2 ^ (exponent - 1)
  if bits.toNat < 2 ^ 63 then units else -units

/-- What a value sorts by: its class, and in it its worth or its bytes. -/
abbrev SortKey := ℕ ×ₗ ℚ ×ₗ List ℕ

def Value.sortKey : Value → SortKey
  | .null => toLex (0, toLex (0, []))
  | .integer i => toLex (1, toLex ((i : ℚ), []))
  | .real bits => toLex (1, toLex ((realUnits bits : ℚ) / 2 ^ 1074, []))
  | .text t => toLex (2, toLex (0, t.toList.map Char.toNat))
  | .blob bytes => toLex (3, toLex (0, bytes.map UInt8.toNat))

/-- The direction of a list. -/
inductive Order where
  | asc
  | desc
deriving DecidableEq, Repr

/-- Whether `a` comes before `b`. -/
def Order.Lt {α : Type} [LT α] (order : Order) (a b : α) : Prop :=
  match order with
  | .asc => a < b
  | .desc => b < a

instance {α : Type} [LT α] [DecidableLT α] (order : Order) (a b : α) : Decidable (order.Lt a b) :=
  match order with
  | .asc => inferInstanceAs (Decidable (a < b))
  | .desc => inferInstanceAs (Decidable (b < a))

/-- Whether the row value `vs` is beyond `ws` in a direction, `(vs) > (ws)` or `(vs) < (ws)`: the
first values that differ decide, unless one met before is `NULL`. -/
def rowBeyond (order : Order) : List Value → List Value → Option Bool
  | v :: vs, w :: ws =>
    if v = .null ∨ w = .null then none
    else if v.sortKey = w.sortKey then rowBeyond order vs ws
    else some (decide (order.Lt w.sortKey v.sortKey))
  | _, _ => some false

/-! ### The order -/

theorem Order.lt_asymm {α : Type} [LinearOrder α] (order : Order) {a b : α} (h : order.Lt a b) :
    ¬ order.Lt b a := by
  cases order <;> exact not_lt_of_gt h

theorem Order.lt_of_ne {α : Type} [LinearOrder α] (order : Order) {a b : α} (h : a ≠ b) :
    order.Lt a b ∨ order.Lt b a := by
  cases order with
  | asc => exact lt_or_gt_of_ne h
  | desc => exact (lt_or_gt_of_ne h).symm

theorem Order.cons_lt {α : Type} [LinearOrder α] (order : Order) {a b : α} {as bs : List α} :
    order.Lt (a :: as) (b :: bs) ↔ order.Lt a b ∨ a = b ∧ order.Lt as bs := by
  cases order with
  | asc => exact List.cons_lt_cons_iff
  | desc => exact List.cons_lt_cons_iff.trans (by rw [eq_comm]; exact Iff.rfl)

/-- The empty blob is before every other. -/
theorem empty_lt {bytes : List UInt8} :
    (Value.blob []).sortKey < (Value.blob bytes).sortKey ↔ bytes ≠ [] := by
  cases bytes with
  | nil => simp [Value.sortKey]
  | cons b bs => simp [Value.sortKey, Prod.Lex.toLex_lt_toLex]

/-- Without `NULL`, one row value is beyond another when its sort keys are. -/
theorem rowBeyond_some (order : Order) {vs ws : List Value} (hlen : vs.length = ws.length)
    (hv : Value.null ∉ vs) (hw : Value.null ∉ ws) :
    rowBeyond order vs ws =
      some (decide (order.Lt (ws.map Value.sortKey) (vs.map Value.sortKey))) := by
  induction vs generalizing ws with
  | nil =>
    obtain rfl := List.length_eq_zero_iff.mp hlen.symm
    cases order <;> simp [rowBeyond, Order.Lt]
  | cons v vs ih =>
    cases ws with
    | nil => simp at hlen
    | cons w ws =>
      rw [List.mem_cons, not_or] at hv hw
      have hnull : ¬ (v = .null ∨ w = .null) := not_or.mpr ⟨Ne.symm hv.1, Ne.symm hw.1⟩
      rw [rowBeyond, if_neg hnull]
      by_cases he : v.sortKey = w.sortKey
      · rw [if_pos he, ih (by simpa using hlen) hv.2 hw.2]
        congr 2
        simp only [List.map_cons, Order.cons_lt, he, true_and, eq_iff_iff]
        refine ⟨Or.inr, fun h => h.resolve_left ?_⟩
        intro hlt
        exact order.lt_asymm hlt hlt
      · rw [if_neg he]
        congr 2
        simp [List.map_cons, Order.cons_lt, Ne.symm he]

/-- A row value that starts with `NULL` is beyond none. -/
theorem rowBeyond_null (order : Order) (vs ws : List Value) :
    rowBeyond order (.null :: vs) ws ≠ some true := by
  cases ws <;> simp [rowBeyond]

end JewelCase.Page

/-!
## Keyset paging

`crates/server/src/api/page/keyset.rs`. A page goes on from the last row's sort values. Rows with no
sortable value come after all the others in both orders, so a list is read in two parts, each one
query. A query is its conditions, its order and its limit over the rows it reads from, and a cursor
is the label and the values that its text carries.
-/
namespace JewelCase.Page

set_option autoImplicit false

variable {ρ τ : Type}

/-- How the first column of a sort marks a row with no sortable value. -/
inductive Unknown where
  | never
  | null
  | empty
deriving DecidableEq, Repr

/-- One part of a list: the rows whose first sort value is known, or those whose is unknown. -/
inductive Part where
  | known
  | unknown
deriving DecidableEq, Repr

/-- One way to sort a list: by its first column, then by the rest. -/
structure ListSort (ρ : Type) where
  label : String
  first : ρ → Value
  rest : List (ρ → Value)
  unknown : Unknown

/-- What a list reads: the rows it selects from, which of them pass its filter, and each one's
ID. -/
structure Source (ρ : Type) where
  rows : List ρ
  filter : ρ → Option Bool
  id : ρ → Int

structure Cursor where
  label : String
  values : List Value
deriving DecidableEq, Repr

/-- A list's parameters. -/
structure Request (ρ : Type) where
  sort : ListSort ρ
  order : Order
  after : Option (List Value)
  limit : Nat

/-! ### Queries -/

/-- A condition of a query. -/
inductive Condition (ρ : Type) where
  | filter (holds : ρ → Option Bool)
  | isNotNull (column : ρ → Value)
  | isNull (column : ρ → Value)
  /-- `column > x''` -/
  | isAfterEmpty (column : ρ → Value)
  /-- `column = x''` -/
  | isEmpty (column : ρ → Value)
  /-- `(columns) > (values)`, or `<` -/
  | beyond (columns : List (ρ → Value)) (order : Order) (values : List Value)

/-- What a condition is of a row, `none` for `NULL`. -/
def Condition.holds : Condition ρ → ρ → Option Bool
  | .filter holds, row => holds row
  | .isNotNull column, row => some (decide (column row ≠ .null))
  | .isNull column, row => some (decide (column row = .null))
  | .isAfterEmpty column, row => rowBeyond .asc [column row] [.blob []]
  | .isEmpty column, row =>
    if column row = .null then none
    else some (decide ((column row).sortKey = (Value.blob []).sortKey))
  | .beyond columns order values, row =>
    rowBeyond order (columns.map fun column => column row) values

structure Query (ρ : Type) where
  conditions : List (Condition ρ)
  orderBy : List (ρ → Value)
  order : Order
  limit : Nat

def keyOf (columns : List (ρ → Value)) (row : ρ) : List SortKey :=
  columns.map fun column => (column row).sortKey

/-- Whether a query's conditions all hold of a row. -/
def Query.selects (query : Query ρ) (row : ρ) : Bool :=
  query.conditions.all fun condition => decide (condition.holds row = some true)

/-- The rows a query gives. -/
def Query.run (query : Query ρ) (rows : List ρ) : List ρ :=
  ((rows.filter query.selects).insertionSort fun a b =>
    ¬ query.order.Lt (keyOf query.orderBy b) (keyOf query.orderBy a)).take query.limit

/-! ### Pages -/

def ListSort.columns (sort : ListSort ρ) : List (ρ → Value) := sort.first :: sort.rest

/-- The label of a sort in an order, that its cursors carry. -/
def ListSort.name (sort : ListSort ρ) (order : Order) : String :=
  match order with
  | .asc => sort.label ++ ".asc"
  | .desc => sort.label ++ ".desc"

/-- Reads a cursor made with the same label and number of values. -/
def Cursor.decode (cursor : Cursor) (label : String) (columns : Nat) :
    Except String (List Value) :=
  if cursor.label = label ∧ cursor.values.length = columns then .ok cursor.values
  else .error "cursor is not valid for this list"

/-- Reads a request's cursor, before the query runs. -/
def ListSort.after (sort : ListSort ρ) (cursor : Option Cursor) (order : Order) :
    Except String (Option (List Value)) :=
  match cursor with
  | none => .ok none
  | some cursor => (cursor.decode (sort.name order) sort.columns.length).map some

/-- The part of the list a row whose sort values start with `first` is in. -/
def ListSort.partOf (sort : ListSort ρ) (first : Value) : Part :=
  match sort.unknown, first with
  | .null, .null => .unknown
  | .empty, .blob [] => .unknown
  | _, _ => .known

/-- The part a cursor is in. -/
def ListSort.startOf (sort : ListSort ρ) (after : Option (List Value)) : Part :=
  match after with
  | some (first :: _) => sort.partOf first
  | _ => .known

/-- The condition for `part` of the list, if the list has parts. -/
def ListSort.condition (sort : ListSort ρ) (part : Part) : Option (Condition ρ) :=
  match sort.unknown, part with
  | .never, _ => none
  | .null, .known => some (.isNotNull sort.first)
  | .null, .unknown => some (.isNull sort.first)
  | .empty, .known => some (.isAfterEmpty sort.first)
  | .empty, .unknown => some (.isEmpty sort.first)

/-- The parts of the list left to read from `after`, in order. -/
def parts (sort : ListSort ρ) (after : Option (List Value)) : List Part :=
  match sort.unknown, sort.startOf after with
  | .never, _ => [.known]
  | _, .known => [.known, .unknown]
  | _, .unknown => [.unknown]

/-- The columns that order a part: the first is the same for every row of the unknown part. -/
def ListSort.columnsOf (sort : ListSort ρ) (part : Part) : List (ρ → Value) :=
  match part with
  | .known => sort.columns
  | .unknown => sort.rest

/-- The query for up to `limit` rows of one part of the list. -/
def partQuery (source : Source ρ) (sort : ListSort ρ) (order : Order) (after : Option (List Value))
    (part : Part) (limit : Nat) : Query ρ :=
  let cursor := after.filter fun _ => decide (sort.startOf after = part)
  -- A cursor already rules out the unknown rows, except the empty keys below it.
  let implied := cursor.isSome && decide (part = .known) &&
    !(decide (sort.unknown = .empty) && decide (order = .desc))
  let beyond := cursor.map fun values =>
    Condition.beyond (sort.columnsOf part) order
      (if part = .unknown then values.tail else values)
  { conditions := .filter source.filter ::
      ((if implied then none else sort.condition part).toList ++ beyond.toList)
    orderBy := sort.columnsOf part
    order := order
    limit := limit }

/-- Reads up to `left` rows of `parts`, and how many more could have been. -/
def readParts (source : Source ρ) (request : Request ρ) : Nat → List Part → List ρ × Nat
  | left, [] => ([], left)
  | left, part :: parts =>
    if left = 0 then ([], 0)
    else
      let rows := (partQuery source request.sort request.order request.after part left).run
        source.rows
      let (more, left) := readParts source request (left - rows.length) parts
      (rows ++ more, left)

/-- A row's sort values. -/
def ListSort.values (sort : ListSort ρ) (row : ρ) : List Value :=
  sort.columns.map fun column => column row

/-- Reads the page of `source` that `request` asks for. -/
def fetch (source : Source ρ) (request : Request ρ) (map : ρ → τ) : List τ × Option Cursor :=
  -- The row after the page, if there is one, says whether there is a next page.
  let (rows, left) := readParts source request (request.limit + 1)
    (parts request.sort request.after)
  if left = 0 then
    let rows := rows.dropLast
    (rows.map map, rows.getLast?.map fun row =>
      ⟨request.sort.name request.order, request.sort.values row⟩)
  else (rows.map map, none)

/-- The page after `cursor`. -/
def page (source : Source ρ) (sort : ListSort ρ) (order : Order) (limit : Nat) (map : ρ → τ)
    (cursor : Option Cursor) : Except String (List τ × Option Cursor) :=
  (sort.after cursor order).map fun after => fetch source ⟨sort, order, after, limit⟩ map

/-- A row's ID, as a `u64`. -/
def Source.idOf (source : Source ρ) (row : ρ) : Nat := (source.id row % 2 ^ 64).toNat

/-- The ID of every row of `source`, in the order of `sort` and `order`: each part of the list is
one query, with the greatest `u32` as its limit. -/
def ids (source : Source ρ) (sort : ListSort ρ) (order : Order) : List Nat :=
  (parts sort none).flatMap fun part =>
    ((partQuery source sort order none part 4294967295).run source.rows).map source.idOf

end JewelCase.Page
