import JewelCase.Page.Keyset

/-!
# Sorting tracks

A device sorts the tracks it holds by `sort_rows` of `crates/core/src/sort.rs`, on keys that the
server reads for it; the server lists them by the keysets of `crates/server/src/api/tracks.rs`. A
key is the UTF-8 bytes of its text, by which both compare it.
-/
namespace JewelCase.Tracks

set_option autoImplicit false

open Page (Value Order ListSort Unknown)

abbrev Key := List UInt8

/-- A track's row, as far as a sort reads it, with what the scanner writes there: a disc and a number
are a `u32`, and a track with no disc is on disc 0. -/
structure Track where
  id : Int
  sortKey : Key
  artistSortKey : Key
  albumSortKey : Key
  albumId : Int
  discNumber : Int
  trackNumber : Option Int
  releaseDate : Option String
  durationUs : Int
  addedAt : Int
  id_range : 1 ≤ id ∧ id < 2 ^ 63 := by decide
  albumId_range : 1 ≤ albumId ∧ albumId < 2 ^ 63 := by decide
  disc_range : 0 ≤ discNumber ∧ discNumber < 2 ^ 32 := by decide
  number_range : ∀ n ∈ trackNumber, 0 ≤ n ∧ n < 2 ^ 32 := by decide
  duration_range : 0 ≤ durationUs ∧ durationUs < 2 ^ 63 := by decide
deriving DecidableEq

/-! ### The server's order -/

/-- `ifnull(t.track_number, 9223372036854775807)` -/
def Track.numberOrLast (track : Track) : Value :=
  .integer (track.trackNumber.getD 9223372036854775807)

inductive TrackSort where
  | name
  | artist
  | album
  | dateAdded
  | releaseDate
  | duration
deriving DecidableEq, Repr

def TrackSort.label : TrackSort → String
  | .name => "name"
  | .artist => "artist"
  | .album => "album"
  | .dateAdded => "dateAdded"
  | .releaseDate => "releaseDate"
  | .duration => "duration"

/-- A text column that may be `NULL`. -/
def textOrNull : Option String → Value
  | none => .null
  | some text => .text text

/-- The keyset a sort pages by. -/
def TrackSort.sort : TrackSort → ListSort Track
  | .name =>
    { label := "tracks.name"
      first := fun t => .blob t.sortKey
      rest := [fun t => .integer t.id]
      unknown := .empty }
  | .artist =>
    { label := "tracks.artist"
      first := fun t => .blob t.artistSortKey
      rest := [fun t => .blob t.sortKey, fun t => .integer t.id]
      unknown := .empty }
  | .album =>
    { label := "tracks.album"
      first := fun t => .blob t.albumSortKey
      rest := [fun t => .integer t.albumId, fun t => .integer t.discNumber, Track.numberOrLast,
        fun t => .integer t.id]
      unknown := .empty }
  | .dateAdded =>
    { label := "tracks.dateAdded"
      first := fun t => .integer t.addedAt
      rest := [fun t => .integer t.id]
      unknown := .never }
  | .releaseDate =>
    { label := "tracks.releaseDate"
      first := fun t => textOrNull t.releaseDate
      rest := [fun t => .blob t.albumSortKey, fun t => .integer t.albumId,
        fun t => .integer t.discNumber, Track.numberOrLast, fun t => .integer t.id]
      unknown := .null }
  | .duration =>
    { label := "tracks.duration"
      first := fun t => .integer t.durationUs
      rest := [fun t => .integer t.id]
      unknown := .never }

/-! ### A device's order -/

inductive SortField where
  | title
  | artist
  | album
  | year
  | added
  | duration
deriving DecidableEq, Repr

def SortField.name : SortField → String
  | .title => "name"
  | .artist => "artist"
  | .album => "album"
  | .year => "releaseDate"
  | .added => "addedToPlaylist"
  | .duration => "duration"

/-- A track row's keys; numbers are unsigned. -/
structure SortRow where
  id : Nat
  titleKey : Key
  artistKey : Key
  albumKey : Key
  albumId : Nat
  releaseDate : Option String
  disc : Option Nat
  number : Option Nat
  durationUs : Nat
  added : String
deriving DecidableEq, Repr

def cmp {α : Type} [LT α] [DecidableLT α] [DecidableEq α] (a b : α) : Ordering :=
  compareOfLessAndEq a b

/-- `None` is before every text. -/
def cmpOption : Option String → Option String → Ordering
  | none, none => .eq
  | none, some _ => .lt
  | some _, none => .gt
  | some a, some b => cmp a b

/-- Album order: album, then disc, then number, then track ID. -/
def SortRow.albumOrder (row other : SortRow) : Ordering :=
  ((((cmp row.albumKey other.albumKey).then
    (cmp row.albumId other.albumId)).then
    (cmp (row.disc.getD 0) (other.disc.getD 0))).then
    (cmp (row.number.getD 4294967295) (other.number.getD 4294967295))).then
    (cmp row.id other.id)

/-- Whether the row has no value for `field`, which sorts it last in either direction. -/
def SortRow.unknown (row : SortRow) : SortField → Bool
  | .title => row.titleKey.isEmpty
  | .artist => row.artistKey.isEmpty
  | .album => row.albumKey.isEmpty
  | .year => row.releaseDate.isNone
  | .added | .duration => false

/-- The order of two rows by `field`'s own value alone. -/
def SortRow.lead (row other : SortRow) : SortField → Ordering
  | .title => cmp row.titleKey other.titleKey
  | .artist => cmp row.artistKey other.artistKey
  | .album => cmp row.albumKey other.albumKey
  | .year => cmpOption row.releaseDate other.releaseDate
  | .added => cmp row.added other.added
  | .duration => cmp row.durationUs other.durationUs

/-- What breaks a tie on `field`'s value. -/
def SortRow.rest (row other : SortRow) : SortField → Ordering
  | .artist => (cmp row.titleKey other.titleKey).then (cmp row.id other.id)
  | .album | .year => row.albumOrder other
  | .title | .added | .duration => cmp row.id other.id

/-- How `sort_rows` compares the rows at two positions. -/
def compareAt (field : SortField) (descending : Bool) (a b : SortRow × Nat) : Ordering :=
  let ux := a.1.unknown field
  let uy := b.1.unknown field
  if ux ≠ uy then cmp ux uy
  else
    let order := (a.1.lead b.1 field).then (a.1.rest b.1 field)
    (if descending then order.swap else order).then (cmp a.2 b.2)

/-- The positions of `rows` in `field`'s order. -/
def sortRows (rows : List SortRow) (field : SortField) (descending : Bool) : List Nat :=
  (rows.zipIdx.insertionSort fun a b => compareAt field descending a b ≠ .gt).map Prod.snd

/-! ### The keys a device sorts by -/

def castUnsigned (i : Int) : Nat := (i % 2 ^ 64).toNat

/-- `u32::try_from`, where it succeeds. -/
def toU32 (i : Int) : Option Nat := if 0 ≤ i ∧ i < 2 ^ 32 then some i.toNat else none

/-- The keys that the server reads for a track, as `sort_keys` of `tracks/representation.rs` does;
a disc 0 is none. -/
def Track.sortKeys (track : Track) : SortRow :=
  { id := castUnsigned track.id
    titleKey := track.sortKey
    artistKey := track.artistSortKey
    albumKey := track.albumSortKey
    albumId := castUnsigned track.albumId
    releaseDate := track.releaseDate
    disc := if track.discNumber = 0 then none else toU32 track.discNumber
    number := track.trackNumber.bind toU32
    durationUs := castUnsigned track.durationUs
    added := "" }

/-- The IDs of `rows` as `sort_rows` orders them. -/
def sortedIds (rows : List SortRow) (field : SortField) (descending : Bool) : List Nat :=
  (sortRows rows field descending).filterMap fun p => rows[p]?.map SortRow.id

end JewelCase.Tracks
