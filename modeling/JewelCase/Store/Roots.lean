import Mathlib.Algebra.GroupWithZero.Nat
import Mathlib.Data.List.Basic
import JewelCase.Library.Lists
import JewelCase.Library.Utf8

/-!
# Where a library's files are

A library has roots, and the database stores every path relative to the one it is under: the names
below the root as text, with `/` between them. A name that is not UTF-8 is stored as what is read of it.
-/
namespace JewelCase.Store

set_option autoImplicit false

abbrev Text := List Char

/-- A name in a path, as the bytes that the system gives it. -/
abbrev Name := List UInt8

/-- An absolute path, as the names it goes through. -/
abbrev FilePath := List Name

structure Root where
  id : Int
  path : FilePath
deriving DecidableEq, Repr

/-- How many bytes a path is written in. -/
def FilePath.len (path : FilePath) : Nat :=
  if path = [] then 1 else (path.map fun name => name.length + 1).sum

/-- The last of the items whose keys are greatest, `Iterator::max_by_key`. -/
def maxByKey {α : Type} (key : α → Nat) (items : List α) : Option α :=
  items.foldl (fun best item =>
    match best with
    | none => some item
    | some held => if key held ≤ key item then some item else some held) none

/-- `to_string_lossy` of a name -/
def toStringLossy (name : Name) : Text := Library.Utf8.lossy name

/-- Relative path text with `/` separators; empty for the root itself. -/
def relative (root path : FilePath) : Text :=
  if root.isPrefixOf path then
    List.intercalate ['/'] ((path.drop root.length).map toStringLossy)
  else List.intercalate ['/'] (['/'] :: path.map toStringLossy)

/-- A path as it is displayed. -/
def display (path : FilePath) : Text :=
  if path = [] then ['/'] else path.flatMap fun name => '/' :: toStringLossy name

/-- Each library's active roots. -/
structure Roots where
  active : Int → List Root
  /-- A root's ID is its own, in whichever library. -/
  distinct : ∀ library other, ∀ root ∈ active library, ∀ held ∈ active other,
    root.id = held.id → library = other ∧ root = held

namespace Roots

variable (roots : Roots)

/-- The root containing `path`, and the path relative to it. -/
def locate (library : Int) (path : FilePath) : Option (Int × Text) := do
  let containing := (roots.active library).filter fun root => root.path.isPrefixOf path
  let root ← maxByKey (fun root => FilePath.len root.path) containing
  return (root.id, relative root.path path)

/-- The path of root `id` of `library`, if it is one of its active roots. -/
def root (library id : Int) : Option FilePath :=
  ((roots.active library).find? fun root => decide (root.id = id)).map (·.path)

end Roots

theorem mem_of_maxByKey {α : Type} {key : α → Nat} {items : List α} {item : α}
    (h : maxByKey key items = some item) : item ∈ items := by
  have hfold : ∀ (items : List α) (best : Option α),
      items.foldl (fun best item =>
        match best with
        | none => some item
        | some held => if key held ≤ key item then some item else some held) best = some item →
      item ∈ items ∨ best = some item := by
    intro items
    induction items with
    | nil => exact fun best h => Or.inr h
    | cons head items ih =>
      intro best h
      rw [List.foldl_cons] at h
      rcases ih _ h with hmem | hbest
      · exact Or.inl (List.mem_cons_of_mem _ hmem)
      · cases best with
        | none => exact Or.inl (Option.some.inj hbest ▸ List.mem_cons_self)
        | some held =>
          change (if key held ≤ key head then some head else some held) = some item at hbest
          split at hbest
          · exact Or.inl (Option.some.inj hbest ▸ List.mem_cons_self)
          · exact Or.inr hbest
  exact (hfold items none h).resolve_right (by simp)

/-- What a path is located by: a root of the library that contains it. -/
theorem Roots.of_locate {roots : Roots} {library id : Int} {path : FilePath} {rel : Text}
    (h : roots.locate library path = some (id, rel)) :
    ∃ root ∈ roots.active library, root.id = id ∧ root.path.isPrefixOf path ∧
      relative root.path path = rel := by
  obtain ⟨root, hroot, h⟩ := Option.bind_eq_some_iff.mp h
  obtain ⟨hid, hrel⟩ := Prod.mk.inj (Option.some.inj h)
  obtain ⟨hmem, hunder⟩ := List.mem_filter.mp (mem_of_maxByKey hroot)
  exact ⟨root, hmem, hid, hunder, hrel⟩

/-- A root that contains a path is one of the library's. -/
theorem Roots.root_of_locate {roots : Roots} {library id : Int} {path : FilePath} {rel : Text}
    (h : roots.locate library path = some (id, rel)) :
    ∃ root, roots.root library id = some root := by
  obtain ⟨root, hmem, rfl, -, -⟩ := Roots.of_locate h
  have hfound : ((roots.active library).find? fun r => decide (r.id = root.id)).isSome :=
    List.find?_isSome.mpr ⟨root, hmem, decide_eq_true rfl⟩
  obtain ⟨found, hfound⟩ := Option.isSome_iff_exists.mp hfound
  exact ⟨found.path, congrArg (Option.map _) hfound⟩

/-! ### Paths told apart -/

/-- A path whose names are UTF-8: each the bytes of a text that is not empty and has no `/`. -/
def FilePath.IsUtf8 (path : FilePath) : Prop :=
  ∀ name ∈ path, ∃ text : Text, text ≠ [] ∧ '/' ∉ text ∧ name = Library.Utf8.encode text

theorem FilePath.IsUtf8.drop {path : FilePath} (h : path.IsUtf8) (n : Nat) :
    FilePath.IsUtf8 (path.drop n) :=
  fun name hname => h name (List.mem_of_mem_drop hname)

/-- UTF-8 names are read back as they are. -/
theorem FilePath.IsUtf8.encode_lossy {path : FilePath} (h : path.IsUtf8) :
    (path.map toStringLossy).map Library.Utf8.encode = path := by
  rw [List.map_map]
  refine (List.map_congr_left fun name hname => ?_).trans (List.map_id path)
  obtain ⟨text, -, -, rfl⟩ := h name hname
  exact congrArg Library.Utf8.encode (Library.Utf8.lossy_encode text)

theorem FilePath.IsUtf8.lossy {path : FilePath} (h : path.IsUtf8) :
    ∀ text ∈ path.map toStringLossy, text ≠ [] ∧ '/' ∉ text := by
  intro text htext
  obtain ⟨name, hname, rfl⟩ := List.mem_map.mp htext
  obtain ⟨text, hfull, hclean, rfl⟩ := h name hname
  rw [toStringLossy, Library.Utf8.lossy_encode]
  exact ⟨hfull, hclean⟩

/-- Paths below a root are told apart by their text. -/
theorem relative_inj {root path other : FilePath} (h : path.IsUtf8) (h' : other.IsUtf8)
    (hunder : root.isPrefixOf path) (hunder' : root.isPrefixOf other)
    (hsame : relative root path = relative root other) : path = other := by
  rw [relative, relative, if_pos hunder, if_pos hunder'] at hsame
  have hbelow := (h.drop root.length).lossy
  have hbelow' := (h'.drop root.length).lossy
  have hpieces := (Library.Joined.join_eq_iff (fun text htext => (hbelow text htext).1)
    fun text htext => (hbelow' text htext).1).mp hsame
  rw [Library.Joined.pieces_clean fun text htext => (hbelow text htext).2,
    Library.Joined.pieces_clean fun text htext => (hbelow' text htext).2] at hpieces
  have hdrop : path.drop root.length = other.drop root.length := by
    rw [← (h.drop root.length).encode_lossy, hpieces, (h'.drop root.length).encode_lossy]
  obtain ⟨rest, rfl⟩ := List.isPrefixOf_iff_prefix.mp hunder
  obtain ⟨rest', rfl⟩ := List.isPrefixOf_iff_prefix.mp hunder'
  rw [List.drop_left, List.drop_left] at hdrop
  rw [hdrop]

/-- **UTF-8 paths are told apart**, whichever libraries they are in. -/
theorem Roots.locate_inj {roots : Roots} {library library' : Int} {path other : FilePath}
    {key : Int × Text} (h : path.IsUtf8) (h' : other.IsUtf8)
    (hlocate : roots.locate library path = some key)
    (hlocate' : roots.locate library' other = some key) : library = library' ∧ path = other := by
  obtain ⟨id, rel⟩ := key
  obtain ⟨root, hroot, rfl, hunder, hrel⟩ := Roots.of_locate hlocate
  obtain ⟨held, hheld, hid, hunder', hrel'⟩ := Roots.of_locate hlocate'
  obtain ⟨rfl, rfl⟩ := roots.distinct library library' root hroot held hheld hid.symm
  exact ⟨rfl, relative_inj h h' hunder hunder' (hrel.trans hrel'.symm)⟩

end JewelCase.Store
