import Mathlib.Data.List.Nodup

/-!
# Items with a key

Where no two items of a list have one key, as in a table with a primary key: an item is found by its
key, and taking out the item of a key takes out that one.
-/
namespace JewelCase.Library.Keyed

set_option autoImplicit false

variable {α κ : Type} [DecidableEq κ] {key : α → κ} {xs : List α}

/-- The item of a key. -/
def find (key : α → κ) (xs : List α) (k : κ) : Option α := xs.find? fun x => decide (key x = k)

/-- The items of other keys. -/
def without (key : α → κ) (xs : List α) (k : κ) : List α := xs.filter fun x => decide (key x ≠ k)

theorem mem_without {x : α} {k : κ} : x ∈ without key xs k ↔ x ∈ xs ∧ key x ≠ k := by
  rw [without, List.mem_filter, decide_eq_true_eq]

theorem find_eq_some (h : (xs.map key).Nodup) {k : κ} {x : α} :
    find key xs k = some x ↔ x ∈ xs ∧ key x = k := by
  unfold find
  constructor
  · intro hx
    have hkey := List.find?_some hx
    exact ⟨List.mem_of_find?_eq_some hx, of_decide_eq_true hkey⟩
  · rintro ⟨hx, hk⟩
    have hsome : (xs.find? fun x => decide (key x = k)).isSome :=
      List.find?_isSome.mpr ⟨x, hx, decide_eq_true hk⟩
    obtain ⟨found, hfound⟩ := Option.isSome_iff_exists.mp hsome
    have hkey := List.find?_some hfound
    rw [hfound, List.inj_on_of_nodup_map h (List.mem_of_find?_eq_some hfound) hx
      ((of_decide_eq_true hkey).trans hk.symm)]

theorem nodup_without (h : (xs.map key).Nodup) (k : κ) : ((without key xs k).map key).Nodup :=
  h.sublist (List.filter_sublist.map key)

/-- What is counted without the item of a key, and that item. -/
theorem countP_without (h : (xs.map key).Nodup) (k : κ) (p : α → Bool) :
    (without key xs k).countP p + ((find key xs k).elim 0 fun x => if p x then 1 else 0) =
      xs.countP p := by
  induction xs with
  | nil => rfl
  | cons x xs ih =>
    rw [List.map_cons, List.nodup_cons] at h
    obtain ⟨hnew, hxs⟩ := h
    by_cases hk : key x = k
    · have hkeep : without key xs k = xs := by
        apply List.filter_eq_self.mpr
        intro y hy
        apply decide_eq_true
        intro hkey
        exact hnew (List.mem_map.mpr ⟨y, hy, hkey.trans hk.symm⟩)
      rw [without, List.filter_cons_of_neg (by simp [hk]), find, List.find?_cons_of_pos (by simp [hk]),
        Option.elim_some, List.countP_cons]
      rw [without] at hkeep
      rw [hkeep]
    · have hrest := ih hxs
      rw [without, find] at hrest
      rw [without, List.filter_cons_of_pos (by simp [hk]), find,
        List.find?_cons_of_neg (by simp [hk]), List.countP_cons, List.countP_cons, ← hrest]
      omega

end JewelCase.Library.Keyed

/-!
## Maps

A map as a list of entries with keys of their own, in whatever order: what it has at a key after an
entry is put in, after each value is changed, of the values that something is read from, and after
another map's entries are put in.
-/
namespace JewelCase.Library

set_option autoImplicit false

structure HashMap (κ α : Type) where
  entries : List (κ × α)
  nodup : (entries.map Prod.fst).Nodup

namespace HashMap

variable {κ α β : Type}

def empty : HashMap κ α := ⟨[], List.nodup_nil⟩

def isEmpty (map : HashMap κ α) : Bool := map.entries.isEmpty

/-- Every value changed by `f`, which also knows its key. -/
def change (map : HashMap κ α) (f : κ → α → β) : HashMap κ β :=
  ⟨map.entries.map fun entry => (entry.1, f entry.1 entry.2), by
    have hkeys : (map.entries.map fun entry => (entry.1, f entry.1 entry.2)).map Prod.fst =
        map.entries.map Prod.fst := by rw [List.map_map]; rfl
    exact hkeys ▸ map.nodup⟩

variable [DecidableEq κ]

def get (map : HashMap κ α) (key : κ) : Option α :=
  (Keyed.find Prod.fst map.entries key).map Prod.snd

/-- The entries of other keys. -/
def erase (map : HashMap κ α) (key : κ) : HashMap κ α :=
  ⟨Keyed.without Prod.fst map.entries key, Keyed.nodup_without map.nodup key⟩

def insert (map : HashMap κ α) (key : κ) (value : α) : HashMap κ α :=
  ⟨(key, value) :: (map.erase key).entries, by
    rw [List.map_cons, List.nodup_cons]
    refine ⟨?_, (map.erase key).nodup⟩
    intro hmem
    obtain ⟨entry, hentry, hkey⟩ := List.mem_map.mp hmem
    exact (Keyed.mem_without.1 hentry).2 hkey⟩

/-- What `f` reads of each value that it reads anything of. -/
def collect (map : HashMap κ α) (f : κ → α → Option β) : HashMap κ β :=
  ⟨map.entries.filterMap fun entry => (f entry.1 entry.2).map fun value => (entry.1, value), by
    have hkeys : (map.entries.filterMap fun entry =>
        (f entry.1 entry.2).map fun value => (entry.1, value)).map Prod.fst =
        (map.entries.filter fun entry => (f entry.1 entry.2).isSome).map Prod.fst := by
      induction map.entries with
      | nil => rfl
      | cons entry rest ih => cases hread : f entry.1 entry.2 <;> simp [hread, ih]
    exact hkeys ▸ map.nodup.sublist (List.filter_sublist.map _)⟩

/-- Another map's entries put in, each in place of one of its key. -/
def merge (map others : HashMap κ α) : HashMap κ α :=
  others.entries.foldl (fun map entry => map.insert entry.1 entry.2) map

variable {map : HashMap κ α} {key : κ}

theorem get_eq_some {value : α} : map.get key = some value ↔ (key, value) ∈ map.entries := by
  rw [get, Option.map_eq_some_iff]
  constructor
  · rintro ⟨entry, hfind, rfl⟩
    obtain ⟨hmem, rfl⟩ := (Keyed.find_eq_some map.nodup).1 hfind
    exact hmem
  · exact fun hmem => ⟨_, (Keyed.find_eq_some map.nodup).2 ⟨hmem, rfl⟩, rfl⟩

theorem get_ext {map' : HashMap κ β} {o : Option β}
    (h : ∀ value, (key, value) ∈ map'.entries ↔ o = some value) : map'.get key = o := by
  apply Option.ext
  intro value
  rw [get_eq_some, h]

@[simp] theorem get_change (map : HashMap κ α) (key : κ) (f : κ → α → β) :
    (map.change f).get key = (map.get key).map (f key) := by
  apply get_ext
  intro value
  unfold change
  dsimp only
  rw [List.mem_map, Option.map_eq_some_iff]
  constructor
  · rintro ⟨entry, hentry, heq⟩
    cases heq
    exact ⟨entry.2, get_eq_some.2 hentry, rfl⟩
  · rintro ⟨old, hold, rfl⟩
    exact ⟨_, get_eq_some.1 hold, rfl⟩

@[simp] theorem get_collect (map : HashMap κ α) (key : κ) (f : κ → α → Option β) :
    (map.collect f).get key = (map.get key).bind (f key) := by
  apply get_ext
  intro value
  unfold collect
  dsimp only
  rw [List.mem_filterMap, Option.bind_eq_some_iff]
  constructor
  · rintro ⟨entry, hentry, hread⟩
    obtain ⟨found, hfound, heq⟩ := Option.map_eq_some_iff.mp hread
    cases heq
    exact ⟨entry.2, get_eq_some.2 hentry, hfound⟩
  · rintro ⟨old, hold, hread⟩
    exact ⟨_, get_eq_some.1 hold, by rw [hread]; rfl⟩

theorem get_erase (other : κ) : (map.erase other).get key = if key = other then none else map.get key := by
  apply get_ext
  intro value
  unfold erase
  dsimp only
  rw [Keyed.mem_without, ← get_eq_some]
  split_ifs with h
  · exact iff_of_false (fun hmem => hmem.2 h) id
  · exact and_iff_left h

@[simp] theorem get_insert (other : κ) (value : α) :
    (map.insert other value).get key = if key = other then some value else map.get key := by
  apply get_ext
  intro found
  unfold insert
  dsimp only
  rw [List.mem_cons, ← get_eq_some, get_erase, Prod.mk.injEq]
  split_ifs with h
  · simp [h, eq_comm]
  · simp [h]

theorem get_foldl_insert (entries : List (κ × α)) (hnodup : (entries.map Prod.fst).Nodup)
    (map : HashMap κ α) :
    (entries.foldl (fun map entry => map.insert entry.1 entry.2) map).get key =
      ((Keyed.find Prod.fst entries key).map Prod.snd).or (map.get key) := by
  induction entries generalizing map with
  | nil => rfl
  | cons entry rest ih =>
    rw [List.map_cons, List.nodup_cons] at hnodup
    rw [List.foldl_cons, ih hnodup.2, get_insert, Keyed.find, Keyed.find, List.find?_cons]
    by_cases h : entry.1 = key
    · have hrest : rest.find? (fun entry => decide (entry.1 = key)) = none := by
        rw [List.find?_eq_none]
        intro other hother
        rw [decide_eq_true_eq, ← h]
        exact fun heq => hnodup.1 (heq ▸ List.mem_map_of_mem hother)
      rw [hrest, if_pos h.symm, decide_eq_true h]
      rfl
    · rw [if_neg (Ne.symm h), decide_eq_false h]

@[simp] theorem get_merge (others : HashMap κ α) :
    (map.merge others).get key = (others.get key).or (map.get key) :=
  get_foldl_insert others.entries others.nodup map

theorem get_of_isEmpty (h : map.isEmpty = true) : map.get key = none := by
  rw [get, List.isEmpty_iff.mp h]
  rfl

end HashMap
end JewelCase.Library
