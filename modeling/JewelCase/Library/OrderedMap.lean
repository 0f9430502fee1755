import Mathlib.Data.List.Basic
import Mathlib.Order.Lattice

/-!
# Maps in the order of their keys

A map is the list of its entries, sorted by key, so its keys are distinct and its values are listed
in their order.
-/
namespace JewelCase.Library

set_option autoImplicit false

variable {κ υ : Type} [LinearOrder κ]

/-- Entries sorted by distinct keys. -/
structure OrderedMap (κ υ : Type) [LinearOrder κ] where
  entries : List (κ × υ)
  sorted : entries.Pairwise fun a b => a.1 < b.1

namespace OrderedMap

/-! ### Entries -/

def empty : OrderedMap κ υ := ⟨[], .nil⟩

/-- The value of a key among entries. -/
def find (key : κ) : List (κ × υ) → Option υ
  | [] => none
  | (k, v) :: rest => if k = key then some v else find key rest

def get (map : OrderedMap κ υ) (key : κ) : Option υ := find key map.entries

def values (map : OrderedMap κ υ) : List υ := map.entries.map Prod.snd

theorem find_some {key : κ} {value : υ} {entries : List (κ × υ)}
    (h : entries.Pairwise fun a b => a.1 < b.1) :
    find key entries = some value ↔ (key, value) ∈ entries := by
  induction entries with
  | nil => simp [find]
  | cons entry rest ih =>
    obtain ⟨k, v⟩ := entry
    rw [List.pairwise_cons] at h
    rw [find, List.mem_cons, Prod.mk.injEq]
    by_cases hk : k = key
    · subst hk
      have hnot : (k, value) ∉ rest := fun hm => lt_irrefl k (h.1 (k, value) hm)
      simp only [if_true, Option.some.injEq, true_and, hnot, or_false]
      exact eq_comm
    · rw [if_neg hk, ih h.2]
      simp [Ne.symm hk]

theorem get_some {map : OrderedMap κ υ} {key : κ} {value : υ} :
    map.get key = some value ↔ (key, value) ∈ map.entries :=
  find_some map.sorted

theorem value_unique {map : OrderedMap κ υ} {key : κ} {a b : υ} (ha : (key, a) ∈ map.entries)
    (hb : (key, b) ∈ map.entries) : a = b := by
  have h := get_some.2 ha
  rw [get_some.2 hb] at h
  exact (Option.some.inj h).symm

theorem mem_values {map : OrderedMap κ υ} {value : υ} :
    value ∈ map.values ↔ ∃ key, map.get key = some value := by
  simp [values, get_some]

@[simp] theorem get_empty (key : κ) : (empty : OrderedMap κ υ).get key = none := rfl

/-! ### Changing one entry -/

/-- The entries with the one of `key` made by `f` from the value it has, if it has one. -/
def alterEntries (key : κ) (f : Option υ → υ) : List (κ × υ) → List (κ × υ)
  | [] => [(key, f none)]
  | (k, v) :: rest =>
    if key < k then (key, f none) :: (k, v) :: rest
    else if k = key then (k, f (some v)) :: rest
    else (k, v) :: alterEntries key f rest

theorem keys_alterEntries {key : κ} {f : Option υ → υ} {entries : List (κ × υ)} {entry : κ × υ}
    (h : entry ∈ alterEntries key f entries) :
    entry.1 = key ∨ ∃ other ∈ entries, other.1 = entry.1 := by
  induction entries with
  | nil =>
    rw [alterEntries, List.mem_singleton] at h
    exact .inl (congrArg Prod.fst h)
  | cons head rest ih =>
    rw [alterEntries] at h
    split_ifs at h with hlt hk
    · obtain rfl | h := List.mem_cons.mp h
      · exact .inl rfl
      · exact .inr ⟨entry, h, rfl⟩
    · obtain rfl | h := List.mem_cons.mp h
      · exact .inl hk
      · exact .inr ⟨entry, List.mem_cons_of_mem _ h, rfl⟩
    · obtain rfl | h := List.mem_cons.mp h
      · exact .inr ⟨_, List.mem_cons_self, rfl⟩
      · obtain hkey | ⟨other, ho, he⟩ := ih h
        · exact .inl hkey
        · exact .inr ⟨other, List.mem_cons_of_mem _ ho, he⟩

theorem sorted_alterEntries (key : κ) (f : Option υ → υ) {entries : List (κ × υ)}
    (h : entries.Pairwise fun a b => a.1 < b.1) :
    (alterEntries key f entries).Pairwise fun a b => a.1 < b.1 := by
  induction entries with
  | nil => exact List.pairwise_singleton _ _
  | cons head rest ih =>
    have hc := List.pairwise_cons.mp h
    rw [alterEntries]
    split_ifs with hlt hk
    · refine List.pairwise_cons.mpr ⟨?_, h⟩
      intro entry he
      obtain rfl | he := List.mem_cons.mp he
      · exact hlt
      · exact lt_trans hlt (hc.1 entry he)
    · exact List.pairwise_cons.mpr ⟨hc.1, hc.2⟩
    · refine List.pairwise_cons.mpr ⟨?_, ih hc.2⟩
      intro entry he
      obtain hkey | ⟨other, ho, he⟩ := keys_alterEntries he
      · rw [hkey]
        exact lt_of_le_of_ne (not_lt.mp hlt) hk
      · rw [← he]
        exact hc.1 other ho

def alter (map : OrderedMap κ υ) (key : κ) (f : Option υ → υ) : OrderedMap κ υ :=
  ⟨alterEntries key f map.entries, sorted_alterEntries key f map.sorted⟩

theorem find_none {key : κ} {entries : List (κ × υ)} (h : ∀ entry ∈ entries, entry.1 ≠ key) :
    find key entries = none := by
  induction entries with
  | nil => rfl
  | cons head rest ih =>
    rw [find, if_neg (h head List.mem_cons_self)]
    exact ih fun entry he => h entry (List.mem_cons_of_mem _ he)

/-- **Altering one key changes its value only.** -/
theorem get_alter (map : OrderedMap κ υ) (key : κ) (f : Option υ → υ) (k : κ) :
    (map.alter key f).get k = if k = key then some (f (map.get key)) else map.get k := by
  obtain ⟨entries, h⟩ := map
  change find k (alterEntries key f entries) =
    if k = key then some (f (find key entries)) else find k entries
  induction entries with
  | nil =>
    by_cases hk : k = key
    · simp [alterEntries, find, hk]
    · simp [alterEntries, find, hk, Ne.symm hk]
  | cons head rest ih =>
    obtain ⟨k', v⟩ := head
    have hc := List.pairwise_cons.mp h
    rw [alterEntries]
    by_cases hlt : key < k'
    · rw [if_pos hlt]
      have hnone : find key ((k', v) :: rest) = none := by
        apply find_none
        intro entry he
        obtain rfl | he := List.mem_cons.mp he
        · exact ne_of_gt hlt
        · exact ne_of_gt (lt_trans hlt (hc.1 entry he))
      rw [hnone, find]
      by_cases hk : k = key
      · rw [if_pos hk.symm, if_pos hk]
      · rw [if_neg (Ne.symm hk), if_neg hk]
    · rw [if_neg hlt]
      by_cases hkey : k' = key
      · subst hkey
        rw [if_pos rfl, find, find, find, if_pos rfl]
        by_cases hk : k = k'
        · rw [if_pos hk.symm, if_pos hk]
        · rw [if_neg (Ne.symm hk), if_neg hk, if_neg (Ne.symm hk)]
      · rw [if_neg hkey, find, find, find, if_neg hkey, ih hc.2]
        by_cases hk : k' = k
        · subst hk
          rw [if_pos rfl, if_neg hkey, if_pos rfl]
        · rw [if_neg hk, if_neg hk]

/-! ### The first and the last -/

def insert (map : OrderedMap κ υ) (key : κ) (value : υ) : OrderedMap κ υ :=
  map.alter key fun _ => value

def erase (map : OrderedMap κ υ) (key : κ) : OrderedMap κ υ :=
  ⟨map.entries.filter fun entry => entry.1 ≠ key, map.sorted.filter _⟩

/-- The entries whose key and value pass. -/
def filter (p : κ → υ → Bool) (map : OrderedMap κ υ) : OrderedMap κ υ :=
  ⟨map.entries.filter fun entry => p entry.1 entry.2, map.sorted.filter _⟩

/-- Inserts every entry of a list, in order. -/
def extend (map : OrderedMap κ υ) (entries : List (κ × υ)) : OrderedMap κ υ :=
  entries.foldl (fun map entry => map.insert entry.1 entry.2) map

/-- The first entry, and the rest. -/
def popFirst (map : OrderedMap κ υ) : Option ((κ × υ) × OrderedMap κ υ) :=
  match map with
  | ⟨[], _⟩ => none
  | ⟨entry :: rest, h⟩ => some (entry, ⟨rest, (List.pairwise_cons.mp h).2⟩)

/-- A key after every other is inserted last. -/
theorem entries_insert_last {map : OrderedMap κ υ} {key : κ} (value : υ)
    (h : ∀ entry ∈ map.entries, entry.1 < key) :
    (map.insert key value).entries = map.entries ++ [(key, value)] := by
  obtain ⟨entries, hsorted⟩ := map
  change ∀ entry ∈ entries, entry.1 < key at h
  change alterEntries key (fun _ => value) entries = entries ++ [(key, value)]
  clear hsorted
  induction entries with
  | nil => rfl
  | cons head rest ih =>
    have hlt := h head List.mem_cons_self
    rw [alterEntries, if_neg (not_lt_of_gt hlt), if_neg (ne_of_lt hlt),
      ih fun entry he => h entry (List.mem_cons_of_mem _ he)]
    rfl

/-- Without its first entry, a map has that key erased. -/
theorem popFirst_some {map rest : OrderedMap κ υ} {entry : κ × υ}
    (h : map.popFirst = some (entry, rest)) :
    map.entries = entry :: rest.entries ∧ rest = map.erase entry.1 := by
  obtain ⟨entries, hsorted⟩ := map
  cases entries with
  | nil => cases h
  | cons head tail =>
    rw [popFirst, Option.some.injEq, Prod.mk.injEq] at h
    obtain ⟨rfl, rfl⟩ := h
    refine ⟨rfl, ?_⟩
    have hlt := (List.pairwise_cons.mp hsorted).1
    have hfilter : tail.filter (fun other => other.1 ≠ head.1) = tail := by
      apply List.filter_eq_self.mpr
      intro other ho
      exact decide_eq_true (ne_of_gt (hlt other ho))
    rw [erase, OrderedMap.mk.injEq, List.filter_cons_of_neg (by simp), hfilter]

theorem popFirst_none {map : OrderedMap κ υ} (h : map.popFirst = none) : map.entries = [] := by
  obtain ⟨entries, hsorted⟩ := map
  cases entries with
  | nil => rfl
  | cons head tail => cases h

end OrderedMap

end JewelCase.Library
