import Mathlib.Algebra.GroupWithZero.Nat
import Mathlib.Data.List.AList
import Mathlib.Data.List.DropRight

/-!
# Entries by when they were last used

A list of entries with distinct keys, the most recently used first. Inserting puts an entry first;
when the sizes exceed a bound, the least recently used go until they do not.
-/
namespace JewelCase.Library

set_option autoImplicit false

variable {κ υ : Type}

/-- Entries, the most recently used first. -/
abbrev Recency (κ υ : Type) := AList fun _ : κ => υ

namespace Recency

def total (size : υ → Nat) (entries : List (Σ _ : κ, υ)) : Nat :=
  (entries.map fun entry => size entry.2).sum

/-- The most entries from the first on whose sizes are within `max`. -/
def within (size : υ → Nat) : Nat → List (Σ _ : κ, υ) → List (Σ _ : κ, υ)
  | _, [] => []
  | max, entry :: rest =>
    if size entry.2 ≤ max then entry :: within size (max - size entry.2) rest else []

variable {size : υ → Nat} {max : Nat} {entries : List (Σ _ : κ, υ)}

theorem total_append (entries more : List (Σ _ : κ, υ)) :
    total size (entries ++ more) = total size entries + total size more := by
  rw [total, List.map_append, List.sum_append]
  rfl

theorem within_sublist (max : Nat) (entries : List (Σ _ : κ, υ)) :
    (within size max entries).Sublist entries := by
  induction entries generalizing max with
  | nil => exact List.Sublist.refl _
  | cons entry rest ih =>
    rw [within]
    split_ifs
    · exact (ih _).cons_cons entry
    · exact List.nil_sublist _

theorem total_within_le (max : Nat) (entries : List (Σ _ : κ, υ)) :
    total size (within size max entries) ≤ max := by
  induction entries generalizing max with
  | nil => exact Nat.zero_le _
  | cons entry rest ih =>
    rw [within]
    split_ifs with h
    · have hrest := ih (max - size entry.2)
      rw [total, List.map_cons, List.sum_cons]
      rw [total] at hrest
      omega
    · exact Nat.zero_le _

theorem within_of_le (h : total size entries ≤ max) : within size max entries = entries := by
  induction entries generalizing max with
  | nil => rfl
  | cons entry rest ih =>
    rw [total, List.map_cons, List.sum_cons] at h
    have hle : size entry.2 ≤ max := by omega
    rw [within, if_pos hle, ih]
    rw [total]
    omega

/-- Where the sizes exceed the bound, the last entry goes. -/
theorem within_concat {entry : Σ _ : κ, υ} (h : max < total size (entries ++ [entry])) :
    within size max (entries ++ [entry]) = within size max entries := by
  induction entries generalizing max with
  | nil =>
    rw [total] at h
    simp only [List.nil_append, List.map_cons, List.map_nil, List.sum_cons, List.sum_nil] at h
    rw [List.nil_append, within, within, if_neg (by omega)]
  | cons first rest ih =>
    rw [List.cons_append, total, List.map_cons, List.sum_cons] at h
    rw [List.cons_append, within, within]
    split_ifs with hle
    · rw [ih]
      rw [total]
      omega
    · rfl

theorem total_sublist {less : List (Σ _ : κ, υ)} (h : less.Sublist entries) :
    total size less ≤ total size entries := by
  induction h with
  | slnil => exact Nat.le_refl _
  | cons entry _ ih =>
    rw [total, total, List.map_cons, List.sum_cons]
    rw [total, total] at ih
    omega
  | cons_cons entry _ ih =>
    rw [total, total, List.map_cons, List.map_cons, List.sum_cons, List.sum_cons]
    rw [total, total] at ih
    omega

/-- The entries that are within a bound. -/
def fit (size : υ → Nat) (max : Nat) (recent : Recency κ υ) : Recency κ υ :=
  ⟨within size max recent.entries, recent.nodupKeys.sublist (within_sublist max recent.entries)⟩

variable {recent : Recency κ υ}

theorem fit_of_le (h : total size recent.entries ≤ max) : fit size max recent = recent := by
  apply AList.ext
  exact within_of_le h

/-- The entries whose keys satisfy `p`. -/
def keep (p : κ → Bool) (recent : Recency κ υ) : Recency κ υ :=
  ⟨recent.entries.filter fun entry => p entry.1,
    recent.nodupKeys.sublist List.filter_sublist⟩

theorem keep_congr {p q : κ → Bool} (h : ∀ key ∈ recent.keys, p key = q key) :
    keep p recent = keep q recent := by
  apply AList.ext
  apply List.filter_congr
  intro entry he
  exact h entry.1 (List.mem_keys_of_mem he)

variable [DecidableEq κ] {key : κ} {value : υ}

/-- An entry used is the most recently used. -/
def use (recent : Recency κ υ) (key : κ) : Recency κ υ :=
  match recent.lookup key with
  | none => recent
  | some value => recent.insert key value

theorem lookup_fit (h : (fit size max recent).lookup key = some value) :
    recent.lookup key = some value := by
  have hmem := AList.mem_lookup_iff.mp h
  exact AList.mem_lookup_iff.mpr ((within_sublist max recent.entries).mem hmem)

theorem lookup_keep {p : κ → Bool} (h : (keep p recent).lookup key = some value) :
    recent.lookup key = some value ∧ p key = true := by
  obtain ⟨hmem, hp⟩ := List.mem_filter.mp (AList.mem_lookup_iff.mp h)
  exact ⟨AList.mem_lookup_iff.mpr hmem, hp⟩

theorem lookup_use (recent : Recency κ υ) (key other : κ) :
    (use recent key).lookup other = recent.lookup other := by
  rw [use]
  cases h : recent.lookup key with
  | none => rfl
  | some value =>
    by_cases ho : other = key
    · rw [ho, h]
      exact AList.lookup_insert recent
    · exact AList.lookup_insert_ne ho

theorem erase_absent (h : recent.lookup key = none) : recent.erase key = recent := by
  apply AList.ext
  exact List.kerase_of_notMem_keys (AList.lookup_eq_none.mp h)

theorem insert_erase (recent : Recency κ υ) (key : κ) (value : υ) :
    (recent.erase key).insert key value = recent.insert key value := by
  apply AList.ext
  rw [AList.entries_insert, AList.entries_insert]
  congr 1
  exact List.kerase_of_notMem_keys (List.notMem_keys_kerase key recent.nodupKeys)

/-- What entries take, by their keys. -/
theorem total_keys (recent : Recency κ υ) : total size recent.entries =
    (recent.keys.map fun key => ((recent.lookup key).map size).getD 0).sum := by
  rw [total, AList.keys, List.keys, List.map_map]
  congr 1
  apply List.map_congr_left
  intro entry he
  have hlookup : recent.lookup entry.1 = some entry.2 := AList.mem_lookup_iff.mpr he
  simp [hlookup]

/-- What an entry takes is freed when it is erased. -/
theorem total_erase (h : recent.lookup key = some value) :
    total size recent.entries = size value + total size (recent.erase key).entries := by
  have hmem := AList.mem_lookup_iff.mp h
  have hkey : key ∈ recent.entries.keys := List.mem_keys_of_mem hmem
  obtain ⟨other, before, after, hbefore, hentries, herase⟩ := List.exists_of_kerase hkey
  have hvalue : value = other := by
    have hother : (⟨key, other⟩ : Σ _ : κ, υ) ∈ recent.entries := by
      rw [hentries]
      exact List.mem_append_right _ List.mem_cons_self
    exact recent.nodupKeys.eq_of_mk_mem hmem hother
  change _ = size value + total size (List.kerase key recent.entries)
  rw [herase, hentries, total_append, total_append, hvalue]
  rw [total, total, total, List.map_cons, List.sum_cons]
  simp only
  omega

theorem total_insert (recent : Recency κ υ) (key : κ) (value : υ) :
    total size (recent.insert key value).entries =
      size value + total size (recent.erase key).entries := by
  rw [AList.entries_insert, total, List.map_cons, List.sum_cons]
  rfl

/-- Where the sizes exceed the bound, the least recently used is erased. -/
theorem fit_erase {before : List (Σ _ : κ, υ)} (hentries : recent.entries = before ++ [⟨key, value⟩])
    (h : max < total size recent.entries) : fit size max recent = fit size max (recent.erase key) := by
  have hnodup := recent.nodupKeys
  rw [hentries] at hnodup
  have hbefore : key ∉ before.keys := by
    intro hk
    rw [List.NodupKeys, List.keys_append, List.nodup_append] at hnodup
    exact hnodup.2.2 key hk key (List.mem_cons_self) rfl
  have herase : (recent.erase key).entries = before := by
    change List.kerase key recent.entries = before
    have hlast : List.kerase key [(⟨key, value⟩ : Σ _ : κ, υ)] = [] := List.kerase_cons_eq rfl
    rw [hentries, List.kerase_append_right hbefore, hlast, List.append_nil]
  apply AList.ext
  change within size max recent.entries = within size max (recent.erase key).entries
  rw [herase, hentries]
  rw [hentries] at h
  exact within_concat h

theorem total_use (recent : Recency κ υ) (key : κ) :
    total size (use recent key).entries = total size recent.entries := by
  rw [use]
  cases h : recent.lookup key with
  | none => rfl
  | some value =>
    simp only
    rw [total_insert, total_erase h]

/-! ### Erasing several -/

theorem kerase_eq_filter (h : entries.NodupKeys) (key : κ) :
    List.kerase key entries = entries.filter fun entry => decide (entry.1 ≠ key) := by
  induction entries with
  | nil => rfl
  | cons entry rest ih =>
    obtain ⟨hnot, hrest⟩ := List.nodupKeys_cons.mp h
    by_cases hk : key = entry.1
    · rw [List.kerase_cons_eq hk, List.filter_cons_of_neg (by simp [hk])]
      refine (List.filter_eq_self.mpr ?_).symm
      intro other ho
      apply decide_eq_true
      rw [hk]
      exact fun he => hnot (he ▸ List.mem_keys_of_mem ho)
    · rw [List.kerase_cons_ne hk, List.filter_cons_of_pos (by simpa using Ne.symm hk), ih hrest]

/-- **Erasing keys one by one leaves the entries of the others.** -/
theorem foldl_erase (keys : List κ) (recent : Recency κ υ) :
    keys.foldl (fun recent key => recent.erase key) recent =
      keep (fun key => decide (key ∉ keys)) recent := by
  induction keys generalizing recent with
  | nil =>
    apply AList.ext
    exact (List.filter_eq_self.mpr fun entry _ => decide_eq_true List.not_mem_nil).symm
  | cons key keys ih =>
    rw [List.foldl_cons, ih]
    apply AList.ext
    change List.filter _ (List.kerase key recent.entries) = List.filter _ recent.entries
    rw [kerase_eq_filter recent.nodupKeys, List.filter_filter]
    apply List.filter_congr
    intro entry _
    simp [not_or, Bool.and_comm]

end Recency

end JewelCase.Library

/-!
## The latest of a list

A bounded memory of what was added last, oldest first. Where nothing is added that it still holds,
what is added twice is added far apart.
-/
namespace JewelCase.Library

set_option autoImplicit false

variable {α : Type}

/-- Adds an element to a memory of at most `n`, forgetting the oldest of a full one. -/
def remember (n : Nat) (memory : List α) (x : α) : List α :=
  (if memory.length = n then memory.tail else memory) ++ [x]

theorem length_rtake (n : Nat) (xs : List α) : (xs.rtake n).length = min n xs.length := by
  rw [List.rtake, List.length_drop]
  omega

theorem tail_rtake {n : Nat} {xs : List α} (hn : n < xs.length) :
    (xs.rtake (n + 1)).tail = xs.rtake n := by
  rw [List.rtake, List.rtake, List.tail_drop]
  congr 1
  omega

/-- Remembering keeps the latest of everything added. -/
theorem remember_rtake {n : Nat} (hn : 0 < n) (xs : List α) (x : α) :
    remember n (xs.rtake n) x = (xs ++ [x]).rtake n := by
  obtain ⟨m, rfl⟩ := Nat.exists_eq_add_one_of_ne_zero (Nat.ne_of_gt hn)
  rw [List.rtake_concat_succ, remember, length_rtake]
  congr 1
  by_cases hfull : m < xs.length
  · rw [if_pos (by omega), tail_rtake hfull]
  · have hall : ∀ k, xs.length ≤ k → xs.rtake k = xs := by
      intro k hk
      rw [List.rtake, Nat.sub_eq_zero_of_le hk, List.drop_zero]
    by_cases hsame : min (m + 1) xs.length = m + 1
    · omega
    · rw [if_neg hsame, hall (m + 1) (by omega), hall m (by omega)]

/-- Nothing comes again among the `n` added after it. -/
def Spread (n : Nat) (xs : List α) : Prop :=
  ∀ (i j : Nat) (x : α), i < j → xs[i]? = some x → xs[j]? = some x → i + n < j

theorem spread_nil (n : Nat) : Spread n ([] : List α) := by
  intro i j x _ hi
  cases hi

theorem mem_rtake {n i : Nat} {xs : List α} {x : α} (hi : xs[i]? = some x)
    (hlate : xs.length ≤ i + n) : x ∈ xs.rtake n := by
  rw [List.rtake]
  refine List.mem_of_getElem? (i := i - (xs.length - n)) ?_
  rw [List.getElem?_drop]
  rwa [Nat.add_sub_cancel' (by omega)]

theorem Spread.append {n : Nat} {xs : List α} (h : Spread n xs) {x : α} (hx : x ∉ xs.rtake n) :
    Spread n (xs ++ [x]) := by
  intro i j y hij hi hj
  have hj' : j < xs.length + 1 := by
    have := (List.getElem?_eq_some_iff.mp hj).1
    simpa using this
  rw [List.getElem?_append_left (by omega)] at hi
  rcases Nat.lt_or_ge j xs.length with hlt | hge
  · rw [List.getElem?_append_left hlt] at hj
    exact h i j y hij hi hj
  · obtain rfl : j = xs.length := by omega
    rw [List.getElem?_concat_length, Option.some.injEq] at hj
    subst hj
    refine Nat.lt_of_not_le fun hclose => hx ?_
    exact mem_rtake hi hclose

theorem mem_rtake_iff {n : Nat} {xs : List α} {x : α} :
    x ∈ xs.rtake n ↔ ∃ i, xs[i]? = some x ∧ xs.length ≤ i + n := by
  constructor
  · intro hx
    rw [List.rtake, List.mem_iff_getElem?] at hx
    obtain ⟨i, hi⟩ := hx
    rw [List.getElem?_drop] at hi
    exact ⟨_, hi, by omega⟩
  · rintro ⟨i, hi, hlate⟩
    exact mem_rtake hi hlate

/-- The latest are told apart by what is spread. -/
theorem Spread.eq_of_rtake {β : Type} {n : Nat} {f : α → β} {xs : List α} (h : Spread n (xs.map f))
    {x y : α} (hx : x ∈ xs.rtake n) (hy : y ∈ xs.rtake n) (hsame : f x = f y) : x = y := by
  obtain ⟨i, hi, hilate⟩ := mem_rtake_iff.1 hx
  obtain ⟨j, hj, hjlate⟩ := mem_rtake_iff.1 hy
  have hlt := (List.getElem?_eq_some_iff.mp hi).1
  have hlt' := (List.getElem?_eq_some_iff.mp hj).1
  have hi' : (xs.map f)[i]? = some (f x) := by rw [List.getElem?_map, hi, Option.map_some]
  have hj' : (xs.map f)[j]? = some (f x) := by rw [List.getElem?_map, hj, Option.map_some, hsame]
  rcases Nat.lt_trichotomy i j with hij | rfl | hij
  · have := h i j (f x) hij hi' hj'
    omega
  · rw [hi, Option.some.injEq] at hj
    exact hj
  · have := h j i (f x) hij hj' hi'
    omega

end JewelCase.Library
