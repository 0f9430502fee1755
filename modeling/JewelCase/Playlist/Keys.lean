import Mathlib.Algebra.Ring.Int.Defs
import Mathlib.Data.Int.Order.Basic
import JewelCase.Library.Patience
import JewelCase.Library.Lists
import JewelCase.Library.Picks

/-!
# Sparse keys for an edited playlist

`crates/server/src/api/playlists/keys.rs`. The items whose keys are already in order keep them, as
many as can be, and every other item takes a key between the kept ones on each side of it.
-/
namespace JewelCase.Playlist

set_option autoImplicit false

open Library.Patience

/-- How far apart the keys of a playlist's items start. -/
def keyGap : Int := 2 ^ 20

/-- A checked operation on `i64`: its result, unless it overflows. -/
def checked (x : Int) : Option Int := if -2 ^ 63 ≤ x ∧ x < 2 ^ 63 then some x else none

/-- The `n`-th of `count` keys between `low` and `high`. -/
def spreadKey (low high : Option Int) (count n : Int) : Option Int :=
  match low, high with
  | some low, some high =>
    (checked (high - low)).bind fun between =>
      let step := between.tdiv (count + 1)
      if step < 1 then none else some (low + step * n)
  | some low, none => (checked (keyGap * n)).bind fun past => checked (low + past)
  | none, some high => (checked (keyGap * (count + 1 - n))).bind fun past => checked (high - past)
  | none, none => checked (keyGap * n)

def spreadEach (low high : Option Int) (count : Int) : List Nat → Option (List Int)
  | [] => some []
  | i :: is =>
    match spreadKey low high count (i + 1) with
    | none => none
    | some key => (spreadEach low high count is).map (key :: ·)

/-- `count` increasing keys that lie between `low` and `high`, or `none` if there is no room. -/
def spread (low high : Option Int) (count : Nat) : Option (List Int) :=
  (checked count).bind fun n => spreadEach low high n (List.range count)

/-- The stored keys, each with where it stands. -/
def present (stored : List (Option Int)) : List (Nat × Int) :=
  stored.zipIdx.filterMap fun r => r.1.map fun key => (r.2, key)

/-- Keeps the `i`-th key found, where it stands. -/
def keepFound (found : List (Nat × Int)) (kept : List (Option Int)) (i : Nat) :
    List (Option Int) :=
  match found[i]? with
  | some (place, key) => kept.set place (some key)
  | none => kept

/-- `stored` with every key outside one longest strictly increasing run replaced by `none`. -/
def longestIncreasing (stored : List (Option Int)) : List (Option Int) :=
  let found := present stored
  (run (fun i => (found.map Prod.snd).getD i 0) found.length).foldl (keepFound found)
    (List.replicate stored.length none)

/-- The loop over the kept keys: `low` is the last one passed, and `free` items since wait for
the next. -/
def assignFrom (low : Option Int) (free : Nat) : List (Option Int) → Option (List Int)
  | [] => spread low none free
  | none :: kept => assignFrom low (free + 1) kept
  | some key :: kept =>
    (spread low (some key) free).bind fun keys =>
      (assignFrom (some key) 0 kept).map (keys ++ key :: ·)

/-- The key each item is stored under once the edit is written, given its stored key, or `none`
when a gap between neighbours is used up. -/
def assign (stored : List (Option Int)) : Option (List Int) :=
  assignFrom none 0 (longestIncreasing stored)

end JewelCase.Playlist

/-!
## What the keys of an edited playlist are

The keys assigned increase strictly, those kept among them, and what keeps its key is a longest run
of stored keys that already increase.
-/
namespace JewelCase.Playlist

set_option autoImplicit false

open Library.Patience Library.Picks Library.Lists

/-! ### The kept keys -/

/-- The stored keys in the order of the items. -/
def keysIn (stored : List (Option Int)) : List Int := stored.filterMap id

theorem present_snd (stored : List (Option Int)) : (present stored).map Prod.snd = keysIn stored := by
  rw [present, keysIn, List.map_filterMap]
  conv_rhs => rw [← List.zipIdx_map_fst 0 stored, List.filterMap_map]
  apply List.filterMap_congr
  intro r _
  cases h : r.1 <;> simp [h]

theorem mem_present {stored : List (Option Int)} {p : Nat} {key : Int} :
    (p, key) ∈ present stored ↔ stored[p]? = some (some key) := by
  rw [present, List.mem_filterMap]
  constructor
  · rintro ⟨⟨k, q⟩, hr, he⟩
    rw [List.mem_zipIdx_iff_getElem?] at hr
    cases k with
    | none => cases he
    | some k =>
      simp only [Option.map_some, Option.some.injEq, Prod.mk.injEq] at he
      obtain ⟨rfl, rfl⟩ := he
      exact hr
  · intro h
    exact ⟨(some key, p), List.mem_zipIdx_iff_getElem?.mpr h, rfl⟩

/-- The places ascend. -/
theorem present_places (stored : List (Option Int)) :
    (present stored).Pairwise fun a b => a.1 < b.1 := by
  rw [present, List.pairwise_filterMap]
  have hz : stored.zipIdx.Pairwise fun a b => a.2 < b.2 := by
    rw [← List.pairwise_map (f := Prod.snd) (R := fun a b : Nat => a < b), List.zipIdx_map_snd]
    exact List.pairwise_lt_range' 1 Nat.one_pos
  refine hz.imp ?_
  intro a b hab x hx y hy
  obtain ⟨k, -, rfl⟩ := Option.map_eq_some_iff.mp hx
  obtain ⟨l, -, rfl⟩ := Option.map_eq_some_iff.mp hy
  exact hab

/-- The indices kept, first first. -/
def keptRun (stored : List (Option Int)) : List Nat :=
  (run (fun i => ((present stored).map Prod.snd).getD i 0) (present stored).length).reverse

theorem getD_present {stored : List (Option Int)} {i : Nat} {x : Nat × Int}
    (h : (present stored)[i]? = some x) : ((present stored).map Prod.snd).getD i 0 = x.2 := by
  rw [List.getD_eq_getElem?_getD, List.getElem?_map, h]
  rfl

theorem keptRun_lt {stored : List (Option Int)} :
    ∀ i ∈ keptRun stored, i < (present stored).length := by
  intro i hi
  exact (run_spec _ _).2.1 i (List.mem_reverse.mp hi)

theorem keptRun_pairwise (stored : List (Option Int)) :
    (keptRun stored).Pairwise fun a b => a < b ∧ ((present stored).map Prod.snd).getD a 0 <
      ((present stored).map Prod.snd).getD b 0 :=
  List.pairwise_reverse.mpr (run_spec _ _).2.2

/-- The places and keys that are kept. -/
def keptPairs (stored : List (Option Int)) : List (Nat × Int) :=
  (keptRun stored).filterMap ((present stored)[·]?)

theorem keptPairs_eq (stored : List (Option Int)) :
    keptPairs stored = filterIdx (fun i => decide (i ∈ keptRun stored)) (present stored) :=
  filterMap_getElem? ((keptRun_pairwise stored).imp And.left) keptRun_lt

theorem keptPairs_sublist (stored : List (Option Int)) :
    (keptPairs stored).Sublist (present stored) := by
  rw [keptPairs_eq]
  exact filterIdx_sublist _ _

theorem keptPairs_length (stored : List (Option Int)) :
    (keptPairs stored).length = (keptRun stored).length := by
  rw [keptPairs_eq, length_filterIdx_mem ((keptRun_pairwise stored).imp And.left) keptRun_lt]

theorem keptPairs_pairwise (stored : List (Option Int)) :
    (keptPairs stored).Pairwise fun a b => a.1 < b.1 ∧ a.2 < b.2 := by
  have hplaces := (present_places stored).sublist (keptPairs_sublist stored)
  refine hplaces.and ?_
  rw [keptPairs, List.pairwise_filterMap]
  refine (keptRun_pairwise stored).imp ?_
  intro i j hij x hx y hy
  rw [getD_present hx, getD_present hy] at hij
  exact hij.2

/-- Keys kept one by one, each of them where it is stored. -/
theorem foldl_keepFound {stored : List (Option Int)} {found : List (Nat × Int)}
    (hf : ∀ x ∈ found, stored[x.1]? = some (some x.2)) (is : List Nat) (kept : List (Option Int))
    (hl : kept.length = stored.length) (p : Nat) :
    (is.foldl (keepFound found) kept)[p]? =
      if p ∈ (is.filterMap (found[·]?)).map Prod.fst then stored[p]? else kept[p]? := by
  induction is generalizing kept with
  | nil => simp
  | cons i is ih =>
    rw [List.foldl_cons]
    cases hi : found[i]? with
    | none =>
      have hkeep : keepFound found kept i = kept := by rw [keepFound, hi]
      rw [hkeep, List.filterMap_cons_none hi, ih kept hl]
    | some x =>
      have hkeep : keepFound found kept i = kept.set x.1 (some x.2) := by rw [keepFound, hi]
      have hx := hf x (List.mem_of_getElem? hi)
      rw [hkeep, List.filterMap_cons_some hi, ih _ (by rw [List.length_set, hl]), List.map_cons]
      by_cases hin : p ∈ (is.filterMap (found[·]?)).map Prod.fst
      · rw [if_pos hin, if_pos (List.mem_cons_of_mem _ hin)]
      · rw [if_neg hin]
        by_cases hp : p = x.1
        · have hlt : x.1 < kept.length := by
            rw [hl]
            exact (List.getElem?_eq_some_iff.mp hx).1
          rw [hp, if_pos List.mem_cons_self, List.getElem?_set_self hlt, hx]
        · rw [if_neg (by simp [hp, hin]), List.getElem?_set_ne (Ne.symm hp)]

theorem longestIncreasing_getElem? (stored : List (Option Int)) (p : Nat) :
    (longestIncreasing stored)[p]? =
      if p ∈ (keptPairs stored).map Prod.fst then stored[p]?
      else (List.replicate stored.length none)[p]? := by
  have hmem : ∀ p, p ∈ ((run (fun i => ((present stored).map Prod.snd).getD i 0)
      (present stored).length).filterMap ((present stored)[·]?)).map Prod.fst ↔
      p ∈ (keptPairs stored).map Prod.fst := by
    intro p
    rw [keptPairs, keptRun, List.filterMap_reverse, List.map_reverse, List.mem_reverse]
  rw [longestIncreasing, foldl_keepFound (fun x hx => mem_present.1 hx) _ _ (by simp)]
  simp only [hmem]

theorem longestIncreasing_length (stored : List (Option Int)) :
    (longestIncreasing stored).length = stored.length := by
  have hlen : ∀ (found : List (Nat × Int)) (is : List Nat) (kept : List (Option Int)),
      (is.foldl (keepFound found) kept).length = kept.length := by
    intro found is kept
    induction is generalizing kept with
    | nil => rfl
    | cons i is ih =>
      rw [List.foldl_cons, ih]
      unfold keepFound
      cases found[i]? with
      | none => rfl
      | some x => exact List.length_set
  rw [longestIncreasing, hlen, List.length_replicate]

/-- What is kept is stored there. -/
theorem longestIncreasing_stored {stored : List (Option Int)} {p : Nat} {key : Int}
    (h : (longestIncreasing stored)[p]? = some (some key)) : stored[p]? = some (some key) := by
  rw [longestIncreasing_getElem?] at h
  by_cases hp : p ∈ (keptPairs stored).map Prod.fst
  · rwa [if_pos hp] at h
  · rw [if_neg hp, List.getElem?_replicate] at h
    by_cases hlt : p < stored.length <;> simp [hlt] at h

/-- The keys kept are those of the run. -/
theorem present_longestIncreasing (stored : List (Option Int)) :
    present (longestIncreasing stored) = keptPairs stored := by
  apply List.Perm.eq_of_pairwise' (r := fun a b : Nat × Int => a.1 < b.1)
  · exact present_places _
  · exact (keptPairs_pairwise stored).imp And.left
  · have hn₁ : (present (longestIncreasing stored)).Nodup :=
      (present_places _).imp fun h he => Nat.ne_of_lt h (congrArg Prod.fst he)
    have hn₂ : (keptPairs stored).Nodup :=
      ((keptPairs_pairwise stored).imp And.left).imp fun h he =>
        Nat.ne_of_lt h (congrArg Prod.fst he)
    rw [List.perm_ext_iff_of_nodup hn₁ hn₂]
    rintro ⟨p, key⟩
    rw [mem_present]
    constructor
    · intro h
      have hs := longestIncreasing_stored h
      rw [longestIncreasing_getElem?] at h
      by_cases hp : p ∈ (keptPairs stored).map Prod.fst
      · obtain ⟨⟨q, k⟩, hx, rfl⟩ := List.mem_map.mp hp
        have hk := mem_present.1 ((keptPairs_sublist stored).subset hx)
        simp only at hk hs
        rw [hs, Option.some.injEq, Option.some.injEq] at hk
        rwa [hk]
      · rw [if_neg hp, List.getElem?_replicate] at h
        by_cases hlt : p < stored.length <;> simp [hlt] at h
    · intro h
      rw [longestIncreasing_getElem?, if_pos (List.mem_map.mpr ⟨_, h, rfl⟩)]
      exact mem_present.1 ((keptPairs_sublist stored).subset h)

theorem keysIn_kept (stored : List (Option Int)) :
    keysIn (longestIncreasing stored) = (keptPairs stored).map Prod.snd := by
  rw [← present_snd, present_longestIncreasing]

/-- The keys kept increase. -/
theorem kept_increasing (stored : List (Option Int)) :
    (keysIn (longestIncreasing stored)).Pairwise (· < ·) := by
  rw [keysIn_kept, List.pairwise_map]
  exact (keptPairs_pairwise stored).imp And.right

/-- **No increasing run of stored keys is longer than the one kept.** -/
theorem kept_longest {stored : List (Option Int)} {ys : List Int}
    (hsub : ys.Sublist (keysIn stored)) (hinc : ys.Pairwise (· < ·)) :
    ys.length ≤ (keysIn (longestIncreasing stored)).length := by
  obtain ⟨is, rfl, his⟩ := List.sublist_eq_map_getElem hsub
  have hlen : (keysIn stored).length = (present stored).length := by
    rw [← present_snd, List.length_map]
  have hval : ∀ i : Fin (keysIn stored).length,
      ((present stored).map Prod.snd).getD i 0 = (keysIn stored)[i] := by
    intro i
    rw [present_snd, List.getD_eq_getElem?_getD, List.getElem?_eq_getElem i.2]
    rfl
  have hrun : (is.map Fin.val).Pairwise fun a b => a < b ∧
      ((present stored).map Prod.snd).getD a 0 < ((present stored).map Prod.snd).getD b 0 := by
    rw [List.pairwise_map] at hinc ⊢
    refine (his.and hinc).imp ?_
    intro a b hab
    rw [hval a, hval b]
    exact ⟨hab.1, hab.2⟩
  have hlt : ∀ i ∈ is.map Fin.val, i < (present stored).length := by
    intro i hi
    obtain ⟨j, -, rfl⟩ := List.mem_map.mp hi
    rw [← hlen]
    exact j.2
  have hle := length_le_run hlt hrun
  rw [List.length_map] at hle
  rw [List.length_map, keysIn_kept, List.length_map, keptPairs_length, keptRun,
    List.length_reverse]
  exact hle

/-! ### Spreading -/

theorem checked_eq_some {x y : Int} : checked x = some y ↔ (-2 ^ 63 ≤ x ∧ x < 2 ^ 63) ∧ y = x := by
  unfold checked
  by_cases h : -2 ^ 63 ≤ x ∧ x < 2 ^ 63
  · rw [if_pos h, and_iff_right h, Option.some.injEq]
    exact eq_comm
  · rw [if_neg h]
    exact iff_of_false (by intro he; cases he) fun he => h he.1

/-- The keys are as many as asked, between the two, and increasing. -/
structure Spread (low high : Option Int) (count : Nat) (keys : List Int) : Prop where
  length : keys.length = count
  increasing : keys.Pairwise (· < ·)
  above : ∀ l ∈ low, ∀ k ∈ keys, l < k
  below : ∀ h ∈ high, ∀ k ∈ keys, k < h

/-- The key before the first, were it spread too. -/
def spreadBase (count : Int) : Option Int → Option Int → Int
  | some low, _ => low
  | none, some high => high - keyGap * (count + 1)
  | none, none => 0

/-- How far apart the keys are. -/
def spreadStep (count : Int) : Option Int → Option Int → Int
  | some low, some high => (high - low).tdiv (count + 1)
  | _, _ => keyGap

theorem keyGap_pos : 1 ≤ keyGap := by decide

theorem spreadKey_eq {low high : Option Int} {count n key : Int}
    (h : spreadKey low high count n = some key) :
    key = spreadBase count low high + spreadStep count low high * n ∧
      1 ≤ spreadStep count low high := by
  cases low with
  | none =>
    cases high with
    | none =>
      obtain ⟨-, rfl⟩ := checked_eq_some.1 h
      exact ⟨by simp [spreadBase, spreadStep], keyGap_pos⟩
    | some high =>
      obtain ⟨past, hp, hk⟩ := Option.bind_eq_some_iff.mp h
      obtain ⟨-, rfl⟩ := checked_eq_some.1 hp
      obtain ⟨-, rfl⟩ := checked_eq_some.1 hk
      refine ⟨?_, keyGap_pos⟩
      simp only [spreadBase, spreadStep, keyGap]
      omega
  | some low =>
    cases high with
    | none =>
      obtain ⟨past, hp, hk⟩ := Option.bind_eq_some_iff.mp h
      obtain ⟨-, rfl⟩ := checked_eq_some.1 hp
      obtain ⟨-, rfl⟩ := checked_eq_some.1 hk
      exact ⟨rfl, keyGap_pos⟩
    | some high =>
      obtain ⟨between, hb, hk⟩ := Option.bind_eq_some_iff.mp h
      obtain ⟨-, rfl⟩ := checked_eq_some.1 hb
      by_cases hstep : (high - low).tdiv (count + 1) < 1
      · simp only [if_pos hstep] at hk
        cases hk
      · simp only [if_neg hstep, Option.some.injEq] at hk
        exact ⟨hk.symm, by simpa [spreadStep] using hstep⟩

theorem spreadEach_eq {low high : Option Int} {count : Int} {is : List Nat} {keys : List Int}
    (h : spreadEach low high count is = some keys) :
    keys = is.map fun i : Nat =>
      spreadBase count low high + spreadStep count low high * (i + 1) := by
  induction is generalizing keys with
  | nil =>
    obtain rfl : [] = keys := by simpa [spreadEach] using h
    rfl
  | cons i is ih =>
    rw [spreadEach] at h
    cases hk : spreadKey low high count (i + 1) with
    | none =>
      rw [hk] at h
      cases h
    | some key =>
      rw [hk] at h
      obtain ⟨rest, hrest, rfl⟩ := Option.map_eq_some_iff.mp h
      rw [List.map_cons, (spreadKey_eq hk).1, ih hrest]

/-- **The keys spread are as many as asked, increasing, and between the two.** -/
theorem spread_spec {low high : Option Int} {count : Nat} {keys : List Int}
    (h : spread low high count = some keys) : Spread low high count keys := by
  obtain ⟨n, hn, he⟩ := Option.bind_eq_some_iff.mp h
  obtain ⟨-, rfl⟩ := checked_eq_some.1 hn
  have hkeys := spreadEach_eq he
  rcases Nat.eq_zero_or_pos count with rfl | hpos
  · obtain rfl : keys = [] := hkeys
    exact ⟨rfl, .nil, by simp, by simp⟩
  have hstep : 1 ≤ spreadStep count low high := by
    obtain ⟨m, rfl⟩ : ∃ m, count = m + 1 := ⟨count - 1, by omega⟩
    rw [List.range_succ_eq_map, spreadEach] at he
    cases hk : spreadKey low high (m + 1 : Nat) ((0 : Nat) + 1) with
    | none =>
      rw [hk] at he
      cases he
    | some key => exact (spreadKey_eq hk).2
  subst hkeys
  generalize hs : spreadStep count low high = step at hstep
  have hmono : ∀ i j : Nat, i < j → step * ((i : Int) + 1) < step * ((j : Int) + 1) := by
    intro i j hij
    exact Int.mul_lt_mul_of_pos_left (by omega) (by omega)
  refine ⟨by simp, ?_, ?_, ?_⟩
  · rw [List.pairwise_map]
    refine List.pairwise_lt_range.imp ?_
    intro i j hij
    have := hmono i j hij
    omega
  · intro l hl k hk
    obtain rfl : low = some l := hl
    obtain ⟨i, -, rfl⟩ := List.mem_map.mp hk
    have : 0 < step * ((i : Int) + 1) := Int.mul_pos (by omega) (by omega)
    simp only [spreadBase]
    omega
  · intro b hb k hk
    obtain rfl : high = some b := hb
    obtain ⟨i, hi, rfl⟩ := List.mem_map.mp hk
    rw [List.mem_range] at hi
    have hlt := hmono i count hi
    cases low with
    | none =>
      obtain rfl : keyGap = step := hs
      simp only [spreadBase]
      omega
    | some l =>
      obtain rfl : (b - l).tdiv (count + 1) = step := hs
      have hnn : 0 ≤ b - l := by
        by_contra hneg
        have := Int.tdiv_nonneg (a := l - b) (b := count + 1) (by omega) (by omega)
        have hflip : (l - b).tdiv (count + 1) = -(b - l).tdiv (count + 1) := by
          rw [← Int.neg_tdiv, Int.neg_sub]
        omega
      have hle := Int.mul_tdiv_self_le (k := (count : Int) + 1) hnn
      rw [Int.mul_comm] at hle
      simp only [spreadBase]
      omega

/-! ### Assigning -/

/-- Keys for the items still to pass, and where the kept ones are. -/
theorem assignFrom_spec {kept : List (Option Int)} {low : Option Int} {free : Nat}
    {keys : List Int} (h : assignFrom low free kept = some keys) (hinc : (keysIn kept).Pairwise (· < ·))
    (hlow : ∀ l ∈ low, ∀ k ∈ keysIn kept, l < k) :
    keys.length = free + kept.length ∧ keys.Pairwise (· < ·) ∧ (∀ l ∈ low, ∀ k ∈ keys, l < k) ∧
      ∀ (i : Nat) (k : Int), kept[i]? = some (some k) → keys[free + i]? = some k := by
  induction kept generalizing low free keys with
  | nil =>
    have hs := spread_spec h
    exact ⟨hs.length, hs.increasing, hs.above, by simp⟩
  | cons x kept ih =>
    cases x with
    | none =>
      obtain ⟨h₁, h₂, h₃, h₄⟩ := @ih low (free + 1) keys h hinc hlow
      refine ⟨by rw [h₁, List.length_cons]; omega, h₂, h₃, ?_⟩
      intro i k hi
      cases i with
      | zero => cases hi
      | succ i =>
        have := h₄ i k hi
        rwa [Nat.add_right_comm] at this
    | some key =>
      rw [assignFrom] at h
      obtain ⟨front, hs, h⟩ := Option.bind_eq_some_iff.mp h
      obtain ⟨rest, hrest, rfl⟩ := Option.map_eq_some_iff.mp h
      have hcons : keysIn (some key :: kept) = key :: keysIn kept := rfl
      rw [hcons] at hinc hlow
      obtain ⟨hkey, hinc⟩ := List.pairwise_cons.mp hinc
      have hsp := spread_spec hs
      have hnext : ∀ l ∈ some key, ∀ k ∈ keysIn kept, l < k := by
        intro l hl k hk
        obtain rfl : key = l := by simpa using hl
        exact hkey k hk
      obtain ⟨h₁, h₂, h₃, h₄⟩ := ih hrest hinc hnext
      refine ⟨?_, ?_, ?_, ?_⟩
      · rw [List.length_append, hsp.length, List.length_cons, h₁, List.length_cons]
        omega
      · refine List.pairwise_append.mpr ⟨hsp.increasing, List.pairwise_cons.mpr ⟨?_, h₂⟩, ?_⟩
        · exact h₃ key rfl
        · intro a ha b hb
          have hak := hsp.below key rfl a ha
          rcases List.mem_cons.mp hb with rfl | hb
          · exact hak
          · exact hak.trans (h₃ key rfl b hb)
      · intro l hl k hk
        have hlk := hlow l hl key List.mem_cons_self
        rcases List.mem_append.mp hk with hk | hk
        · exact hsp.above l hl k hk
        · rcases List.mem_cons.mp hk with rfl | hk
          · exact hlk
          · exact hlk.trans (h₃ key rfl k hk)
      · intro i k hi
        rw [List.getElem?_append_right (by rw [hsp.length]; omega), hsp.length]
        cases i with
        | zero =>
          obtain rfl : key = k := by simpa using hi
          simp
        | succ i =>
          have := h₄ i k hi
          rw [show free + (i + 1) - free = i + 1 by omega, List.getElem?_cons_succ]
          simpa using this

/-- **The keys assigned increase, one an item, and every kept key is its item's.** -/
theorem assign_spec {stored : List (Option Int)} {keys : List Int} (h : assign stored = some keys) :
    keys.length = stored.length ∧ keys.Pairwise (· < ·) ∧
      ∀ (i : Nat) (k : Int), (longestIncreasing stored)[i]? = some (some k) → keys[i]? = some k := by
  obtain ⟨h₁, h₂, -, h₄⟩ := assignFrom_spec h (kept_increasing stored) (by simp)
  rw [longestIncreasing_length, Nat.zero_add] at h₁
  refine ⟨h₁, h₂, fun i k hi => ?_⟩
  have := h₄ i k hi
  rwa [Nat.zero_add] at this

end JewelCase.Playlist
