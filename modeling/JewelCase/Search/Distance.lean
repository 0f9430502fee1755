import Mathlib.Order.MinMax
import JewelCase.Library.Alignment
import JewelCase.Search.Index

/-!
# The distance is the optimal string alignment

Each column of the computation is the alignment distance of the query's prefixes to one prefix of the
word, and no column after two past the limit comes back within it.
-/
namespace JewelCase.Search

open JewelCase.Library (osa osa_snoc_le_iff osa_nil_left osa_nil_right)

set_option autoImplicit false

variable {query word : Word}

/-- The distance between the first `i` characters of the query and the first `j` of the word. -/
noncomputable def near (query word : Word) (i j : Nat) : Nat := osa (query.take i) (word.take j)

theorem near_zero_left {j : Nat} (hj : j ≤ word.length) : near query word 0 j = j := by
  rw [near, List.take_zero, osa_nil_left, List.length_take, Nat.min_eq_left hj]

theorem near_zero_right {i : Nat} (hi : i ≤ query.length) : near query word i 0 = i := by
  rw [near, List.take_zero, osa_nil_right, List.length_take, Nat.min_eq_left hi]

/-- A prefix that ends in `a` is one character longer than a prefix before `a`. -/
theorem take_eq_snoc {text shorter : Word} {k : Nat} {a : Char} (hk : k ≤ text.length) :
    text.take k = shorter ++ [a] ↔
      0 < k ∧ text[k - 1]? = some a ∧ shorter = text.take (k - 1) := by
  cases k with
  | zero => simp
  | succ k =>
    have hlt : k < text.length := hk
    rw [List.take_succ_eq_append_getElem hlt, Nat.add_sub_cancel, List.getElem?_eq_getElem hlt]
    constructor
    · intro h
      obtain ⟨hshorter, ha⟩ := List.append_inj' h rfl
      rw [List.singleton_inj] at ha
      exact ⟨Nat.succ_pos k, congrArg some ha, hshorter.symm⟩
    · rintro ⟨-, ha, rfl⟩
      rw [Option.some.inj ha]

/-- One cell of a column, from its neighbours. -/
theorem near_succ_le_iff {i j n : Nat} (hi : i < query.length) (hj : j < word.length) :
    near query word (i + 1) (j + 1) ≤ n ↔
      near query word (i + 1) j + 1 ≤ n ∨ near query word i (j + 1) + 1 ≤ n ∨
        near query word i j + (if query[i] = word[j] then 0 else 1) ≤ n ∨
        (0 < i ∧ 0 < j ∧ query[i - 1]? = some word[j] ∧ word[j - 1]? = some query[i] ∧
          near query word (i - 1) (j - 1) + 1 ≤ n) := by
  have hswap : (∃ xs ys, query.take i = xs ++ [word[j]] ∧ word.take j = ys ++ [query[i]] ∧
      osa xs ys + 1 ≤ n) ↔ (0 < i ∧ 0 < j ∧ query[i - 1]? = some word[j] ∧
        word[j - 1]? = some query[i] ∧ near query word (i - 1) (j - 1) + 1 ≤ n) := by
    constructor
    · rintro ⟨xs, ys, hx, hy, hle⟩
      obtain ⟨hi0, hquery, rfl⟩ := (take_eq_snoc hi.le).mp hx
      obtain ⟨hj0, hword, rfl⟩ := (take_eq_snoc hj.le).mp hy
      exact ⟨hi0, hj0, hquery, hword, hle⟩
    · rintro ⟨hi0, hj0, hquery, hword, hle⟩
      exact ⟨_, _, (take_eq_snoc hi.le).mpr ⟨hi0, hquery, rfl⟩,
        (take_eq_snoc hj.le).mpr ⟨hj0, hword, rfl⟩, hle⟩
  have hq : query.take (i + 1) = query.take i ++ [query[i]] := List.take_succ_eq_append_getElem hi
  have hw : word.take (j + 1) = word.take j ++ [word[j]] := List.take_succ_eq_append_getElem hj
  rw [near, hq, hw, osa_snoc_le_iff, hswap]
  simp only [near, hq, hw]

/-! ### Columns -/

/-- Column `j` as it should be. -/
noncomputable def nearColumn (query word : Word) (j : Nat) : List Nat :=
  (List.range (query.length + 1)).map fun i => near query word i j

theorem nearColumn_getD {i j : Nat} (hi : i ≤ query.length) :
    (nearColumn query word j).getD i 0 = near query word i j := by
  rw [nearColumn, List.getD_eq_getElem?_getD, List.getElem?_map, List.getElem?_range (by omega)]
  rfl

theorem mem_nearColumn {j d : Nat} :
    d ∈ nearColumn query word j ↔ ∃ i ≤ query.length, near query word i j = d := by
  simp only [nearColumn, List.mem_map, List.mem_range, Nat.lt_succ_iff]

/-- A cell is the distance it should be, if its neighbours are. -/
theorem cell_eq {before current : List Nat} {i j : Nat} (hi : i < query.length)
    (hj : j < word.length) (hbefore : 0 < j → before = nearColumn query word (j - 1))
    (hcurrent : current.getD i 0 = near query word i (j + 1)) :
    cell query word (j + 1) before (nearColumn query word j) current (i + 1) =
      near query word (i + 1) (j + 1) := by
  refine eq_of_forall_ge_iff fun n => ?_
  rw [near_succ_le_iff hi hj, cell]
  have hcost : (if some query[i] ≠ some word[j] then 1 else 0) =
      if query[i] = word[j] then 0 else 1 := by
    by_cases hsame : query[i] = word[j] <;> simp [hsame]
  have hi2 : i + 1 - 2 = i - 1 := by omega
  have hj2 : j + 1 - 2 = j - 1 := by omega
  simp only [Nat.add_sub_cancel, hcurrent, nearColumn_getD hi.le,
    nearColumn_getD (Nat.succ_le_of_lt hi), List.getElem?_eq_getElem hi, List.getElem?_eq_getElem hj,
    hcost, hi2, hj2]
  split
  · rename_i hswap
    obtain ⟨hi1, hj1, hleft, hright⟩ := hswap
    have hi0 : 0 < i := by omega
    have hj0 : 0 < j := by omega
    rw [hbefore hj0, nearColumn_getD (by omega)]
    simp only [min_le_iff, or_assoc, hi0, hj0, hright, ← hleft, true_and]
  · rename_i hswap
    have hnone : ¬ (0 < i ∧ 0 < j ∧ query[i - 1]? = some word[j] ∧ word[j - 1]? = some query[i] ∧
        near query word (i - 1) (j - 1) + 1 ≤ n) := by
      rintro ⟨hi0, hj0, hright, hleft, -⟩
      exact hswap ⟨by omega, by omega, hleft.symm, hright⟩
    simp only [min_le_iff, or_assoc, hnone, or_false]

/-- **A column is the distances of the query's prefixes.** -/
theorem column_eq {before : List Nat} {j : Nat} (hj : j < word.length)
    (hbefore : 0 < j → before = nearColumn query word (j - 1)) :
    column query word (j + 1) before (nearColumn query word j) = nearColumn query word (j + 1) := by
  have hcells : ∀ k ≤ query.length, (List.range' 1 k).foldl (fun current i =>
      current ++ [cell query word (j + 1) before (nearColumn query word j) current i]) [j + 1] =
        (List.range (k + 1)).map fun i => near query word i (j + 1) := by
    intro k
    induction k with
    | zero =>
      intro _
      rw [List.range'_zero, List.foldl_nil, List.range_one, List.map_singleton,
        near_zero_left (Nat.succ_le_of_lt hj)]
    | succ k ih =>
      intro hk
      have hlast : ((List.range (k + 1)).map fun i => near query word i (j + 1)).getD k 0 =
          near query word k (j + 1) := by
        rw [List.getD_eq_getElem?_getD, List.getElem?_map, List.getElem?_range (Nat.lt_succ_self k)]
        rfl
      rw [List.range'_1_concat, List.foldl_append, ih (Nat.le_of_succ_le hk), List.foldl_cons,
        List.foldl_nil, Nat.add_comm 1 k, cell_eq hk hj hbefore hlast, List.range_succ (n := k + 1),
        List.map_append, List.map_singleton]
  exact hcells query.length (Nat.le_refl _)

/-! ### The early stop -/

/-- Two columns past the limit leave every later one past it. -/
theorem near_past {max j : Nat} (hprevious : ∀ i ≤ query.length, max < near query word i j)
    (hcurrent : ∀ i ≤ query.length, max < near query word i (j + 1)) {k : Nat} (hk : j + 1 ≤ k)
    (hword : k ≤ word.length) : ∀ i ≤ query.length, max < near query word i k := by
  induction k using Nat.strongRecOn with
  | ind k ih =>
    obtain rfl | hlt := Nat.eq_or_lt_of_le hk
    · exact hcurrent
    obtain ⟨k, rfl⟩ : ∃ before, k = before + 1 := ⟨k - 1, by omega⟩
    have hone : ∀ i ≤ query.length, max < near query word i k :=
      ih k (Nat.lt_succ_self k) (by omega) (by omega)
    have htwo : ∀ i ≤ query.length, max < near query word i (k - 1) := by
      intro i hi
      obtain heq | hlt := Nat.eq_or_lt_of_le (show j + 1 ≤ k by omega)
      · rw [← heq]
        exact hprevious i hi
      · exact ih (k - 1) (by omega) (by omega) (by omega) i hi
    intro i
    induction i with
    | zero =>
      intro _
      have hzero := hone 0 (Nat.zero_le _)
      rw [near_zero_left (by omega)] at hzero
      rw [near_zero_left hword]
      omega
    | succ i ihi =>
      intro hi
      by_contra hle
      rw [Nat.not_lt, near_succ_le_iff hi hword] at hle
      have hup := ihi (by omega)
      have hleft := hone (i + 1) hi
      have hcorner := hone i (by omega)
      obtain h | h | h | ⟨-, -, -, -, h⟩ := hle
      · omega
      · omega
      · omega
      · have hfar := htwo (i - 1) (by omega)
        omega

/-- What the columns answer up to the limit: the least distance to a prefix, and that to the whole. -/
def Answers (query word : Word) (max : Nat) (found : Nat × Nat) : Prop :=
  ∀ d ≤ max, (found.1 ≤ d ↔ ∃ k ≤ word.length, near query word query.length k ≤ d) ∧
    (found.2 ≤ d ↔ near query word query.length word.length ≤ d)

/-- **The columns from `j` on answer with what those before found.** -/
theorem columns_answer {max toPrefix toWhole : Nat} {before : List Nat} {j n : Nat}
    (hlength : word.length = j + n) (hbefore : 0 < j → before = nearColumn query word (j - 1))
    (hstarts : ∀ d, toPrefix ≤ d ↔ ∃ k ≤ j, near query word query.length k ≤ d)
    (hwhole : ∀ d ≤ max, toWhole ≤ d ↔ n = 0 ∧ near query word query.length j ≤ d) :
    Answers query word max (columns query word max (List.range' (j + 1) n) before
      (nearColumn query word j) toPrefix toWhole) := by
  induction n generalizing j before toPrefix toWhole with
  | zero =>
    intro d hd
    rw [Nat.add_zero] at hlength
    rw [List.range'_zero, columns, hlength]
    exact ⟨hstarts d, by simpa using hwhole d hd⟩
  | succ n ih =>
    have hj : j < word.length := by omega
    have hlast : (nearColumn query word (j + 1)).getD query.length 0 =
        near query word query.length (j + 1) := nearColumn_getD (Nat.le_refl _)
    have hstarts' : ∀ d, min toPrefix (near query word query.length (j + 1)) ≤ d ↔
        ∃ k ≤ j + 1, near query word query.length k ≤ d := by
      intro d
      rw [min_le_iff, hstarts]
      constructor
      · rintro (⟨k, hk, hle⟩ | hle)
        · exact ⟨k, by omega, hle⟩
        · exact ⟨j + 1, Nat.le_refl _, hle⟩
      · rintro ⟨k, hk, hle⟩
        obtain rfl | hlt := Nat.eq_or_lt_of_le hk
        · exact Or.inr hle
        · exact Or.inl ⟨k, by omega, hle⟩
    have hwhole' : ∀ d ≤ max, (if j + 1 = word.length then near query word query.length (j + 1)
        else toWhole) ≤ d ↔ n = 0 ∧ near query word query.length (j + 1) ≤ d := by
      intro d hd
      split_ifs with hend
      · have hn : n = 0 := by omega
        simp [hn]
      · have hn : n ≠ 0 := by omega
        have hnot := hwhole d hd
        simp only [Nat.succ_ne_zero, false_and, iff_false] at hnot
        simp [hn, hnot]
    rw [List.range'_succ, columns, column_eq hj hbefore]
    simp only [hlast]
    split
    · rename_i hpast
      simp only [Bool.and_eq_true, List.all_eq_true, decide_eq_true_eq] at hpast
      have hfar : ∀ k, j + 1 ≤ k → k ≤ word.length → max < near query word query.length k := by
        intro k hk hword
        refine near_past (fun i hi => ?_) (fun i hi => ?_) hk hword query.length (Nat.le_refl _)
        · exact hpast.2 _ (mem_nearColumn.2 ⟨i, hi, rfl⟩)
        · exact hpast.1 _ (mem_nearColumn.2 ⟨i, hi, rfl⟩)
      intro d hd
      refine ⟨(hstarts' d).trans ⟨?_, ?_⟩, (hwhole' d hd).trans ?_⟩
      · rintro ⟨k, hk, hle⟩
        exact ⟨k, by omega, hle⟩
      · rintro ⟨k, hk, hle⟩
        by_cases hlate : j + 1 ≤ k
        · have hlt := hfar k hlate hk
          omega
        · exact ⟨k, by omega, hle⟩
      · have hlt := hfar (j + 1) (Nat.le_refl _) hj
        have hend := hfar word.length hj (Nat.le_refl _)
        constructor
        · rintro ⟨-, hle⟩
          omega
        · intro hle
          omega
    · exact ih (by omega) (fun _ => rfl) hstarts' hwhole'

theorem columns_all (query word : Word) {max : Nat} (hmax : max < 256) :
    Answers query word max (columns query word max (List.range' 1 word.length)
      (List.replicate (query.length + 1) 0) (List.range (query.length + 1)) query.length
      (if word.isEmpty then query.length else 18446744073709551615)) := by
  have hfirst : List.range (query.length + 1) = nearColumn query word 0 := by
    rw [nearColumn]
    refine (List.map_id _).symm.trans (List.map_congr_left fun i hi => ?_)
    rw [List.mem_range, Nat.lt_succ_iff] at hi
    exact (near_zero_right hi).symm
  have hzero : near query word query.length 0 = query.length := near_zero_right (Nat.le_refl _)
  rw [hfirst]
  refine columns_answer (Nat.zero_add _).symm (fun hlt => absurd hlt (Nat.lt_irrefl 0)) ?_ ?_
  · intro d
    constructor
    · intro hle
      exact ⟨0, Nat.le_refl 0, hzero.symm ▸ hle⟩
    · rintro ⟨k, hk, hle⟩
      obtain rfl := Nat.le_zero.mp hk
      exact hzero ▸ hle
  · intro d hd
    rw [hzero]
    cases word with
    | nil => simp
    | cons c rest =>
      simp only [List.isEmpty_cons, Bool.false_eq_true, if_false, List.length_cons,
        Nat.succ_ne_zero, false_and, iff_false]
      omega

/-! ### What is answered -/

theorem near_prefix {n : Nat} : (∃ k ≤ word.length, near query word query.length k ≤ n) ↔
    ∃ start, start <+: word ∧ osa query start ≤ n := by
  constructor
  · rintro ⟨k, -, hle⟩
    rw [near, List.take_length] at hle
    exact ⟨word.take k, List.take_prefix k word, hle⟩
  · rintro ⟨start, hstart, hle⟩
    refine ⟨start.length, hstart.length_le, ?_⟩
    rw [near, List.take_length, ← List.prefix_iff_eq_take.mp hstart]
    exact hle

/-- **The distance is the true one.** It is to the whole word if no prefix is nearer, and else to the
nearest prefix, up to the limit. -/
theorem distance_true (query word : Word) {max : Nat} (hmax : max < 256) :
    (∀ d, distance query word max = some (d, false) ↔
      osa query word = d ∧ d ≤ max ∧ ∀ start, start <+: word → d ≤ osa query start) ∧
    (∀ d, distance query word max = some (d, true) ↔
      (∃ start, start <+: word ∧ osa query start = d) ∧ d ≤ max ∧
        (∀ start, start <+: word → d ≤ osa query start) ∧ d < osa query word) ∧
    (distance query word max = none ↔ ∀ start, start <+: word → max < osa query start) := by
  have hanswers := columns_all query word hmax
  rw [distance]
  generalize columns query word max (List.range' 1 word.length) (List.replicate (query.length + 1) 0)
    (List.range (query.length + 1)) query.length
    (if word.isEmpty then query.length else 18446744073709551615) = found at hanswers
  obtain ⟨toPrefix, toWhole⟩ := found
  have hall : near query word query.length word.length = osa query word := by
    rw [near, List.take_length, List.take_length]
  have hstarts : ∀ d ≤ max, toPrefix ≤ d ↔ ∃ start, start <+: word ∧ osa query start ≤ d :=
    fun d hd => (hanswers d hd).1.trans near_prefix
  have hwhole : ∀ d ≤ max, toWhole ≤ d ↔ osa query word ≤ d :=
    fun d hd => hall ▸ (hanswers d hd).2
  simp only
  by_cases hnear : toPrefix ≤ max
  · obtain ⟨nearest, hnearest, hle⟩ := (hstarts toPrefix hnear).mp (Nat.le_refl _)
    have hleast : ∀ start, start <+: word → toPrefix ≤ osa query start := by
      intro start hstart
      by_contra hlt
      exact hlt ((hstarts _ (by omega)).mpr ⟨start, hstart, Nat.le_refl _⟩)
    have hexact : osa query nearest = toPrefix := Nat.le_antisymm hle (hleast nearest hnearest)
    have hwhole' := hleast word (List.prefix_refl word)
    by_cases hend : toWhole ≤ max ∧ toWhole ≤ toPrefix
    · have hword : osa query word = toWhole := by
        have hup := (hwhole toWhole hend.1).mp (Nat.le_refl _)
        omega
      have hsame : toWhole = toPrefix := by omega
      rw [if_pos hend]
      refine ⟨fun d => ?_, fun d => ?_, ?_⟩
      · simp only [Option.some.injEq, Prod.mk.injEq, and_true]
        constructor
        · rintro rfl
          exact ⟨hword, hend.1, hsame ▸ hleast⟩
        · rintro ⟨hd, -⟩
          exact hword.symm.trans hd
      · simp only [Option.some.injEq, Prod.mk.injEq, Bool.false_eq_true, and_false, false_iff]
        rintro ⟨⟨start, hstart, rfl⟩, -, -, hlt⟩
        have hlow := hleast start hstart
        omega
      · simp only [reduceCtorEq, false_iff]
        intro hfar
        have hlow := hfar nearest hnearest
        omega
    · have hword : toPrefix < osa query word := by
        by_contra hle'
        have hle' : osa query word ≤ toPrefix := Nat.not_lt.mp hle'
        have hup := (hwhole toPrefix hnear).mpr hle'
        exact hend ⟨by omega, hup⟩
      rw [if_neg hend, if_pos hnear]
      refine ⟨fun d => ?_, fun d => ?_, ?_⟩
      · simp only [Option.some.injEq, Prod.mk.injEq, Bool.true_eq_false, and_false, false_iff]
        rintro ⟨hd, -, hlow⟩
        have hlow' := hlow nearest hnearest
        omega
      · simp only [Option.some.injEq, Prod.mk.injEq, and_true]
        constructor
        · rintro rfl
          exact ⟨⟨nearest, hnearest, hexact⟩, hnear, hleast, hword⟩
        · rintro ⟨⟨start, hstart, rfl⟩, -, hlow, -⟩
          have hup := hleast start hstart
          have hlow' := hlow nearest hnearest
          omega
      · simp only [reduceCtorEq, false_iff]
        intro hfar
        have hlow := hfar nearest hnearest
        omega
  · have hfar : ∀ start, start <+: word → max < osa query start := by
      intro start hstart
      by_contra hle
      exact hnear ((hstarts max (Nat.le_refl _)).mpr ⟨start, hstart, Nat.not_lt.mp hle⟩)
    have hword := hfar word (List.prefix_refl word)
    have hend : ¬ (toWhole ≤ max ∧ toWhole ≤ toPrefix) := by
      rintro ⟨hle, -⟩
      have hup := (hwhole max (Nat.le_refl _)).mp hle
      omega
    rw [if_neg hend, if_neg hnear]
    refine ⟨fun d => ?_, fun d => ?_, ?_⟩
    · simp only [reduceCtorEq, false_iff]
      rintro ⟨hd, hle, -⟩
      omega
    · simp only [reduceCtorEq, false_iff]
      rintro ⟨⟨start, hstart, rfl⟩, hle, -⟩
      have hlow := hfar start hstart
      omega
    · exact iff_of_true rfl hfar

theorem distance_of_swap :
    distance "tyalor".toList "taylor".toList 1 = some (1, false) ∧
      osa "tyalor".toList "taylor".toList = 1 := by
  have hswap : distance "tyalor".toList "taylor".toList 1 = some (1, false) := by decide +kernel
  exact ⟨hswap, (((distance_true _ _ (by decide)).1 1).mp hswap).1⟩

end JewelCase.Search
