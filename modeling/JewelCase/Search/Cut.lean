import JewelCase.Search.Distance
import JewelCase.Search.Matching

/-!
# What cutting a long word changes

`matching_words` looks at the start of a longer word only. A query word of the greatest length can be
the whole of that start but for the typos allowed, and is then matched to the word as if all of it.
-/
namespace JewelCase.Search

open JewelCase.Library (osa osa_le aligned_osa Aligned)

set_option autoImplicit false

variable {index : Index} {word x : Word}

/-- The characters of a vocabulary word that `word` is compared with. -/
def cut (word : Word) : Nat := maxFuzzyChars + maxTypos word.length

/-- The words matched are those that start with the same character and are near enough as a whole, each
once with its typos and whether a prefix of it was matched. -/
def MatchesWhole (index : Index) (word : Word) : Prop :=
  (index.matchingWords word).Pairwise (fun a b => a.1 < b.1) ∧
    ∀ w q, (w, q) ∈ index.matchingWords word ↔
      ∃ x, index.vocabulary[w]? = some x ∧ word.take 1 <+: x ∧
        (distance word x (maxTypos word.length)).map (fun r => quality r.1 r.2) = some q

/-- If `word` is of the greatest length and a longer word's start has all its characters in order, a
prefix of that word is within one typo. -/
def CutTells (word x : Word) : Prop :=
  word.length = maxFuzzyChars → cut word < x.length → word.Sublist (x.take (cut word)) →
    ∃ start, start <+: x ∧ osa word start ≤ 1

/-- The typos and the kind of a match can be told from its quality. -/
theorem quality_inj {typos typos' : Nat} {toPrefix toPrefix' : Bool}
    (h : quality typos toPrefix = quality typos' toPrefix') :
    typos = typos' ∧ toPrefix = toPrefix' := by
  cases toPrefix <;> cases toPrefix' <;> simp [quality] at h ⊢ <;> omega

theorem maxTypos_le (length : Nat) : maxTypos length ≤ 2 := by
  unfold maxTypos
  split
  · omega
  · split <;> omega

/-! ### One word -/

/-- A word as near as this is not longer than the cut. -/
theorem prefix_cut (hlength : word.length ≤ maxFuzzyChars) {start : Word} (hstart : start <+: x)
    (hnear : osa word start ≤ maxTypos word.length) : start <+: x.take (cut word) := by
  have hle := (aligned_osa word start).length_le.2
  refine List.prefix_take_iff.mpr ⟨hstart, ?_⟩
  rw [cut]
  omega

/-- A word cut to as many characters more as the typos allowed has the query's in order, if it is
within the typos. -/
theorem cut_near_iff (hlength : word.length ≤ maxFuzzyChars) (hlong : cut word < x.length) :
    osa word (x.take (cut word)) ≤ maxTypos word.length ↔
      word.length = maxFuzzyChars ∧ word.Sublist (x.take (cut word)) := by
  have hcut : (x.take (cut word)).length = cut word := by
    rw [List.length_take, Nat.min_eq_left hlong.le]
  constructor
  · intro hnear
    have haligned := aligned_osa word (x.take (cut word))
    have hle := haligned.length_le.2
    have hdef : cut word = maxFuzzyChars + maxTypos word.length := rfl
    rw [hcut] at hle
    refine ⟨by omega, haligned.sublist ?_⟩
    rw [hcut]
    omega
  · rintro ⟨hmax, hsub⟩
    have hinserted := osa_le (Aligned.of_sublist hsub)
    have hdef : cut word = maxFuzzyChars + maxTypos word.length := rfl
    rw [hcut] at hinserted
    omega

/-- **The cut changes nothing, exactly if it can tell a prefix.** -/
theorem distance_cut_iff (hlength : word.length ≤ maxFuzzyChars) :
    distance word (x.take (cut word)) (maxTypos word.length) =
      distance word x (maxTypos word.length) ↔ CutTells word x := by
  by_cases hlong : cut word < x.length
  · obtain ⟨hcutWhole, hcutPrefix, hcutNone⟩ :=
      distance_true word (x.take (cut word)) (Nat.lt_of_le_of_lt (maxTypos_le word.length) (by decide))
    obtain ⟨hwhole, hstarts, hnone⟩ :=
      distance_true word x (Nat.lt_of_le_of_lt (maxTypos_le word.length) (by decide))
    have hdef : cut word = maxFuzzyChars + maxTypos word.length := rfl
    have hfar : maxTypos word.length < osa word x := by
      have hle := (aligned_osa word x).length_le.2
      omega
    have hstart : x.take (cut word) <+: x := List.take_prefix _ _
    constructor
    · intro hsame hmax _ hsub
      by_contra hnot
      have htwo : maxTypos word.length = 2 := by rw [hmax]; rfl
      have hall : ∀ start, start <+: x → 2 ≤ osa word start := by
        intro start hpre
        by_contra hlt
        exact hnot ⟨start, hpre, by omega⟩
      have hnear := (cut_near_iff hlength hlong).mpr ⟨hmax, hsub⟩
      have hexact : osa word (x.take (cut word)) = 2 := by
        have hlow := hall _ hstart
        omega
      have hfound := (hcutWhole 2).mpr ⟨hexact, htwo.ge, fun start hpre =>
        hall start (hpre.trans hstart)⟩
      rw [hsame] at hfound
      obtain ⟨hd, -⟩ := (hwhole 2).mp hfound
      omega
    · intro htells
      cases hfound : distance word x (maxTypos word.length) with
      | none =>
        have hnone := hnone.mp hfound
        exact hcutNone.mpr fun start hpre => hnone start (hpre.trans hstart)
      | some found =>
        obtain ⟨d, toPrefix⟩ := found
        cases toPrefix with
        | false =>
          obtain ⟨hd, hle, -⟩ := (hwhole d).mp hfound
          omega
        | true =>
          obtain ⟨⟨nearest, hnearest, rfl⟩, hle, hleast, -⟩ := (hstarts d).mp hfound
          refine (hcutPrefix _).mpr ⟨⟨nearest, prefix_cut hlength hnearest hle, rfl⟩, hle,
            fun start hpre => hleast start (hpre.trans hstart), ?_⟩
          by_contra hnot
          obtain ⟨hmax, hsub⟩ := (cut_near_iff hlength hlong).mp (by omega)
          obtain ⟨start, hpre, hone⟩ := htells hmax hlong hsub
          have htwo : maxTypos word.length = 2 := by rw [hmax]; rfl
          have hlow := hleast start hpre
          have hlong' := (aligned_osa word (x.take (cut word))).length_le.2
          rw [List.length_take, Nat.min_eq_left hlong.le] at hlong'
          omega
  · rw [List.take_of_length_le (Nat.not_lt.mp hlong)]
    exact iff_of_true rfl fun _ hlt => absurd hlt hlong

/-! ### Every word -/

/-- Where typos are allowed, the words that start with the same character are compared, each cut. -/
theorem matchingWords_typos (htypos : maxTypos word.length ≠ 0)
    (hlength : word.length ≤ maxFuzzyChars) :
    index.matchingWords word = (index.prefixed (word.take 1)).filterMap fun w =>
      (distance word ((index.vocabulary.getD w []).take (cut word)) (maxTypos word.length)).map
        fun r => (w, quality r.1 r.2) := by
  have hfuzzy : ¬ (maxTypos word.length = 0 ∨ word.length > maxFuzzyChars) := by omega
  exact if_neg hfuzzy

theorem matchingWords_sorted (index : Index) (word : Word) :
    (index.matchingWords word).Pairwise fun a b => a.1 < b.1 := by
  have hrange : ∀ start, (index.prefixed start).Pairwise (· < ·) := fun start =>
    List.pairwise_lt_range'
  rw [Index.matchingWords]
  simp only
  split
  · rw [List.pairwise_map]
    exact hrange word
  · rw [List.pairwise_filterMap]
    refine (hrange _).imp ?_
    rintro w w' hlt found hfound found' hfound'
    obtain ⟨r, -, rfl⟩ := Option.map_eq_some_iff.mp hfound
    obtain ⟨r', -, rfl⟩ := Option.map_eq_some_iff.mp hfound'
    exact hlt

/-- **A typo search compares whole words, exactly if the cut can tell a prefix of each.** -/
theorem matchesWhole_iff (hv : index.vocabulary.Pairwise (· < ·)) (hlow : 4 ≤ word.length)
    (hlength : word.length ≤ maxFuzzyChars) :
    MatchesWhole index word ↔
      ∀ x ∈ index.vocabulary, word.take 1 <+: x → CutTells word x := by
  have hquality : ∀ x, wordQuality word x = if word.take 1 <+: x then
      (distance word (x.take (cut word)) (maxTypos word.length)).map fun r => quality r.1 r.2
      else none := by
    intro x
    have hmax : maxTypos word.length ≠ 0 := by
      unfold maxTypos
      split
      · omega
      · split <;> omega
    have hfuzzy : ¬ (maxTypos word.length = 0 ∨ word.length > maxFuzzyChars) := by
      rintro (hzero | hlong)
      · exact hmax hzero
      · omega
    rw [wordQuality, if_neg hfuzzy, cut]
  have hinjective : ∀ a b : Option (Nat × Bool), a.map (fun r => quality r.1 r.2) =
      b.map (fun r => quality r.1 r.2) → a = b := by
    refine fun a b => Option.map_injective ?_ |>.eq_iff.mp
    rintro ⟨typos, toPrefix⟩ ⟨typos', toPrefix'⟩ hq
    obtain ⟨rfl, rfl⟩ := quality_inj hq
    rfl
  constructor
  · rintro ⟨-, hmatches⟩ x hx hstart
    refine (distance_cut_iff hlength).mp (hinjective _ _ (Option.ext fun q => ?_))
    obtain ⟨w, hw⟩ := List.mem_iff_getElem?.mp hx
    have hboth := (hmatches w q).symm.trans (mem_matchingWords hv)
    simp only [hw, Option.some.injEq, exists_eq_left', hquality, hstart, if_true, true_and] at hboth
    exact hboth.symm
  · intro htells
    refine ⟨matchingWords_sorted index word, fun w q => (mem_matchingWords hv).trans ?_⟩
    refine exists_congr fun x => and_congr_right fun hx => ?_
    rw [hquality]
    by_cases hstart : word.take 1 <+: x
    · have hcut := (distance_cut_iff hlength).mpr
        (htells x (List.mem_of_getElem? hx) hstart)
      rw [if_pos hstart, hcut]
      exact (and_iff_right hstart).symm
    · rw [if_neg hstart]
      exact iff_of_false (by simp) fun h => hstart h.1

/-- A vocabulary of one word, longer than the cut. -/
def oneLongWord : Index :=
  ⟨["azzbcdefghijklmnopqrstuvwxyz012345more".toList], [[]], [], [], [0]⟩

theorem matches_short_word : MatchesWhole oneLongWord "abcd".toList :=
  (matchesWhole_iff (List.pairwise_singleton _ _) (by decide) (by decide)).mpr
    fun _ _ _ hlength => absurd hlength (by decide)

/-- The letters inserted into the long word are too many for an alignment of its start with one edit. -/
theorem long_word_far {start : Word} (hstart : start <+: oneLongWord.vocabulary.getD 0 []) :
    2 ≤ osa "abcdefghijklmnopqrstuvwxyz012345".toList start := by
  have haligned := aligned_osa "abcdefghijklmnopqrstuvwxyz012345".toList start
  have hlength : "abcdefghijklmnopqrstuvwxyz012345".toList.length = 32 := by decide +kernel
  have hone : "abcdefghijklmnopqrstuvwxyz012345".toList.count 'z' = 1 := by decide +kernel
  have hthree : ((oneLongWord.vocabulary.getD 0 []).take 28).count 'z' = 3 := by decide +kernel
  obtain hshort | hlong := Nat.lt_or_ge start.length 28
  · have hle := haligned.length_le.1
    omega
  · have hpre : (oneLongWord.vocabulary.getD 0 []).take 28 <+: start :=
      List.prefix_of_prefix_length_le (List.take_prefix _ _) hstart
        (Nat.le_trans (List.length_take_le _ _) hlong)
    have hcount := hpre.sublist.count_le 'z'
    have hle := haligned.count_le 'z'
    omega

/-- A query of 32 characters matches 34 of a longer word's as if they were the whole word. -/
theorem long_word_cut :
    let word := "abcdefghijklmnopqrstuvwxyz012345".toList
    distance word (oneLongWord.vocabulary.getD 0 []) 2 = some (2, true) ∧
      oneLongWord.matchingWords word = [(0, quality 2 false)] ∧ ¬ MatchesWhole oneLongWord word := by
  intro word
  have hlength : word.length = 32 := by decide +kernel
  have hmax : maxTypos word.length = 2 := by rw [hlength]; rfl
  have hlong : (oneLongWord.vocabulary.getD 0 []).length = 38 := by decide +kernel
  have hcutLength : cut word = 34 := by rw [cut, hmax]; rfl
  have hsub : word.Sublist ((oneLongWord.vocabulary.getD 0 []).take (cut word)) := by
    rw [hcutLength]
    decide +kernel
  have hosa : osa word ((oneLongWord.vocabulary.getD 0 []).take (cut word)) = 2 := by
    have hnear := (cut_near_iff (Nat.le_of_eq hlength) (by omega)).mpr ⟨hlength, hsub⟩
    have hfar := long_word_far (List.take_prefix (cut word) _)
    rw [hmax] at hnear
    exact Nat.le_antisymm hnear hfar
  have hcut : distance word ((oneLongWord.vocabulary.getD 0 []).take (cut word)) 2 =
      some (2, false) :=
    ((distance_true word _ (by decide)).1 2).mpr ⟨hosa, Nat.le_refl 2, fun start hstart =>
      long_word_far (hstart.trans (List.take_prefix _ _))⟩
  have hmatched : oneLongWord.matchingWords word = [(0, quality 2 false)] := by
    have hprefixed : oneLongWord.prefixed (word.take 1) = [0] := by decide +kernel
    have hfound : (distance word ((oneLongWord.vocabulary.getD 0 []).take (cut word))
        (maxTypos word.length)).map (fun r => (0, quality r.1 r.2)) = some (0, quality 2 false) := by
      rw [hmax, hcut]
      rfl
    have hone : ∀ f : Nat → Option (Nat × Nat), f 0 = some (0, quality 2 false) →
        [0].filterMap f = [(0, quality 2 false)] := fun f hf => List.filterMap_cons_some hf
    rw [matchingWords_typos (by omega) (Nat.le_of_eq hlength), hprefixed]
    exact hone _ hfound
  have hdistance : distance word (oneLongWord.vocabulary.getD 0 []) 2 = some (2, true) := by
    refine ((distance_true word _ (by decide)).2.1 2).mpr
      ⟨⟨_, List.take_prefix _ _, hosa⟩, Nat.le_refl 2, fun start hstart => long_word_far hstart, ?_⟩
    have hle := (aligned_osa word (oneLongWord.vocabulary.getD 0 [])).length_le.2
    omega
  refine ⟨hdistance, hmatched, fun h => ?_⟩
  have hfound := (h.2 0 (quality 2 false)).mp (hmatched ▸ List.mem_cons_self)
  obtain ⟨x, hx, -, hq⟩ := hfound
  have hx : x = oneLongWord.vocabulary.getD 0 [] := (Option.some.inj hx).symm
  rw [hx, hmax, hdistance] at hq
  exact absurd hq (by decide)

end JewelCase.Search
