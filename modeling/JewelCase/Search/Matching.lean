import Mathlib.Algebra.BigOperators.Group.List.Basic
import Mathlib.Algebra.GroupWithZero.Nat
import JewelCase.Search.Index
import JewelCase.Library.Lists

/-!
# What a search should find

Every document scored word by word, with no index: each query word takes its best quality over the
words of the document's name.
-/
namespace JewelCase.Search

set_option autoImplicit false

/-- How well a query word matches a word: the whole of it or a prefix, and with typos only where the
first character is right. -/
def wordQuality (word x : Word) : Option Nat :=
  let max := maxTypos word.length
  if max = 0 ∨ word.length > maxFuzzyChars then
    if word <+: x then some (quality 0 (decide (x ≠ word))) else none
  else if word.take 1 <+: x then
    (distance word (x.take (maxFuzzyChars + max)) max).map fun r => quality r.1 r.2
  else none

/-- The best quality of a query word over a document's words, 0 for none. -/
def bestOf (docWords : List Word) (word : Word) : Nat :=
  (docWords.filterMap (wordQuality word)).min?.getD 0

/-- How many of `words` lead as an optional article. -/
def optionalOf (words : List Word) : Nat := leadingArticle words fun word => articles.contains word

/-- A document's score, if every needed query word matches. -/
def scoreOf (queryWords docWords : List Word) : Option Score :=
  let optional := optionalOf queryWords
  let qualities := queryWords.map (bestOf docWords)
  if ∀ q ∈ qualities.drop optional, q ≠ 0 then
    let skipped := (qualities.take optional).any fun q => decide (q = 0)
    some
      { inexact := decide (docWords.drop (optionalOf docWords) ≠ queryWords.drop optional)
        typos := (qualities.map fun q => (q - 1) / 2).sum
        skipped := skipped
        prefixes := (qualities.map fun q => (q - 1) % 2).sum
        extraWords := docWords.length - (queryWords.length - skipped.toNat) }
  else none

/-- A document that matches. -/
structure Match where
  kind : Kind
  score : Score
  words : List Word
  id : Int
deriving DecidableEq, Repr

def matchOf (words : String → List Word) (queryWords : List Word) (doc : Document) :
    Option Match :=
  (scoreOf queryWords (words doc.name)).map fun score =>
    ⟨doc.kind, score, words doc.name, doc.id⟩

/-- Score, then folded name, then ID. -/
def Match.key (m : Match) := toLex (m.score.key, toLex (m.words, m.id))

def sortMatches (matches_ : List Match) : List Match :=
  matches_.insertionSort fun a b => a.key ≤ b.key

/-- A kind's section, if anything of it matches. -/
def sectionOf (limit : Nat) (matches_ : List Match) (kind : Kind) : Option (Score × Section) :=
  match sortMatches matches_ with
  | [] => none
  | best :: rest =>
    some (best.score, ⟨kind, ((best :: rest).take limit).map (·.id), matches_.length⟩)

/-- The sections of a set of documents. -/
def reference (words : String → List Word) (documents : List Document) (query : String)
    (kinds : List Kind) (limit : Nat) (keep : Kind → Int → Bool) : List Section :=
  let queryWords := (words query).take maxQueryWords
  let found := (documents.filter fun doc =>
    decide (doc.kind ∈ kinds ∧ keep doc.kind doc.id)).filterMap (matchOf words queryWords)
  sortSections (Kind.all.filterMap fun kind =>
    sectionOf limit (found.filter fun m => decide (m.kind = kind)) kind)

end JewelCase.Search

/-!
## The words a query word matches

In a sorted vocabulary the words that start alike are one run, so the words tried are all that can
match. What the postings of the matching words mark is, for each document, its best quality.
-/
namespace JewelCase.Search

set_option autoImplicit false

open Library.Prefixes

variable {index : Index} {word start x : Word} {w q d : Nat}

/-! ### The run of words -/

theorem lt_partitionPoint_iff {α : Type} {p : α → Bool} {l : List α}
    (h : l.Pairwise fun a b => p b → p a) {i : Nat} {x : α} (hx : l[i]? = some x) :
    i < partitionPoint p l ↔ p x := lt_takeWhile_iff h hx

theorem partitionPoint_le {α : Type} (p : α → Bool) (l : List α) :
    partitionPoint p l ≤ l.length := (List.takeWhile_prefix p).length_le

theorem mem_prefixed (hv : index.vocabulary.Pairwise (· < ·)) :
    w ∈ index.prefixed start ↔ ∃ x, index.vocabulary[w]? = some x ∧ start <+: x := by
  have hless : index.vocabulary.Pairwise fun a b => decide (b < start) → decide (a < start) := by
    refine hv.imp ?_
    intro a b hab hb
    exact decide_eq_true (hab.trans (of_decide_eq_true hb))
  set first := partitionPoint (fun w => decide (w < start)) index.vocabulary with hfirst
  have hpast : ∀ {i : Nat} {x : Word}, (index.vocabulary.drop first)[i]? = some x →
      ¬ x < start := by
    intro i x hx hlt
    rw [List.getElem?_drop] at hx
    have := (lt_partitionPoint_iff hless hx).mpr (decide_eq_true hlt)
    omega
  have hrun : ∀ {i : Nat} {x : Word}, (index.vocabulary.drop first)[i]? = some x →
      (i < partitionPoint (fun w => start.isPrefixOf w) (index.vocabulary.drop first) ↔
        start <+: x) := by
    intro i x hx
    refine (lt_partitionPoint_iff (hv.drop.imp_of_mem ?_) hx).trans List.isPrefixOf_iff_prefix
    intro a b ha _ hab hb
    obtain ⟨i, hi⟩ := List.mem_iff_getElem?.mp ha
    rw [List.isPrefixOf_iff_prefix] at hb ⊢
    exact prefix_between (hpast hi) hab hb
  rw [Index.prefixed, List.mem_range'_1, ← hfirst]
  constructor
  · rintro ⟨hle, hlt⟩
    have hlen := partitionPoint_le (fun w => start.isPrefixOf w) (index.vocabulary.drop first)
    rw [List.length_drop] at hlen
    have hbound : w < index.vocabulary.length := by omega
    refine ⟨index.vocabulary[w], List.getElem?_eq_getElem hbound, ?_⟩
    have hx : (index.vocabulary.drop first)[w - first]? = some index.vocabulary[w] := by
      rw [List.getElem?_drop, Nat.add_sub_cancel' hle, List.getElem?_eq_getElem hbound]
    exact (hrun hx).mp (by omega)
  · rintro ⟨x, hx, hp⟩
    have hle : first ≤ w := by
      by_contra hlt
      have := (lt_partitionPoint_iff hless hx).mp (by omega)
      exact not_lt_of_prefix hp (of_decide_eq_true this)
    refine ⟨hle, ?_⟩
    have hx' : (index.vocabulary.drop first)[w - first]? = some x := by
      rw [List.getElem?_drop, Nat.add_sub_cancel' hle, hx]
    have := (hrun hx').mpr hp
    omega

/-- A word that starts with another is longer unless it is that word. -/
theorem length_ne_iff (hp : word <+: x) : x.length ≠ word.length ↔ x ≠ word := by
  rw [not_iff_not]
  constructor
  · intro he
    exact (hp.eq_of_length he.symm).symm
  · intro he
    rw [he]

/-- **The words matched are those that match, with their quality.** -/
theorem mem_matchingWords (hv : index.vocabulary.Pairwise (· < ·)) :
    (w, q) ∈ index.matchingWords word ↔
      ∃ x, index.vocabulary[w]? = some x ∧ wordQuality word x = some q := by
  rw [Index.matchingWords]
  by_cases hshort : maxTypos word.length = 0 ∨ word.length > maxFuzzyChars
  · simp only [if_pos hshort, List.mem_map, Prod.mk.injEq, mem_prefixed hv]
    constructor
    · rintro ⟨w', ⟨x, hx, hp⟩, rfl, rfl⟩
      refine ⟨x, hx, ?_⟩
      rw [wordQuality, if_pos hshort, if_pos hp, List.getD_eq_getElem?_getD, hx, Option.getD_some,
        decide_eq_decide.mpr (length_ne_iff hp)]
    · rintro ⟨x, hx, hq⟩
      rw [wordQuality, if_pos hshort] at hq
      by_cases hp : word <+: x
      · rw [if_pos hp] at hq
        refine ⟨w, ⟨x, hx, hp⟩, rfl, ?_⟩
        rw [List.getD_eq_getElem?_getD, hx, Option.getD_some, decide_eq_decide.mpr (length_ne_iff hp)]
        exact Option.some.inj hq
      · rw [if_neg hp] at hq
        cases hq
  · simp only [if_neg hshort, List.mem_filterMap, mem_prefixed hv]
    constructor
    · rintro ⟨w', ⟨x, hx, hp⟩, hq⟩
      obtain ⟨r, hr, he⟩ := Option.map_eq_some_iff.mp hq
      rw [Prod.mk.injEq] at he
      obtain ⟨rfl, rfl⟩ := he
      rw [List.getD_eq_getElem?_getD, hx, Option.getD_some] at hr
      refine ⟨x, hx, ?_⟩
      rw [wordQuality, if_neg hshort, if_pos hp, hr, Option.map_some]
    · rintro ⟨x, hx, hq⟩
      rw [wordQuality, if_neg hshort] at hq
      by_cases hp : word.take 1 <+: x
      · rw [if_pos hp] at hq
        obtain ⟨r, hr, he⟩ := Option.map_eq_some_iff.mp hq
        refine ⟨w, ⟨x, hx, hp⟩, ?_⟩
        rw [List.getD_eq_getElem?_getD, hx, Option.getD_some, hr, Option.map_some, he]
      · rw [if_neg hp] at hq
        cases hq

/-! ### What the postings mark -/

/-- `b` is the least of some qualities, 0 if there are none. -/
def Least (qs : Nat → Prop) (b : Nat) : Prop :=
  b = 0 ∧ (∀ q, ¬ qs q) ∨ b ≠ 0 ∧ qs b ∧ ∀ q, qs q → b ≤ q

theorem Least.unique {qs qs' : Nat → Prop} {b b' : Nat} (h : Least qs b) (h' : Least qs' b')
    (hq : ∀ q, qs q ↔ qs' q) : b = b' := by
  obtain ⟨rfl, hno⟩ | ⟨hb, hm, hle⟩ := h
  · obtain ⟨rfl, -⟩ | ⟨-, hm', -⟩ := h'
    · rfl
    · exact absurd ((hq _).mpr hm') (hno _)
  · obtain ⟨rfl, hno'⟩ | ⟨-, hm', hle'⟩ := h'
    · exact absurd ((hq _).mp hm) (hno' _)
    · exact Nat.le_antisymm (hle _ ((hq _).mpr hm')) (hle' _ ((hq _).mp hm))

/-- What has been noted of `n` documents once the qualities of `pairs` are marked. -/
structure Marked (n : Nat) (pairs : List (Nat × Nat)) (found : List Nat × List Nat) : Prop where
  length : found.1.length = n
  least : ∀ d, Least (fun q => (q, d) ∈ pairs) (found.1.getD d 0)
  nodup : found.2.Nodup
  docs : ∀ d, d ∈ found.2 ↔ ∃ q, (q, d) ∈ pairs

theorem Marked.nil (n : Nat) : Marked n [] (List.replicate n 0, []) := by
  refine ⟨List.length_replicate, ?_, List.nodup_nil, by simp⟩
  intro d
  refine .inl ⟨?_, by simp⟩
  rw [List.getD_eq_getElem?_getD, List.getElem?_replicate]
  split <;> rfl

theorem mark_fst (q d : Nat) (found : List Nat × List Nat) :
    (mark q found d).1 =
      if found.1.getD d 0 = 0 ∨ q < found.1.getD d 0 then found.1.set d q else found.1 := rfl

theorem mark_snd (q d : Nat) (found : List Nat × List Nat) :
    (mark q found d).2 = if found.1.getD d 0 = 0 then found.2 ++ [d] else found.2 := rfl

theorem Marked.mark {n : Nat} {pairs : List (Nat × Nat)} {found : List Nat × List Nat}
    (h : Marked n pairs found) (hd : d < n) (hq : q ≠ 0) :
    Marked n (pairs ++ [(q, d)]) (mark q found d) := by
  have hpairs : ∀ q' d', (q', d') ∈ pairs ++ [(q, d)] ↔ (q', d') ∈ pairs ∨ q' = q ∧ d' = d := by
    intro q' d'
    simp
  have hslot : found.1.getD d 0 = 0 ↔ d ∉ found.2 := by
    rw [h.docs]
    obtain ⟨h0, hno⟩ | ⟨hb, hm, -⟩ := h.least d
    · exact iff_of_true h0 (not_exists.mpr hno)
    · exact iff_of_false hb (not_not.mpr ⟨_, hm⟩)
  refine ⟨?_, ?_, ?_, ?_⟩
  · rw [mark_fst]
    split
    · rw [List.length_set, h.length]
    · exact h.length
  · intro d'
    by_cases he : d' = d
    · subst he
      have hget : (Search.mark q found d').1.getD d' 0 =
          if found.1.getD d' 0 = 0 ∨ q < found.1.getD d' 0 then q else found.1.getD d' 0 := by
        rw [mark_fst]
        split
        · rw [List.getD_eq_getElem?_getD, List.getElem?_set_self (by rw [h.length]; exact hd)]
          rfl
        · rfl
      rw [hget]
      obtain ⟨h0, hno⟩ | ⟨hb, hm, hle⟩ := h.least d'
      · rw [if_pos (.inl h0)]
        refine .inr ⟨hq, (hpairs _ _).mpr (.inr ⟨rfl, rfl⟩), ?_⟩
        intro q' hq'
        obtain hq' | ⟨rfl, -⟩ := (hpairs _ _).mp hq'
        · exact absurd hq' (hno q')
        · exact Nat.le_refl _
      · by_cases hlt : q < found.1.getD d' 0
        · rw [if_pos (.inr hlt)]
          refine .inr ⟨hq, (hpairs _ _).mpr (.inr ⟨rfl, rfl⟩), ?_⟩
          intro q' hq'
          obtain hq' | ⟨rfl, -⟩ := (hpairs _ _).mp hq'
          · exact hlt.le.trans (hle q' hq')
          · exact Nat.le_refl _
        · rw [if_neg (not_or.mpr ⟨hb, hlt⟩)]
          refine .inr ⟨hb, (hpairs _ _).mpr (.inl hm), ?_⟩
          intro q' hq'
          obtain hq' | ⟨rfl, -⟩ := (hpairs _ _).mp hq'
          · exact hle q' hq'
          · exact Nat.le_of_not_lt hlt
    · have hget : (Search.mark q found d).1.getD d' 0 = found.1.getD d' 0 := by
        rw [mark_fst]
        split
        · rw [List.getD_eq_getElem?_getD, List.getElem?_set_ne (Ne.symm he),
            ← List.getD_eq_getElem?_getD]
        · rfl
      rw [hget]
      have hsame : ∀ q', (q', d') ∈ pairs ++ [(q, d)] ↔ (q', d') ∈ pairs := by
        intro q'
        rw [hpairs]
        exact or_iff_left fun hand => he hand.2
      simpa only [hsame] using h.least d'
  · rw [mark_snd]
    split
    · next h0 =>
      rw [List.nodup_append]
      refine ⟨h.nodup, List.nodup_singleton _, ?_⟩
      rintro a ha b hb rfl
      rw [List.mem_singleton] at hb
      exact hslot.mp h0 (hb ▸ ha)
    · exact h.nodup
  · intro d'
    have hdocs : d' ∈ (Search.mark q found d).2 ↔ d' ∈ found.2 ∨ d' = d := by
      rw [mark_snd]
      split
      · simp
      · next h0 =>
        have hin : d ∈ found.2 := by
          by_contra hno
          exact h0 (hslot.mpr hno)
        refine (or_iff_left_of_imp ?_).symm
        rintro rfl
        exact hin
    rw [hdocs, h.docs]
    constructor
    · rintro (⟨q', hq'⟩ | rfl)
      · exact ⟨q', (hpairs _ _).mpr (.inl hq')⟩
      · exact ⟨q, (hpairs _ _).mpr (.inr ⟨rfl, rfl⟩)⟩
    · rintro ⟨q', hq'⟩
      obtain hq' | ⟨-, rfl⟩ := (hpairs _ _).mp hq'
      · exact .inl ⟨q', hq'⟩
      · exact .inr rfl

theorem Marked.foldl {n : Nat} {pairs more : List (Nat × Nat)} {found : List Nat × List Nat}
    (h : Marked n pairs found) (hmore : ∀ p ∈ more, p.1 ≠ 0 ∧ p.2 < n) :
    Marked n (pairs ++ more) (more.foldl (fun found p => Search.mark p.1 found p.2) found) := by
  induction more generalizing pairs found with
  | nil => simpa using h
  | cons p more ih =>
    obtain ⟨hq, hd⟩ := hmore p List.mem_cons_self
    have := ih (h.mark hd hq) fun p hp => hmore p (List.mem_cons_of_mem _ hp)
    simpa using this

end JewelCase.Search
