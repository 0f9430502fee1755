import Mathlib.Data.Bool.Basic
import Mathlib.Data.Char
import Mathlib.Data.Int.Order.Basic
import Mathlib.Data.List.Dedup
import Mathlib.Data.List.Lex
import Mathlib.Data.List.Sort
import Mathlib.Data.Prod.Lex
import Mathlib.Order.Basic

/-!
# The search index

`crates/core/src/search.rs`, `search/build.rs`, `search/distance.rs` and `search/query.rs`. Names
are folded into words by a function given. A word is its characters, which are in the order of its
bytes. An index has fewer than 2^32 documents and words, so its `u32`s are their numbers.
-/
namespace JewelCase.Search

set_option autoImplicit false

abbrev Word := List Char

/-- What a name names. The order is the tie-break: the more specific thing first. -/
inductive Kind where
  | track
  | album
  | artist
deriving DecidableEq, Repr

def Kind.all : List Kind := [.track, .album, .artist]

def Kind.rank : Kind → Nat
  | .track => 0
  | .album => 1
  | .artist => 2

structure Document where
  kind : Kind
  id : Int
  name : String
deriving DecidableEq, Repr

/-- One kind's matches, best first. -/
structure Section where
  kind : Kind
  ids : List Int
  total : Nat
deriving DecidableEq, Repr

structure Entry where
  kind : Kind
  id : Int
deriving DecidableEq, Repr

/-- Names by their words, ready to search. -/
structure Index where
  /-- Every distinct word, sorted. -/
  vocabulary : List Word
  /-- For each word, the documents holding it. -/
  postings : List (List Nat)
  /-- Documents in tie-break order. -/
  documents : List Entry
  /-- Each document's words as vocabulary indexes, document `d`'s from `starts[d]`. -/
  words : List Nat
  starts : List Nat
deriving Repr

/-! ### Building -/

/-- A document folded, its words as vocabulary indexes. -/
structure Folded where
  kind : Kind
  words : List Nat
  id : Int
deriving DecidableEq, Repr

/-- What tie-break order compares. -/
def Folded.key (d : Folded) : ℕ ×ₗ List ℕ ×ₗ ℤ := toLex (d.kind.rank, toLex (d.words, d.id))

/-- Every distinct word, sorted. -/
def vocabularyOf (words : List Word) : List Word := words.dedup.insertionSort (· ≤ ·)

/-- Adds document `d` to a word's posting, once. -/
def post (d : Nat) (postings : List (List Nat)) (w : Nat) : List (List Nat) :=
  postings.modify w fun posting => if posting.getLast? = some d then posting else posting ++ [d]

/-- Adds the next document in tie-break order. -/
def Index.add (index : Index) (doc : Folded) : Index :=
  { index with
    postings := doc.words.foldl (post index.documents.length) index.postings
    words := index.words ++ doc.words
    starts := index.starts ++ [(index.words ++ doc.words).length]
    documents := index.documents ++ [⟨doc.kind, doc.id⟩] }

/-- The documents folded, in tie-break order. -/
def foldedDocuments (words : String → List Word) (vocabulary : List Word)
    (documents : List Document) : List Folded :=
  (documents.map fun doc =>
    (⟨doc.kind, (words doc.name).map fun w => vocabulary.idxOf w, doc.id⟩ : Folded)).insertionSort
      fun a b => a.key ≤ b.key

/-- An index of `documents`, ready to search. -/
def build (words : String → List Word) (documents : List Document) : Index :=
  let vocabulary := vocabularyOf (documents.flatMap fun doc => words doc.name)
  (foldedDocuments words vocabulary documents).foldl Index.add
    { vocabulary := vocabulary
      postings := List.replicate vocabulary.length []
      documents := []
      words := []
      starts := [0] }

/-! ### Distance -/

/-- The distance of the first `i` characters of the query, from those of shorter ones in this
column and of all in the two before it. -/
def cell (query word : Word) (j : Nat) (before previous current : List Nat) (i : Nat) : Nat :=
  let cost := if query[i - 1]? ≠ word[j - 1]? then 1 else 0
  let d := min (min (previous.getD i 0 + 1) (current.getD (i - 1) 0 + 1))
    (previous.getD (i - 1) 0 + cost)
  if i > 1 ∧ j > 1 ∧ query[i - 1]? = word[j - 2]? ∧ query[i - 2]? = word[j - 1]? then
    min d (before.getD (i - 2) 0 + 1)
  else d

/-- Column `j`: the distance from each prefix of `query` to `word[..j]`. -/
def column (query word : Word) (j : Nat) (before previous : List Nat) : List Nat :=
  (List.range' 1 query.length).foldl
    (fun current i => current ++ [cell query word j before previous current i]) [j]

/-- Column by column, the least distance to a prefix of `word` and the distance to all of it, until
two columns in a row are past `max`. -/
def columns (query word : Word) (max : Nat) :
    List Nat → List Nat → List Nat → Nat → Nat → Nat × Nat
  | [], _, _, toPrefix, toWhole => (toPrefix, toWhole)
  | j :: js, before, previous, toPrefix, toWhole =>
    let current := column query word j before previous
    let last := current.getD query.length 0
    let toPrefix := min toPrefix last
    let toWhole := if j = word.length then last else toWhole
    if (current.all fun d => decide (d > max)) && previous.all fun d => decide (d > max) then
      (toPrefix, toWhole)
    else columns query word max js previous current toPrefix toWhole

/-- The typos between `query` and `word`, counting a transposed pair as one, and whether that is to
a prefix of `word` rather than all of it. `none` if more than `max`. -/
def distance (query word : Word) (max : Nat) : Option (Nat × Bool) :=
  let (toPrefix, toWhole) := columns query word max (List.range' 1 word.length)
    (List.replicate (query.length + 1) 0) (List.range (query.length + 1)) query.length
    (if word.isEmpty then query.length else 18446744073709551615)
  if toWhole ≤ max ∧ toWhole ≤ toPrefix then some (toWhole, false)
  else if toPrefix ≤ max then some (toPrefix, true)
  else none

/-! ### Matching words -/

/-- Words longer than this are matched exactly or as a prefix only. -/
def maxFuzzyChars : Nat := 32

/-- Query words beyond this are ignored. -/
def maxQueryWords : Nat := 12

def articles : List Word := ["the".toList, "a".toList, "an".toList]

/-- The quality of a match: lower is better, 0 is no match. -/
def quality (typos : Nat) (toPrefix : Bool) : Nat := 1 + typos * 2 + toPrefix.toNat

/-- How many of `words` lead as an optional article. -/
def leadingArticle {α : Type} (words : List α) (isArticle : α → Bool) : Nat :=
  match words with
  | first :: _ :: _ => if isArticle first then 1 else 0
  | _ => 0

/-- The index of the first of `xs` without `p`, where those with `p` come first. -/
def partitionPoint {α : Type} (p : α → Bool) (xs : List α) : Nat := (xs.takeWhile p).length

/-- The vocabulary indexes of the words that start with `start`. -/
def Index.prefixed (index : Index) (start : Word) : List Nat :=
  let first := partitionPoint (fun w => decide (w < start)) index.vocabulary
  List.range' first (partitionPoint (fun w => start.isPrefixOf w) (index.vocabulary.drop first))

/-- The typos allowed in a word of `length` characters. -/
def maxTypos (length : Nat) : Nat := if length ≤ 3 then 0 else if length ≤ 7 then 1 else 2

/-- The vocabulary words that `word` matches, and how well. -/
def Index.matchingWords (index : Index) (word : Word) : List (Nat × Nat) :=
  let max := maxTypos word.length
  if max = 0 ∨ word.length > maxFuzzyChars then
    (index.prefixed word).map fun w =>
      (w, quality 0 (decide ((index.vocabulary.getD w []).length ≠ word.length)))
  else
    (index.prefixed (word.take 1)).filterMap fun w =>
      let candidate := (index.vocabulary.getD w []).take (maxFuzzyChars + max)
      (distance word candidate max).map fun r => (w, quality r.1 r.2)

/-- Notes that a word of quality `q` is in document `d`: each document's best quality, and the
documents that have one. -/
def mark (q : Nat) (found : List Nat × List Nat) (d : Nat) : List Nat × List Nat :=
  let slot := found.1.getD d 0
  (if slot = 0 ∨ q < slot then found.1.set d q else found.1,
    if slot = 0 then found.2 ++ [d] else found.2)

/-- How well every document matched a query word, and which ones did. -/
def Index.matchWord (index : Index) (word : Word) : List Nat × List Nat :=
  (index.matchingWords word).foldl
    (fun found r => (index.postings.getD r.1 []).foldl (mark r.2) found)
    (List.replicate index.documents.length 0, [])

/-! ### Scores -/

/-- How well a document matched the whole query: lower is better. -/
structure Score where
  inexact : Bool
  typos : Nat
  skipped : Bool
  prefixes : Nat
  extraWords : Nat
deriving DecidableEq, Repr

def Score.key (s : Score) : Bool ×ₗ ℕ ×ₗ Bool ×ₗ ℕ ×ₗ ℕ :=
  toLex (s.inexact, toLex (s.typos, toLex (s.skipped, toLex (s.prefixes, s.extraWords))))

/-- The typos, the prefixes and whether the article was skipped, from each query word's quality, or
`none` if a word but the first `optional` has none. -/
def tally (optional : Nat) : Nat → List Nat → Nat × Nat × Bool → Option (Nat × Nat × Bool)
  | _, [], sums => some sums
  | i, q :: qs, (typos, prefixes, skipped) =>
    if q = 0 then
      if i < optional then tally optional (i + 1) qs (typos, prefixes, true) else none
    else tally optional (i + 1) qs (typos + (q - 1) / 2, prefixes + (q - 1) % 2, skipped)

/-- Document `d`'s words. -/
def Index.wordsOf (index : Index) (d : Nat) : List Nat :=
  (index.words.take (index.starts.getD (d + 1) 0)).drop (index.starts.getD d 0)

/-- The document's score, if it matched every query word but the first `optional`. -/
def Index.score (index : Index) (d : Nat) (best : List (List Nat)) (optional : Nat)
    (exact : Option (List Nat)) : Option Score :=
  (tally optional 0 (best.map fun qualities => qualities.getD d 0) (0, 0, false)).map fun sums =>
    let matched := best.length - sums.2.2.toNat
    let docWords := index.wordsOf d
    let article := leadingArticle docWords fun w => decide (index.vocabulary.getD w [] ∈ articles)
    { inexact := decide (exact ≠ some (docWords.drop article))
      typos := sums.1
      skipped := sums.2.2
      prefixes := sums.2.1
      extraWords := docWords.length - matched }

/-! ### Search -/

/-- The first of the shortest. -/
def fewest : List (List Nat) → Option (List Nat)
  | [] => none
  | docs :: rest =>
    match fewest rest with
    | none => some docs
    | some least => if docs.length ≤ least.length then some docs else some least

/-- The hits in order, by score and then by document. -/
def sortHits (hits : List (Score × Nat)) : List (Score × Nat) :=
  hits.insertionSort fun a b => toLex (a.1.key, a.2) ≤ toLex (b.1.key, b.2)

/-- One kind's section, with its best score, if it has a hit. The hits kept are the `limit` least,
as a selection before the sort leaves them. -/
def Index.section (index : Index) (limit : Nat) (hits : List (Score × Nat)) (kind : Kind) :
    Option (Score × Section) :=
  match (sortHits hits).take limit with
  | [] => none
  | best :: rest =>
    some (best.1,
      ⟨kind, (best :: rest).filterMap fun hit => index.documents[hit.2]?.map (·.id), hits.length⟩)

/-- The sections in the order of their best match, ties to the more specific kind. -/
def sortSections (sections : List (Score × Section)) : List Section :=
  (sections.insertionSort fun a b =>
    toLex (a.1.key, a.2.kind.rank) ≤ toLex (b.1.key, b.2.kind.rank)).map Prod.snd

/-- A candidate's score and kind, if it is of a kind wanted, kept, and matched. -/
def Index.hit (index : Index) (kinds : List Kind) (keep : Kind → Int → Bool)
    (best : List (List Nat)) (optional : Nat) (exact : Option (List Nat)) (d : Nat) :
    Option (Kind × Score × Nat) :=
  (index.documents[d]?).bind fun document =>
    if document.kind ∈ kinds ∧ keep document.kind document.id then
      (index.score d best optional exact).map fun score => (document.kind, score, d)
    else none

/-- The best `limit` matches for `query` of each kind in `kinds` that has any, over only the
documents `keep` keeps. -/
def Index.searchWithin (index : Index) (words : String → List Word) (query : String)
    (kinds : List Kind) (limit : Nat) (keep : Kind → Int → Bool) : List Section :=
  let queryWords := (words query).take maxQueryWords
  if queryWords = [] ∨ limit = 0 then []
  else
    let optional := leadingArticle queryWords fun word => decide (word ∈ articles)
    let found := queryWords.map index.matchWord
    let best := found.map Prod.fst
    let matched := found.map Prod.snd
    let exact := (queryWords.drop optional).mapM fun word => index.vocabulary.idxOf? word
    match fewest (matched.drop optional) with
    | none => []
    | some docs =>
      let scored := docs.filterMap (index.hit kinds keep best optional exact)
      sortSections (Kind.all.filterMap fun kind =>
        index.section limit ((scored.filter fun hit => decide (hit.1 = kind)).map Prod.snd) kind)

/-- As `searchWithin`, over every document. -/
def Index.search (index : Index) (words : String → List Word) (query : String)
    (kinds : List Kind) (limit : Nat) : List Section :=
  index.searchWithin words query kinds limit fun _ _ => true

end JewelCase.Search
