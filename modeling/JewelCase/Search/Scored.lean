import JewelCase.Search.Matching

/-!
# What an index holds

The postings of a word are the documents holding it, and each document keeps its words, in
tie-break order. Vocabulary indexes are in the order of the words.
-/
namespace JewelCase.Search

set_option autoImplicit false

variable {vocabulary : List Word} {docs : List Folded} {index : Index}

/-! ### Documents added -/

/-- An index of some folded documents. -/
structure Built (vocabulary : List Word) (docs : List Folded) (index : Index) : Prop where
  vocab : index.vocabulary = vocabulary
  documents : index.documents = docs.map fun doc => ⟨doc.kind, doc.id⟩
  words : index.words = docs.flatMap (·.words)
  count : index.starts.length = docs.length + 1
  starts : ∀ d ≤ docs.length, index.starts.getD d 0 = ((docs.take d).flatMap (·.words)).length
  lists : index.postings.length = vocabulary.length
  postings : ∀ w d, d ∈ index.postings.getD w [] ↔ ∃ doc, docs[d]? = some doc ∧ w ∈ doc.words

theorem post_length (d w : Nat) (postings : List (List Nat)) :
    (post d postings w).length = postings.length := List.length_modify ..

theorem mem_post {d d' w w' : Nat} {postings : List (List Nat)} (hw : w < postings.length) :
    d' ∈ (post d postings w).getD w' [] ↔ d' ∈ postings.getD w' [] ∨ d' = d ∧ w' = w := by
  rw [post, List.getD_eq_getElem?_getD, List.getElem?_modify, List.getD_eq_getElem?_getD]
  by_cases he : w = w'
  · subst he
    rw [List.getElem?_eq_getElem hw]
    simp only [if_true, Option.map_eq_map, Option.map_some, Option.getD_some, and_true]
    split
    · next hlast =>
      refine (or_iff_left_of_imp ?_).symm
      rintro rfl
      exact List.mem_of_getLast? hlast
    · rw [List.mem_append, List.mem_singleton]
  · simp [he, Ne.symm he]

theorem mem_posts {d d' w' : Nat} {words : List Nat} {postings : List (List Nat)}
    (hw : ∀ w ∈ words, w < postings.length) :
    d' ∈ (words.foldl (post d) postings).getD w' [] ↔
      d' ∈ postings.getD w' [] ∨ d' = d ∧ w' ∈ words := by
  induction words generalizing postings with
  | nil => simp
  | cons w words ih =>
    rw [List.foldl_cons, ih, mem_post (hw w List.mem_cons_self), List.mem_cons, or_assoc,
      and_or_left]
    intro w' hw'
    rw [post_length]
    exact hw w' (List.mem_cons_of_mem _ hw')

theorem posts_length (d : Nat) (words : List Nat) (postings : List (List Nat)) :
    (words.foldl (post d) postings).length = postings.length := by
  induction words generalizing postings with
  | nil => rfl
  | cons w words ih => rw [List.foldl_cons, ih, post_length]

theorem Built.add (h : Built vocabulary docs index) {doc : Folded}
    (hdoc : ∀ w ∈ doc.words, w < vocabulary.length) :
    Built vocabulary (docs ++ [doc]) (index.add doc) := by
  have hn : index.documents.length = docs.length := by rw [h.documents, List.length_map]
  refine ⟨h.vocab, ?_, ?_, ?_, ?_, ?_, ?_⟩
  · rw [Index.add, h.documents, List.map_append]
    rfl
  · rw [Index.add, h.words, List.flatMap_append, List.flatMap_singleton]
  · simp [Index.add, h.count]
  · intro d hd
    simp only [Index.add]
    rw [List.length_append, List.length_singleton] at hd
    rw [List.getD_eq_getElem?_getD]
    by_cases hlt : d ≤ docs.length
    · rw [List.getElem?_append_left (by rw [h.count]; omega), ← List.getD_eq_getElem?_getD,
        h.starts d hlt, List.take_append_of_le_length hlt]
    · obtain rfl : d = docs.length + 1 := by omega
      rw [← h.count, List.getElem?_concat_length, Option.getD_some, h.words, h.count,
        List.take_of_length_le (by simp), List.flatMap_append, List.flatMap_singleton]
  · rw [Index.add, posts_length, h.lists]
  · intro w d
    rw [Index.add, mem_posts (fun w hw => by rw [h.lists]; exact hdoc w hw), h.postings, hn]
    constructor
    · rintro (⟨doc', hd, hw⟩ | ⟨rfl, hw⟩)
      · refine ⟨doc', ?_, hw⟩
        rw [List.getElem?_append_left (List.getElem?_eq_some_iff.mp hd).1, hd]
      · exact ⟨doc, List.getElem?_concat_length, hw⟩
    · rintro ⟨doc', hd, hw⟩
      by_cases hlt : d < docs.length
      · rw [List.getElem?_append_left hlt] at hd
        exact .inl ⟨doc', hd, hw⟩
      · have hlen := (List.getElem?_eq_some_iff.mp hd).1
        rw [List.length_append, List.length_singleton] at hlen
        obtain rfl : d = docs.length := by omega
        rw [List.getElem?_concat_length] at hd
        obtain rfl := Option.some.inj hd
        exact .inr ⟨rfl, hw⟩

theorem Built.foldl (h : Built vocabulary docs index) {more : List Folded}
    (hmore : ∀ doc ∈ more, ∀ w ∈ doc.words, w < vocabulary.length) :
    Built vocabulary (docs ++ more) (more.foldl Index.add index) := by
  induction more generalizing docs index with
  | nil => simpa using h
  | cons doc more ih =>
    have := ih (h.add (hmore doc List.mem_cons_self)) fun d hd =>
      hmore d (List.mem_cons_of_mem _ hd)
    simpa using this

/-- A document's words are the words it was added with. -/
theorem Built.wordsOf (h : Built vocabulary docs index) {d : Nat} {doc : Folded}
    (hd : docs[d]? = some doc) : index.wordsOf d = doc.words := by
  obtain ⟨hlt, hget⟩ := List.getElem?_eq_some_iff.mp hd
  rw [Index.wordsOf, h.starts d hlt.le, h.starts (d + 1) hlt, h.words]
  have htake : (docs.take (d + 1)).flatMap (·.words) =
      (docs.take d).flatMap (·.words) ++ doc.words := by
    rw [List.take_add_one, hd, List.flatMap_append, Option.toList_some, List.flatMap_singleton]
  have hsplit : docs.flatMap (·.words) =
      (docs.take (d + 1)).flatMap (·.words) ++ (docs.drop (d + 1)).flatMap (·.words) := by
    rw [← List.flatMap_append, List.take_append_drop]
  rw [hsplit, List.take_left, htake, List.drop_left]

/-! ### The vocabulary -/

theorem mem_vocabularyOf {words : List Word} {w : Word} : w ∈ vocabularyOf words ↔ w ∈ words := by
  rw [vocabularyOf, (List.perm_insertionSort _ _).mem_iff, List.mem_dedup]

theorem vocabularyOf_sorted (words : List Word) : (vocabularyOf words).Pairwise (· < ·) := by
  have hle := List.pairwise_insertionSort (fun a b : Word => a ≤ b) words.dedup
  have hne : (vocabularyOf words).Nodup :=
    (List.perm_insertionSort _ _).nodup_iff.mpr (List.nodup_dedup words)
  exact (hle.and hne).imp fun h => lt_of_le_of_ne h.1 h.2

/-- The words of some vocabulary indexes. -/
def spell (vocabulary : List Word) (ws : List Nat) : List Word :=
  ws.map fun w => vocabulary.getD w []

/-- A name's words, by their places in the vocabulary. -/
def places (vocabulary : List Word) (words : List Word) : List Nat :=
  words.map fun w => vocabulary.idxOf w

theorem spell_places {words : List Word} (h : ∀ w ∈ words, w ∈ vocabulary) :
    spell vocabulary (places vocabulary words) = words := by
  rw [spell, places, List.map_map]
  conv_rhs => rw [← List.map_id words]
  apply List.map_congr_left
  intro w hw
  have hlt := List.idxOf_lt_length_of_mem (h w hw)
  rw [Function.comp, List.getD_eq_getElem?_getD, List.getElem?_eq_getElem hlt, Option.getD_some,
    List.getElem_idxOf hlt, id]

theorem places_lt {words : List Word} (h : ∀ w ∈ words, w ∈ vocabulary) :
    ∀ w ∈ places vocabulary words, w < vocabulary.length := by
  intro w hw
  obtain ⟨word, hword, rfl⟩ := List.mem_map.mp hw
  exact List.idxOf_lt_length_of_mem (h word hword)

/-- Places in a sorted vocabulary compare as the words do. -/
theorem spell_lt (hv : vocabulary.Pairwise (· < ·)) {ws ws' : List Nat}
    (hw : ∀ w ∈ ws, w < vocabulary.length) (hw' : ∀ w ∈ ws', w < vocabulary.length)
    (h : ws < ws') : spell vocabulary ws < spell vocabulary ws' := by
  induction ws generalizing ws' with
  | nil =>
    cases ws' with
    | nil => exact absurd h (lt_irrefl _)
    | cons w' ws' => exact List.nil_lt_cons _ _
  | cons w ws ih =>
    cases ws' with
    | nil => exact absurd h (List.not_lt_nil _)
    | cons w' ws' =>
      rw [List.cons_lt_cons_iff] at h
      simp only [spell, List.map_cons, List.cons_lt_cons_iff]
      obtain hlt | ⟨rfl, hlt⟩ := h
      · have hb := hw' w' List.mem_cons_self
        have ha := hw w List.mem_cons_self
        left
        rw [List.getD_eq_getElem?_getD, List.getD_eq_getElem?_getD, List.getElem?_eq_getElem ha,
          List.getElem?_eq_getElem hb]
        exact List.pairwise_iff_getElem.mp hv w w' ha hb hlt
      · right
        exact ⟨rfl, ih (fun w hw' => hw w (List.mem_cons_of_mem _ hw'))
          (fun w hw => hw' w (List.mem_cons_of_mem _ hw)) hlt⟩

/-! ### A whole index -/

/-- A document folded. -/
def foldOf (words : String → List Word) (vocabulary : List Word) (doc : Document) : Folded :=
  ⟨doc.kind, places vocabulary (words doc.name), doc.id⟩

theorem foldedDocuments_perm (words : String → List Word) (vocabulary : List Word)
    (documents : List Document) :
    (foldedDocuments words vocabulary documents).Perm (documents.map (foldOf words vocabulary)) :=
  List.perm_insertionSort _ _

theorem foldedDocuments_sorted (words : String → List Word) (vocabulary : List Word)
    (documents : List Document) :
    (foldedDocuments words vocabulary documents).Pairwise fun a b => a.key ≤ b.key := by
  have htotal : Std.Total fun a b : Folded => a.key ≤ b.key := ⟨fun a b => le_total _ _⟩
  have htrans : IsTrans Folded fun a b => a.key ≤ b.key := ⟨fun _ _ _ => le_trans⟩
  exact List.pairwise_insertionSort _ _

/-- **What `build` makes.** -/
theorem build_built (words : String → List Word) (documents : List Document) :
    let vocabulary := vocabularyOf (documents.flatMap fun doc => words doc.name)
    Built vocabulary (foldedDocuments words vocabulary documents) (build words documents) := by
  intro vocabulary
  have hempty : Built vocabulary [] ⟨vocabulary, List.replicate vocabulary.length [], [], [], [0]⟩ := by
    refine ⟨rfl, rfl, rfl, rfl, by simp, List.length_replicate, ?_⟩
    intro w d
    rw [List.getD_eq_getElem?_getD, List.getElem?_replicate]
    split <;> simp
  have hmore : ∀ doc ∈ foldedDocuments words vocabulary documents, ∀ w ∈ doc.words,
      w < vocabulary.length := by
    intro doc hdoc
    rw [(foldedDocuments_perm words vocabulary documents).mem_iff] at hdoc
    obtain ⟨document, hdocument, rfl⟩ := List.mem_map.mp hdoc
    refine places_lt ?_
    intro w hw
    exact mem_vocabularyOf.2 (List.mem_flatMap.mpr ⟨document, hdocument, hw⟩)
  exact hempty.foldl hmore

end JewelCase.Search

/-!
## A document's score

What the index marks for a document is the best its words give, so it scores a document as its words
are scored one by one.
-/
namespace JewelCase.Search

set_option autoImplicit false

variable {vocabulary : List Word} {docs : List Folded} {index : Index} {doc : Folded}
  {word : Word} {d : Nat}

/-! ### Qualities -/

theorem wordQuality_ne {word x : Word} {q : Nat} (h : wordQuality word x = some q) : q ≠ 0 := by
  have hquality : ∀ typos toPrefix, quality typos toPrefix ≠ 0 := by
    intro typos toPrefix
    rw [quality]
    omega
  rw [wordQuality] at h
  split at h
  · split at h
    · obtain rfl := Option.some.inj h
      exact hquality _ _
    · cases h
  · split at h
    · obtain ⟨r, -, rfl⟩ := Option.map_eq_some_iff.mp h
      exact hquality _ _
    · cases h

theorem bestOf_least (docWords : List Word) (word : Word) :
    Least (fun q => ∃ x ∈ docWords, wordQuality word x = some q) (bestOf docWords word) := by
  have hmem : ∀ q, q ∈ docWords.filterMap (wordQuality word) ↔
      ∃ x ∈ docWords, wordQuality word x = some q := fun q => List.mem_filterMap
  rw [bestOf]
  cases hm : (docWords.filterMap (wordQuality word)).min? with
  | none =>
    rw [List.min?_eq_none_iff] at hm
    refine .inl ⟨rfl, ?_⟩
    intro q hq
    rw [← hmem, hm] at hq
    cases hq
  | some b =>
    rw [List.min?_eq_some_iff] at hm
    obtain ⟨hb, hle⟩ := hm
    have hb := (hmem b).mp hb
    obtain ⟨x, -, hx⟩ := id hb
    exact .inr ⟨wordQuality_ne hx, hb, fun q hq => hle q ((hmem q).mpr hq)⟩

/-- The qualities a query word marks, with the documents they are marked for. -/
def Index.pairs (index : Index) (word : Word) : List (Nat × Nat) :=
  (index.matchingWords word).flatMap fun r =>
    (index.postings.getD r.1 []).map fun d => (r.2, d)

theorem mem_pairs (h : Built vocabulary docs index) (hv : vocabulary.Pairwise (· < ·))
    (hw : ∀ doc ∈ docs, ∀ w ∈ doc.words, w < vocabulary.length) {q : Nat} :
    (q, d) ∈ index.pairs word ↔ ∃ doc, docs[d]? = some doc ∧
      ∃ x ∈ spell vocabulary doc.words, wordQuality word x = some q := by
  rw [← h.vocab] at hv hw ⊢
  simp only [Index.pairs, List.mem_flatMap, List.mem_map, Prod.mk.injEq]
  constructor
  · rintro ⟨⟨w, q⟩, hr, d, hd, rfl, rfl⟩
    obtain ⟨x, hx, hq⟩ := (mem_matchingWords hv).mp hr
    obtain ⟨doc, hdoc, hmem⟩ := (h.postings w d).mp hd
    refine ⟨doc, hdoc, x, List.mem_map.mpr ⟨w, hmem, ?_⟩, hq⟩
    rw [List.getD_eq_getElem?_getD, hx, Option.getD_some]
  · rintro ⟨doc, hdoc, x, hx, hq⟩
    obtain ⟨w, hmem, rfl⟩ := List.mem_map.mp hx
    have hlt := hw doc (List.mem_of_getElem? hdoc) w hmem
    refine ⟨(w, q), (mem_matchingWords hv).mpr ⟨_, ?_, hq⟩, d, (h.postings w d).mpr ⟨doc, hdoc, hmem⟩,
      rfl, rfl⟩
    rw [List.getD_eq_getElem?_getD, List.getElem?_eq_getElem hlt, Option.getD_some]

theorem matchWord_marked (h : Built vocabulary docs index) (hv : vocabulary.Pairwise (· < ·))
    (hw : ∀ doc ∈ docs, ∀ w ∈ doc.words, w < vocabulary.length) (word : Word) :
    Marked docs.length (index.pairs word) (index.matchWord word) := by
  have hfold : index.matchWord word = (index.pairs word).foldl
      (fun found p => mark p.1 found p.2) (List.replicate docs.length 0, []) := by
    rw [Index.matchWord, Index.pairs, List.foldl_flatMap, h.documents, List.length_map]
    simp only [List.foldl_map]
  rw [hfold, ← List.nil_append (index.pairs word)]
  refine (Marked.nil docs.length).foldl ?_
  intro p hp
  obtain ⟨doc, hdoc, x, -, hq⟩ := (mem_pairs h hv hw).mp hp
  exact ⟨wordQuality_ne hq, (List.getElem?_eq_some_iff.mp hdoc).1⟩

/-- **What is marked for a document is the best its words give.** -/
theorem matchWord_best (h : Built vocabulary docs index) (hv : vocabulary.Pairwise (· < ·))
    (hw : ∀ doc ∈ docs, ∀ w ∈ doc.words, w < vocabulary.length) (hd : docs[d]? = some doc) :
    (index.matchWord word).1.getD d 0 = bestOf (spell vocabulary doc.words) word := by
  refine ((matchWord_marked h hv hw word).least d).unique (bestOf_least _ _) ?_
  intro q
  rw [mem_pairs h hv hw]
  constructor
  · rintro ⟨doc', hd', hx⟩
    obtain rfl := Option.some.inj (hd'.symm.trans hd)
    exact hx
  · intro hx
    exact ⟨doc, hd, hx⟩

/-- The documents marked are those a word of which matches. -/
theorem mem_matchWord (h : Built vocabulary docs index) (hv : vocabulary.Pairwise (· < ·))
    (hw : ∀ doc ∈ docs, ∀ w ∈ doc.words, w < vocabulary.length) (hd : docs[d]? = some doc) :
    d ∈ (index.matchWord word).2 ↔ bestOf (spell vocabulary doc.words) word ≠ 0 := by
  rw [(matchWord_marked h hv hw word).docs]
  constructor
  · rintro ⟨q, hq⟩
    obtain ⟨doc', hd', hx⟩ := (mem_pairs h hv hw).mp hq
    obtain rfl := Option.some.inj (hd'.symm.trans hd)
    obtain ⟨-, hno⟩ | ⟨hne, -⟩ := bestOf_least (spell vocabulary doc'.words) word
    · exact absurd hx (hno q)
    · exact hne
  · intro hne
    obtain ⟨h0, -⟩ | ⟨-, hx, -⟩ := bestOf_least (spell vocabulary doc.words) word
    · exact absurd h0 hne
    · exact ⟨_, (mem_pairs h hv hw).mpr ⟨doc, hd, hx⟩⟩

/-! ### Scores -/

theorem tally_eq (optional i : Nat) (qs : List Nat) (typos prefixes : Nat) (skipped : Bool) :
    tally optional i qs (typos, prefixes, skipped) =
      if ∀ q ∈ qs.drop (optional - i), q ≠ 0 then
        some (typos + (qs.map fun q => (q - 1) / 2).sum,
          prefixes + (qs.map fun q => (q - 1) % 2).sum,
          skipped || (qs.take (optional - i)).any fun q => decide (q = 0))
      else none := by
  induction qs generalizing i typos prefixes skipped with
  | nil => simp [tally]
  | cons q qs ih =>
    rw [tally]
    by_cases hi : i < optional
    · obtain ⟨n, hn⟩ : ∃ n, optional - i = n + 1 := ⟨optional - i - 1, by omega⟩
      have hn' : optional - (i + 1) = n := by omega
      rw [hn, List.drop_succ_cons, List.take_succ_cons, List.any_cons]
      by_cases hq : q = 0
      · subst hq
        rw [if_pos rfl, if_pos hi, ih, hn']
        simp
      · rw [if_neg hq, ih, hn']
        simp [hq, Nat.add_assoc]
    · have hn : optional - i = 0 := by omega
      have hn' : optional - (i + 1) = 0 := by omega
      rw [hn, List.drop_zero, List.take_zero]
      by_cases hq : q = 0
      · subst hq
        rw [if_pos rfl, if_neg hi, if_neg]
        intro hall
        exact hall 0 List.mem_cons_self rfl
      · rw [if_neg hq, ih, hn', List.drop_zero, List.take_zero]
        simp [hq, Nat.add_assoc]

theorem optionalOf_eq (words : List Word) :
    optionalOf words = leadingArticle words fun word => decide (word ∈ articles) := by
  simp only [optionalOf, List.contains_eq_mem]

theorem leadingArticle_spell (ws : List Nat) :
    leadingArticle ws (fun w => decide (vocabulary.getD w [] ∈ articles)) =
      optionalOf (spell vocabulary ws) := by
  rw [optionalOf_eq]
  cases ws with
  | nil => rfl
  | cons a ws => cases ws <;> rfl

/-- A query's words are all in the vocabulary at some places exactly when those spell them. -/
theorem exact_iff (hv : vocabulary.Nodup) {ws : List Word} {ps : List Nat}
    (hp : ∀ p ∈ ps, p < vocabulary.length) :
    (ws.mapM fun word => vocabulary.idxOf? word) = some ps ↔ spell vocabulary ps = ws := by
  induction ws generalizing ps with
  | nil =>
    rw [List.mapM_nil, spell, List.map_eq_nil_iff]
    constructor
    · intro he
      exact (Option.some.inj he).symm
    · intro he
      rw [he]
      rfl
  | cons w ws ih =>
    cases ps with
    | nil =>
      refine iff_of_false ?_ (by simp [spell])
      rw [List.mapM_cons]
      cases vocabulary.idxOf? w with
      | none => simp
      | some p => cases ws.mapM fun word => vocabulary.idxOf? word <;> simp
    | cons p ps =>
      have hlt := hp p List.mem_cons_self
      have ih := @ih ps fun p hp' => hp p (List.mem_cons_of_mem _ hp')
      have hidx : vocabulary.idxOf? w = some p ↔ vocabulary.getD p [] = w := by
        rw [List.idxOf?_eq_some_iff, List.getD_eq_getElem?_getD, List.getElem?_eq_getElem hlt,
          Option.getD_some]
        constructor
        · rintro ⟨_, he, -⟩
          exact he
        · intro he
          refine ⟨hlt, he, ?_⟩
          intro j hj hjw
          have hjl : j < vocabulary.length := hj.trans hlt
          have := (List.nodup_iff_getElem?_ne_getElem?.mp hv) j p hj hlt
          rw [List.getElem?_eq_getElem hjl, List.getElem?_eq_getElem hlt, he] at this
          exact this (congrArg some hjw)
      simp only [List.mapM_cons, spell, List.map_cons, List.cons.injEq]
      rw [← hidx, ← spell, ← ih]
      cases vocabulary.idxOf? w with
      | none => simp
      | some p' =>
        cases ws.mapM fun word => vocabulary.idxOf? word with
        | none => simp
        | some ps' => simp

/-- **The index scores a document as its words are scored one by one.** -/
theorem score_eq (h : Built vocabulary docs index) (hv : vocabulary.Pairwise (· < ·))
    (hw : ∀ doc ∈ docs, ∀ w ∈ doc.words, w < vocabulary.length) (hd : docs[d]? = some doc)
    (queryWords : List Word) :
    index.score d (queryWords.map fun word => (index.matchWord word).1) (optionalOf queryWords)
        ((queryWords.drop (optionalOf queryWords)).mapM fun word => index.vocabulary.idxOf? word) =
      scoreOf queryWords (spell vocabulary doc.words) := by
  have hqs : (queryWords.map fun word => (index.matchWord word).1).map (fun qs => qs.getD d 0) =
      queryWords.map (bestOf (spell vocabulary doc.words)) := by
    rw [List.map_map]
    apply List.map_congr_left
    intro word _
    exact matchWord_best h hv hw hd
  have hnodup : vocabulary.Nodup := hv.imp fun h => ne_of_lt h
  have hplaces : ∀ p ∈ doc.words.drop (optionalOf (spell vocabulary doc.words)),
      p < vocabulary.length := by
    intro p hp
    exact hw doc (List.mem_of_getElem? hd) p (List.mem_of_mem_drop hp)
  rw [Index.score, hqs, tally_eq, h.wordsOf hd, h.vocab, scoreOf]
  simp only [Nat.sub_zero, Nat.zero_add, Bool.false_or, leadingArticle_spell]
  split
  · simp only [Option.map_some, List.length_map]
    congr 2
    · rw [decide_eq_decide, ne_eq, ne_eq, not_iff_not, exact_iff hnodup hplaces, spell,
        List.map_drop]
      rfl
    · rw [spell, List.length_map]
  · rfl

end JewelCase.Search
