import Mathlib.Data.List.Induction
import JewelCase.Search.Scored

/-!
# Search finds what scoring every document would

The candidates of the most selective needed word include every document that matches, each once;
sorted by score and then by place, they are sorted by score, folded name and ID.
-/
namespace JewelCase.Search

set_option autoImplicit false

variable {vocabulary : List Word} {docs : List Folded} {index : Index} {words : String → List Word}
  {kinds : List Kind} {keep : Kind → Int → Bool} {queryWords : List Word} {limit : Nat}

/-! ### Candidates -/

theorem fewest_some {lists : List (List Nat)} (h : lists ≠ []) :
    ∃ docs ∈ lists, fewest lists = some docs := by
  induction lists with
  | nil => exact absurd rfl h
  | cons docs rest ih =>
    rw [fewest]
    by_cases hr : rest = []
    · subst hr
      exact ⟨docs, List.mem_cons_self, rfl⟩
    · obtain ⟨least, hmem, he⟩ := ih hr
      rw [he]
      simp only
      split
      · exact ⟨docs, List.mem_cons_self, rfl⟩
      · exact ⟨least, List.mem_cons_of_mem _ hmem, rfl⟩

/-- An article is optional only where a word follows it. -/
theorem optional_lt (h : queryWords ≠ []) : optionalOf queryWords < queryWords.length := by
  rw [optionalOf]
  cases queryWords with
  | nil => exact absurd rfl h
  | cons first rest =>
    cases rest with
    | nil => exact Nat.one_pos
    | cons second rest =>
      simp only [leadingArticle, List.length_cons]
      split <;> omega

/-- What a folded document matches as. -/
def foldedMatch (vocabulary : List Word) (queryWords : List Word) (kinds : List Kind)
    (keep : Kind → Int → Bool) (doc : Folded) : Option Match :=
  if doc.kind ∈ kinds ∧ keep doc.kind doc.id then
    (scoreOf queryWords (spell vocabulary doc.words)).map fun score =>
      ⟨doc.kind, score, spell vocabulary doc.words, doc.id⟩
  else none

/-- The match that a hit is. -/
def hitMatch (vocabulary : List Word) (docs : List Folded) (hit : Score × Nat) : Match :=
  let doc := docs.getD hit.2 ⟨.track, [], 0⟩
  ⟨doc.kind, hit.1, spell vocabulary doc.words, doc.id⟩

/-- A candidate's hit, for a query. -/
def Index.hitOf (index : Index) (kinds : List Kind) (keep : Kind → Int → Bool)
    (queryWords : List Word) (d : Nat) : Option (Kind × Score × Nat) :=
  index.hit kinds keep (queryWords.map fun word => (index.matchWord word).1)
    (optionalOf queryWords) ((queryWords.drop (optionalOf queryWords)).mapM fun word =>
      index.vocabulary.idxOf? word) d

/-- A hit of the index is a match of its document. -/
theorem hit_match (h : Built vocabulary docs index) (hv : vocabulary.Pairwise (· < ·))
    (hw : ∀ doc ∈ docs, ∀ w ∈ doc.words, w < vocabulary.length) (d : Nat) :
    (index.hitOf kinds keep queryWords d).map
        (fun hit => (hit.1, hitMatch vocabulary docs hit.2)) =
      (docs[d]?.bind (foldedMatch vocabulary queryWords kinds keep)).map fun m => (m.kind, m) := by
  rw [Index.hitOf, Index.hit, h.documents, List.getElem?_map]
  cases hd : docs[d]? with
  | none => rfl
  | some doc =>
    simp only [Option.map_some, Option.bind_some, foldedMatch]
    split
    · rw [score_eq h hv hw hd, Option.map_map, Option.map_map]
      congr 1
      funext score
      simp only [Function.comp, hitMatch, List.getD_eq_getElem?_getD, hd, Option.getD_some]
    · rfl

/-- Lists without repeats that hold the same of what a function is defined on. -/
theorem filterMap_perm {α β : Type} [DecidableEq α] {f : α → Option β} {l l' : List α}
    (hl : l.Nodup) (hl' : l'.Nodup) (h : ∀ x, (f x).isSome → (x ∈ l ↔ x ∈ l')) :
    (l.filterMap f).Perm (l'.filterMap f) := by
  have hsome : ∀ l : List α, l.filterMap f = (l.filter fun x => (f x).isSome).filterMap f := by
    intro l
    rw [List.filterMap_filter]
    apply List.filterMap_congr
    intro x _
    cases hx : f x <;> simp
  rw [hsome l, hsome l']
  apply List.Perm.filterMap
  rw [List.perm_ext_iff_of_nodup (hl.filter _) (hl'.filter _)]
  intro x
  rw [List.mem_filter, List.mem_filter]
  exact and_congr_left (h x)

theorem range_filterMap {α β : Type} (l : List α) (f : α → Option β) :
    (List.range l.length).filterMap (fun d => l[d]?.bind f) = l.filterMap f := by
  induction l using List.reverseRecOn with
  | nil => rfl
  | append_singleton l a ih =>
    have hfirst : (List.range l.length).filterMap (fun d => (l ++ [a])[d]?.bind f) =
        l.filterMap f := by
      rw [← ih]
      apply List.filterMap_congr
      intro d hd
      rw [List.getElem?_append_left (List.mem_range.mp hd)]
    have hlast : [l.length].filterMap (fun d => (l ++ [a])[d]?.bind f) = [a].filterMap f := by
      simp only [List.filterMap_cons, List.filterMap_nil, List.getElem?_concat_length,
        Option.bind_some]
    rw [List.length_append, List.length_singleton, List.range_succ, List.filterMap_append,
      List.filterMap_append, hfirst, hlast]

/-- **The candidates that hit are the documents that match.** -/
theorem candidates_match (h : Built vocabulary docs index) (hv : vocabulary.Pairwise (· < ·))
    (hw : ∀ doc ∈ docs, ∀ w ∈ doc.words, w < vocabulary.length) {word : Word}
    (hword : word ∈ queryWords.drop (optionalOf queryWords)) :
    ((index.matchWord word).2.filterMap fun d =>
      docs[d]?.bind (foldedMatch vocabulary queryWords kinds keep)).Perm
        (docs.filterMap (foldedMatch vocabulary queryWords kinds keep)) := by
  rw [← range_filterMap docs]
  refine filterMap_perm (matchWord_marked h hv hw word).nodup List.nodup_range ?_
  intro d hsome
  cases hd : docs[d]? with
  | none => rw [hd] at hsome; cases hsome
  | some doc =>
    rw [mem_matchWord h hv hw hd, List.mem_range]
    refine iff_of_true ?_ (List.getElem?_eq_some_iff.mp hd).1
    rw [hd, Option.bind_some, foldedMatch] at hsome
    split at hsome
    · rw [Option.isSome_map, scoreOf] at hsome
      split at hsome
      · next hall =>
        refine hall _ ?_
        rw [← List.map_drop]
        exact List.mem_map.mpr ⟨word, hword, rfl⟩
      · cases hsome
    · cases hsome

/-- A hit is of a document, and of its kind. -/
theorem hit_doc (h : Built vocabulary docs index) {d : Nat} {hit : Kind × Score × Nat}
    (hh : index.hitOf kinds keep queryWords d = some hit) :
    ∃ doc, docs[hit.2.2]? = some doc ∧ doc.kind = hit.1 := by
  rw [Index.hitOf, Index.hit, h.documents, List.getElem?_map] at hh
  cases hd : docs[d]? with
  | none =>
    rw [hd] at hh
    cases hh
  | some doc =>
    rw [hd, Option.map_some, Option.bind_some] at hh
    split at hh
    · obtain ⟨score, -, rfl⟩ := Option.map_eq_some_iff.mp hh
      exact ⟨doc, hd, rfl⟩
    · cases hh

/-- The hits of a kind among the candidates are the matches of that kind. -/
theorem kind_match (h : Built vocabulary docs index) (hv : vocabulary.Pairwise (· < ·))
    (hw : ∀ doc ∈ docs, ∀ w ∈ doc.words, w < vocabulary.length) {word : Word}
    (hword : word ∈ queryWords.drop (optionalOf queryWords)) (kind : Kind) :
    (((((index.matchWord word).2.filterMap (index.hitOf kinds keep queryWords)).filter fun hit =>
      decide (hit.1 = kind)).map Prod.snd).map (hitMatch vocabulary docs)).Perm
        ((docs.filterMap (foldedMatch vocabulary queryWords kinds keep)).filter fun m =>
          decide (m.kind = kind)) := by
  have hpairs : (((index.matchWord word).2.filterMap (index.hitOf kinds keep queryWords)).map
      fun hit => (hit.1, hitMatch vocabulary docs hit.2)).Perm
        ((docs.filterMap (foldedMatch vocabulary queryWords kinds keep)).map fun m =>
          (m.kind, m)) := by
    rw [List.map_filterMap]
    simp only [hit_match h hv hw]
    rw [← List.map_filterMap]
    exact (candidates_match h hv hw hword).map _
  have hfilter := (hpairs.filter fun r => decide (r.1 = kind)).map Prod.snd
  rw [List.filter_map, List.filter_map, List.map_map, List.map_map] at hfilter
  rw [List.map_map]
  refine hfilter.trans (List.Perm.of_eq ?_)
  exact List.map_id _

/-! ### Sections -/

theorem Score.key_inj {a b : Score} (h : a.key = b.key) : a = b := by
  cases a
  cases b
  simpa [Score.key] using h

theorem Match.key_inj {a b : Match} (hk : a.kind = b.kind) (h : a.key = b.key) : a = b := by
  simp only [Match.key, EmbeddingLike.apply_eq_iff_eq, Prod.mk.injEq] at h
  obtain ⟨hs, hw, hi⟩ := h
  have hs := Score.key_inj hs
  cases a
  cases b
  simp_all

/-- Hits in order are matches in order. -/
theorem hitMatch_le (hv : vocabulary.Pairwise (· < ·))
    (hw : ∀ doc ∈ docs, ∀ w ∈ doc.words, w < vocabulary.length)
    (hdocs : docs.Pairwise fun a b => a.key ≤ b.key) {a b : Score × Nat} {x y : Folded}
    (hx : docs[a.2]? = some x) (hy : docs[b.2]? = some y) (hk : x.kind = y.kind)
    (h : toLex (a.1.key, a.2) ≤ toLex (b.1.key, b.2)) :
    (hitMatch vocabulary docs a).key ≤ (hitMatch vocabulary docs b).key := by
  simp only [hitMatch, Match.key, List.getD_eq_getElem?_getD, hx, hy, Option.getD_some]
  rw [Prod.Lex.toLex_le_toLex] at h ⊢
  obtain hlt | ⟨he, hle⟩ := h
  · exact .inl hlt
  · refine .inr ⟨he, ?_⟩
    have hkey : x.key ≤ y.key := by
      obtain hlt | heq := Nat.lt_or_eq_of_le hle
      · obtain ⟨ha, hxa⟩ := List.getElem?_eq_some_iff.mp hx
        obtain ⟨hb, hyb⟩ := List.getElem?_eq_some_iff.mp hy
        have := List.pairwise_iff_getElem.mp hdocs a.2 b.2 ha hb hlt
        rwa [hxa, hyb] at this
      · simp only at heq
        rw [heq, hy] at hx
        rw [Option.some.inj hx]
    simp only [Folded.key, hk, Prod.Lex.toLex_le_toLex, lt_self_iff_false, false_or, true_and]
      at hkey
    rw [Prod.Lex.toLex_le_toLex]
    obtain hlt | ⟨hwords, hid⟩ := hkey
    · exact .inl (spell_lt hv (hw x (List.mem_of_getElem? hx)) (hw y (List.mem_of_getElem? hy)) hlt)
    · exact .inr ⟨by rw [hwords], hid⟩

/-- The hits of a kind, sorted, are its matches, sorted. -/
theorem sortHits_match (hv : vocabulary.Pairwise (· < ·))
    (hw : ∀ doc ∈ docs, ∀ w ∈ doc.words, w < vocabulary.length)
    (hdocs : docs.Pairwise fun a b => a.key ≤ b.key) {kind : Kind} {hits : List (Score × Nat)}
    (hhits : ∀ hit ∈ hits, ∃ doc, docs[hit.2]? = some doc ∧ doc.kind = kind)
    {found : List Match} (hp : (hits.map (hitMatch vocabulary docs)).Perm found) :
    (sortHits hits).map (hitMatch vocabulary docs) = sortMatches found := by
  have hperm : (sortHits hits).Perm hits := List.perm_insertionSort _ _
  have htotal : Std.Total fun a b : Score × Nat => toLex (a.1.key, a.2) ≤ toLex (b.1.key, b.2) :=
    ⟨fun a b => le_total _ _⟩
  have htrans : IsTrans (Score × Nat) fun a b => toLex (a.1.key, a.2) ≤ toLex (b.1.key, b.2) :=
    ⟨fun _ _ _ => le_trans⟩
  have htotal' : Std.Total fun a b : Match => a.key ≤ b.key := ⟨fun a b => le_total _ _⟩
  have htrans' : IsTrans Match fun a b => a.key ≤ b.key := ⟨fun _ _ _ => le_trans⟩
  have hsorted : (sortHits hits).Pairwise fun a b =>
      toLex (a.1.key, a.2) ≤ toLex (b.1.key, b.2) := List.pairwise_insertionSort _ _
  have hleft : ((sortHits hits).map (hitMatch vocabulary docs)).Pairwise fun a b =>
      a.key ≤ b.key := by
    rw [List.pairwise_map]
    refine hsorted.imp_of_mem ?_
    intro a b ha hb hle
    obtain ⟨x, hx, hxk⟩ := hhits a (hperm.mem_iff.mp ha)
    obtain ⟨y, hy, hyk⟩ := hhits b (hperm.mem_iff.mp hb)
    exact hitMatch_le hv hw hdocs hx hy (hxk.trans hyk.symm) hle
  have hall : ((sortHits hits).map (hitMatch vocabulary docs)).Perm (sortMatches found) :=
    ((hperm.map _).trans hp).trans (List.perm_insertionSort _ _).symm
  have hkind : ∀ m ∈ (sortHits hits).map (hitMatch vocabulary docs), m.kind = kind := by
    intro m hm
    obtain ⟨hit, hhit, rfl⟩ := List.mem_map.mp hm
    obtain ⟨doc, hd, hk⟩ := hhits hit (hperm.mem_iff.mp hhit)
    simp only [hitMatch, List.getD_eq_getElem?_getD, hd, Option.getD_some, hk]
  refine hall.eq_of_pairwise ?_ hleft (List.pairwise_insertionSort _ _)
  intro a b ha hb hab hba
  exact Match.key_inj ((hkind a ha).trans (hkind b (hall.mem_iff.mpr hb)).symm)
    (le_antisymm hab hba)

/-- **A kind's section is that of its matches.** -/
theorem section_eq (h : Built vocabulary docs index) (hv : vocabulary.Pairwise (· < ·))
    (hw : ∀ doc ∈ docs, ∀ w ∈ doc.words, w < vocabulary.length)
    (hdocs : docs.Pairwise fun a b => a.key ≤ b.key) {kind : Kind} {hits : List (Score × Nat)}
    (hhits : ∀ hit ∈ hits, ∃ doc, docs[hit.2]? = some doc ∧ doc.kind = kind)
    {found : List Match} (hp : (hits.map (hitMatch vocabulary docs)).Perm found)
    (hl : limit ≠ 0) : index.section limit hits kind = sectionOf limit found kind := by
  have hsort := sortHits_match hv hw hdocs hhits hp
  have hlen : hits.length = found.length := by rw [← hp.length_eq, List.length_map]
  obtain ⟨n, rfl⟩ := Nat.exists_eq_succ_of_ne_zero hl
  rw [Index.section, sectionOf, ← hsort]
  have hperm : (sortHits hits).Perm hits := List.perm_insertionSort _ _
  cases hs : sortHits hits with
  | nil => rfl
  | cons best rest =>
    have hids : ((best :: rest).take (n + 1)).filterMap (fun hit =>
        index.documents[hit.2]?.map (·.id)) =
          (((best :: rest).map (hitMatch vocabulary docs)).take (n + 1)).map (·.id) := by
      rw [← List.map_take, List.map_map, ← List.filterMap_eq_map]
      apply List.filterMap_congr
      intro hit hhit
      have hmem : hit ∈ hits := hperm.mem_iff.mp (hs ▸ List.mem_of_mem_take hhit)
      obtain ⟨doc, hd, -⟩ := hhits hit hmem
      simp only [h.documents, List.getElem?_map, hd, Option.map_some, Function.comp, hitMatch,
        List.getD_eq_getElem?_getD, Option.getD_some]
    rw [List.take_succ_cons] at hids ⊢
    simp only [List.map_cons] at hids ⊢
    rw [hids, hlen]
    rfl

/-- The documents matched are those that match when scored alone. -/
theorem foldedMatch_eq {documents : List Document}
    (hvoc : ∀ doc ∈ documents, ∀ w ∈ words doc.name, w ∈ vocabulary) :
    (documents.map (foldOf words vocabulary)).filterMap
        (foldedMatch vocabulary queryWords kinds keep) =
      (documents.filter fun doc => decide (doc.kind ∈ kinds ∧ keep doc.kind doc.id)).filterMap
        (matchOf words queryWords) := by
  rw [List.filterMap_map, List.filterMap_filter]
  apply List.filterMap_congr
  intro doc hdoc
  simp only [Function.comp, foldedMatch, foldOf, spell_places (hvoc doc hdoc), matchOf,
    decide_eq_true_eq]

/-- **Search finds what scoring every document would.** -/
theorem searchWithin_eq (words : String → List Word) (documents : List Document) (query : String)
    (kinds : List Kind) (limit : Nat) (keep : Kind → Int → Bool) :
    (build words documents).searchWithin words query kinds limit keep =
      if words query = [] ∨ limit = 0 then []
      else reference words documents query kinds limit keep := by
  have hnil : (words query).take maxQueryWords = [] ↔ words query = [] := by
    simp [List.take_eq_nil_iff, maxQueryWords]
  rw [Index.searchWithin]
  simp only [hnil]
  by_cases hempty : words query = [] ∨ limit = 0
  · rw [if_pos hempty, if_pos hempty]
  · rw [if_neg hempty, if_neg hempty]
    rw [not_or] at hempty
    have hqs : (words query).take maxQueryWords ≠ [] := fun he => hempty.1 (hnil.mp he)
    set queryWords := (words query).take maxQueryWords with hqdef
    have h := build_built words documents
    set vocabulary := vocabularyOf (documents.flatMap fun doc => words doc.name)
    set docs := foldedDocuments words vocabulary documents
    have hv : vocabulary.Pairwise (· < ·) := vocabularyOf_sorted _
    have hvoc : ∀ doc ∈ documents, ∀ w ∈ words doc.name, w ∈ vocabulary := by
      intro doc hdoc w hw
      exact mem_vocabularyOf.2 (List.mem_flatMap.mpr ⟨doc, hdoc, hw⟩)
    have hperm := foldedDocuments_perm words vocabulary documents
    have hw : ∀ doc ∈ docs, ∀ w ∈ doc.words, w < vocabulary.length := by
      intro doc hdoc
      obtain ⟨document, hdocument, rfl⟩ := List.mem_map.mp (hperm.mem_iff.mp hdoc)
      exact places_lt (hvoc document hdocument)
    -- the most selective needed word
    have hmatched : ((queryWords.map (build words documents).matchWord).map Prod.snd).drop
        (optionalOf queryWords) ≠ [] := by
      rw [ne_eq, List.drop_eq_nil_iff, List.length_map, List.length_map]
      have := optional_lt hqs
      omega
    obtain ⟨candidates, hmem, hfew⟩ := fewest_some hmatched
    rw [List.map_map, ← List.map_drop] at hmem
    obtain ⟨word, hword, rfl⟩ := List.mem_map.mp hmem
    have hbest : (queryWords.map (build words documents).matchWord).map Prod.fst =
        queryWords.map fun word => ((build words documents).matchWord word).1 := List.map_map ..
    have hfound : ∀ kind, ((docs.filterMap (foldedMatch vocabulary queryWords kinds keep)).filter
        fun m => decide (m.kind = kind)).Perm (((documents.filter fun doc =>
          decide (doc.kind ∈ kinds ∧ keep doc.kind doc.id)).filterMap
            (matchOf words queryWords)).filter fun m => decide (m.kind = kind)) := by
      intro kind
      rw [← foldedMatch_eq hvoc]
      exact (hperm.filterMap _).filter _
    rw [← optionalOf_eq, hfew, hbest, reference]
    simp only
    congr 1
    apply List.filterMap_congr
    intro kind _
    refine section_eq h hv hw (foldedDocuments_sorted words vocabulary documents) ?_
      ((kind_match h hv hw hword kind).trans (hfound kind)) hempty.2
    intro hit hhit
    obtain ⟨r, hr, rfl⟩ := List.mem_map.mp hhit
    obtain ⟨hr, hk⟩ := List.mem_filter.mp hr
    obtain ⟨d, -, hd⟩ := List.mem_filterMap.mp hr
    obtain ⟨doc, hdoc, hkind⟩ := hit_doc h hd
    exact ⟨doc, hdoc, hkind.trans (of_decide_eq_true hk)⟩

/-! ### The order of documents, and filters -/

/-- Matches of one kind sort the same in whatever order they are found. -/
theorem sortMatches_perm {kind : Kind} {found found' : List Match} (hp : found.Perm found')
    (hk : ∀ m ∈ found, m.kind = kind) : sortMatches found = sortMatches found' := by
  have htotal : Std.Total fun a b : Match => a.key ≤ b.key := ⟨fun a b => le_total _ _⟩
  have htrans : IsTrans Match fun a b => a.key ≤ b.key := ⟨fun _ _ _ => le_trans⟩
  have hperm : (sortMatches found).Perm found := List.perm_insertionSort _ _
  have hperm' : (sortMatches found').Perm found' := List.perm_insertionSort _ _
  refine ((hperm.trans hp).trans hperm'.symm).eq_of_pairwise ?_
    (List.pairwise_insertionSort _ _) (List.pairwise_insertionSort _ _)
  intro a b ha hb hab hba
  have hb := hp.mem_iff.mpr (hperm'.mem_iff.mp hb)
  exact Match.key_inj ((hk a (hperm.mem_iff.mp ha)).trans (hk b hb).symm) (le_antisymm hab hba)

theorem reference_perm {documents documents' : List Document} (hp : documents.Perm documents')
    (query : String) : reference words documents query kinds limit keep =
      reference words documents' query kinds limit keep := by
  rw [reference, reference]
  congr 1
  apply List.filterMap_congr
  intro kind _
  have hfound := (((hp.filter fun doc => decide (doc.kind ∈ kinds ∧ keep doc.kind doc.id)).filterMap
    (matchOf words ((words query).take maxQueryWords))).filter fun m => decide (m.kind = kind))
  have hk : ∀ m ∈ ((documents.filter fun doc => decide (doc.kind ∈ kinds ∧
      keep doc.kind doc.id)).filterMap (matchOf words ((words query).take maxQueryWords))).filter
        (fun m => decide (m.kind = kind)), m.kind = kind := by
    intro m hm
    exact of_decide_eq_true (List.mem_filter.mp hm).2
  rw [sectionOf, sectionOf, sortMatches_perm hfound hk, hfound.length_eq]

theorem reference_filter (documents : List Document) (query : String) :
    reference words documents query kinds limit keep =
      reference words (documents.filter fun doc => keep doc.kind doc.id) query kinds limit
        fun _ _ => true := by
  rw [reference, reference, List.filter_filter]
  simp only [and_true, Bool.decide_and, Bool.decide_eq_true]

/-- **Search is brute force, with an index.** A query of any word gives, whatever the order the
documents come in, what scoring every kept document of the kinds wanted would, and filtering while
it ranks gives what an index of the kept documents would. A query with no words gives nothing, and
so does a limit of 0. -/
theorem search_brute_force (words : String → List Word) (documents : List Document)
    (query : String) (kinds : List Kind) (limit : Nat) (keep : Kind → Int → Bool) :
    (build words documents).searchWithin words query kinds limit keep =
        (if words query = [] ∨ limit = 0 then []
          else reference words documents query kinds limit keep) ∧
      (∀ documents' : List Document, documents.Perm documents' →
        (build words documents').searchWithin words query kinds limit keep =
          (build words documents).searchWithin words query kinds limit keep) ∧
      (build words (documents.filter fun doc => keep doc.kind doc.id)).search words query kinds
          limit = (build words documents).searchWithin words query kinds limit keep := by
  refine ⟨searchWithin_eq words documents query kinds limit keep, ?_, ?_⟩
  · intro documents' hp
    rw [searchWithin_eq, searchWithin_eq, reference_perm hp]
  · rw [Index.search, searchWithin_eq, searchWithin_eq, ← reference_filter]

/-- A name of one word, and a query of no words: every document has all of its words, and none is
found; and a section of no documents is not listed. -/
theorem search_gives_nothing :
    let words : String → List Word := fun text => if text = "Love" then ["love".toList] else []
    let documents : List Document := [⟨.track, 1, "Love"⟩]
    (build words documents).searchWithin words "..." Kind.all 20 (fun _ _ => true) ≠
        reference words documents "..." Kind.all 20 (fun _ _ => true) ∧
      (build words documents).searchWithin words "Love" Kind.all 0 (fun _ _ => true) ≠
        reference words documents "Love" Kind.all 0 (fun _ _ => true) := by
  decide

end JewelCase.Search
