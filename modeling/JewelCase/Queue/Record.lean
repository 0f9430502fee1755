import JewelCase.Queue.Items

/-!
# Plays

History's runs are stretches of numbered plays, so a History is the list of its plays, newest
last: `(number, row)`. What recording, trimming and taking a play out do to that list.
-/
namespace JewelCase.Queue

set_option autoImplicit false

open Library (Stretch)
open Library.Lists

instance : Stretch Run (Nat × Row) where
  head r := (r.first, (r.span.view, r.span.start))
  len r := r.span.len
  next x := (x.1 + 1, (x.2.1, x.2.2 + 1))
  ext := by rintro ⟨f, v, s, l⟩ ⟨f', v', s', l'⟩ h rfl; simp_all

/-- Rows numbered from `n`. -/
def numbered (n : Nat) (rows : List Row) : List (Nat × Row) := (rows.zipIdx n).map Prod.swap

@[simp] theorem numbered_nil (n : Nat) : numbered n [] = [] := rfl

theorem numbered_append (n : Nat) (as bs : List Row) :
    numbered n (as ++ bs) = numbered n as ++ numbered (n + as.length) bs := by
  simp [numbered, List.zipIdx_append]

theorem map_snd_numbered (n : Nat) (rows : List Row) : (numbered n rows).map Prod.snd = rows := by
  simp [numbered, Function.comp_def]

theorem map_fst_numbered (n : Nat) (rows : List Row) :
    (numbered n rows).map Prod.fst = List.range' n rows.length := by
  rw [numbered, List.map_map]
  exact List.zipIdx_map_snd n rows

theorem getElem?_numbered (n : Nat) (rows : List Row) (i : Nat) :
    (numbered n rows)[i]? = rows[i]?.map fun r => (n + i, r) := by
  rw [numbered, List.getElem?_map, List.getElem?_zipIdx]
  cases rows[i]? <;> simp

theorem Run.next_iterate (k : Nat) (x : Nat × Row) :
    (Stretch.next Run)^[k] x = (x.1 + k, (x.2.1, x.2.2 + k)) := by
  induction k generalizing x with
  | zero => rfl
  | succ k ih =>
    rw [Function.iterate_succ_apply, ih]
    simp only [Stretch.next, Prod.mk.injEq, true_and]
    omega

@[simp] theorem Run.head_eq (r : Run) :
    Stretch.head r = (r.first, (r.span.view, r.span.start)) := rfl

@[simp] theorem Run.len_eq (r : Run) : Stretch.len r = r.span.len := rfl

@[simp] theorem Run.after_eq (r : Run) :
    Stretch.after r = (r.first + r.span.len, (r.span.view, r.span.start + r.span.len)) :=
  Run.next_iterate r.span.len _

theorem Run.joins : Stretch.Joins Run.join where
  some_of := by
    intro a b h
    simp only [Run.after_eq, Run.head_eq, Prod.mk.injEq] at h
    refine ⟨{ a with span := { a.span with len := a.span.len + b.span.len } }, ?_, rfl, rfl⟩
    rw [Run.join, if_pos ⟨h.1, h.2.1, h.2.2⟩]
  none_of := by
    intro a b h
    simp only [Run.after_eq, Run.head_eq, ne_eq, Prod.mk.injEq] at h
    rw [Run.join, if_neg h]

theorem Run.rows_eq (r : Run) : Stretch.rows r = numbered r.first (Stretch.rows r.span) := by
  apply List.ext_getElem?
  intro i
  rw [getElem?_numbered]
  by_cases h : i < r.span.len
  · rw [Stretch.getElem?_rows r i h, Run.next_iterate, Span.getElem?_rows r.span h]
    rfl
  · rw [List.getElem?_eq_none (by simpa using h), List.getElem?_eq_none (by simpa using h)]
    rfl

theorem Run.mem_rows {r : Run} {x : Nat × Row} :
    x ∈ Stretch.rows r ↔ ∃ o < r.span.len, x = (r.first + o, (r.span.view, r.span.start + o)) := by
  constructor
  · intro h
    obtain ⟨i, hi⟩ := List.mem_iff_getElem?.mp h
    have hl : i < r.span.len := by simpa using (List.getElem?_eq_some_iff.mp hi).1
    rw [Run.rows_eq, getElem?_numbered, Span.getElem?_rows _ hl] at hi
    exact ⟨i, hl, by simpa using hi.symm⟩
  · rintro ⟨o, ho, rfl⟩
    refine List.mem_of_getElem? (i := o) ?_
    rw [Run.rows_eq, getElem?_numbered, Span.getElem?_rows _ ho]
    rfl

/-- Every list of plays is some History. -/
theorem exists_history (plays : List (Nat × Row)) :
    ∃ h : List Run, Stretch.Canonical h ∧ Stretch.flat h = plays :=
  Stretch.exists_canonical Run.joins (fun x => ⟨x.1, x.2.1, x.2.2, 1⟩) (fun _ => ⟨rfl, rfl⟩) plays

namespace QueueState

/-- The plays of History, newest last. -/
def plays (q : QueueState) : List (Nat × Row) := Stretch.flat q.history

/-- The rows played. -/
def playRows (q : QueueState) : List Row := q.plays.map Prod.snd

/-- **History's order.** Runs are nonempty and as long as they can be, the plays' numbers go up
and stay below `nextPlay`, plays name list positions, and History keeps so many runs. -/
structure Numbered (q : QueueState) : Prop where
  canonical : Stretch.Canonical q.history
  ascending : q.plays.Pairwise (fun a b => a.1 < b.1)
  below : ∀ x ∈ q.plays, x.1 < q.nextPlay
  keys : KeyRows q.playRows
  bounded : q.history.length ≤ historyRuns

theorem playRows_eq (q : QueueState) : q.playRows = rowsOf (q.history.map (·.span)) := by
  rw [playRows, plays]
  induction q.history with
  | nil => rfl
  | cons r rs ih =>
    rw [Stretch.flat_cons, List.map_append, ih, List.map_cons, rowsOf_cons, Run.rows_eq,
      map_snd_numbered]

/-- Runs come in the order of their numbers, apart from one another. -/
theorem ordered_of_ascending {runs : List Run} (hp : ∀ r ∈ runs, 0 < r.span.len)
    (h : (Stretch.flat runs).Pairwise (fun a b => a.1 < b.1)) :
    runs.Pairwise (fun a b => a.first + a.span.len ≤ b.first) := by
  induction runs with
  | nil => exact List.Pairwise.nil
  | cons r rs ih =>
    rw [Stretch.flat_cons, List.pairwise_append] at h
    refine List.pairwise_cons.mpr ⟨?_, ih (fun s hs => hp s (List.mem_cons_of_mem _ hs)) h.2.1⟩
    intro s hs
    have hr := hp r (by simp)
    have hlen := hp s (List.mem_cons_of_mem _ hs)
    have hlast : (r.first + (r.span.len - 1), (r.span.view, r.span.start + (r.span.len - 1))) ∈
        Stretch.rows r := Run.mem_rows.2 ⟨r.span.len - 1, by omega, rfl⟩
    have hfirst : (s.first, (s.span.view, s.span.start)) ∈ Stretch.flat rs :=
      List.mem_flatMap.mpr ⟨s, hs, Run.mem_rows.2 ⟨0, hlen, rfl⟩⟩
    have := h.2.2 _ hlast _ hfirst
    omega

theorem Numbered.ordered {q : QueueState} (h : q.Numbered) :
    q.history.Pairwise (fun a b => a.first + a.span.len ≤ b.first) :=
  ordered_of_ascending h.canonical.1 h.ascending

/-- A play's number names one row. -/
theorem Numbered.play_unique {q : QueueState} (h : q.Numbered) {n : Nat} {r r' : Row}
    (hr : (n, r) ∈ q.plays) (hr' : (n, r') ∈ q.plays) : r = r' := by
  by_contra hne
  obtain ⟨i, hi⟩ := List.mem_iff_getElem?.mp hr
  obtain ⟨j, hj⟩ := List.mem_iff_getElem?.mp hr'
  have hlt : ∀ {i j : Nat} {a b : Nat × Row}, i < j → q.plays[i]? = some a → q.plays[j]? = some b →
      a.1 < b.1 := by
    intro i j a b hij ha hb
    obtain ⟨hi', rfl⟩ := List.getElem?_eq_some_iff.mp ha
    obtain ⟨hj', rfl⟩ := List.getElem?_eq_some_iff.mp hb
    exact List.pairwise_iff_getElem.mp h.ascending i j hi' hj' hij
  rcases Nat.lt_trichotomy i j with hij | rfl | hij
  · exact absurd (hlt hij hi hj) (Nat.lt_irrefl _)
  · rw [hi, Option.some.injEq, Prod.mk.injEq] at hj
    exact hne hj.2
  · exact absurd (hlt hij hj hi) (Nat.lt_irrefl _)

end QueueState

end JewelCase.Queue

/-!
## Recording plays

`recordPlays` appends the numbered plays of what is passed and keeps the newest runs. The bulk
form, which computes only the newest plays of shuffle rows, records what one play at a time
would.
-/
namespace JewelCase.Queue

set_option autoImplicit false

open Library (Stretch)
open Library.Lists

namespace QueueState

/-- The list positions that rows play. -/
def listRows (shuffle : Option Shuffle) (rows : List Row) : List Row :=
  (itemsOf shuffle rows).map ItemId.row

@[simp] theorem listRows_nil (shuffle : Option Shuffle) : listRows shuffle [] = [] := rfl

@[simp] theorem listRows_append (shuffle : Option Shuffle) (as bs : List Row) :
    listRows shuffle (as ++ bs) = listRows shuffle as ++ listRows shuffle bs := by
  simp [listRows]

theorem listRows_keys (shuffle : Option Shuffle) (rows : List Row) :
    KeyRows (listRows shuffle rows) := by
  intro r hr
  obtain ⟨item, -, rfl⟩ := List.mem_map.mp hr
  simp [ItemId.row, ItemId.view]

theorem listRows_of_keys {rows : List Row} (h : KeyRows rows) (shuffle : Option Shuffle) :
    listRows shuffle rows = rows := by
  rw [listRows, itemsOf, h.items, h.rows_eq]

theorem length_listRows {shuffle : Option Shuffle} {rows : List Row}
    (h : Defined (rowItem shuffle) rows) : (listRows shuffle rows).length = rows.length := by
  rw [listRows, List.length_map]
  exact h.length

/-! ### The newest plays of shuffle rows -/

theorem pushPiece_spec {newest : List Span} {piece : Span} (hc : Stretch.Canonical newest)
    (hp : 0 < piece.len) :
    Stretch.Canonical (pushPiece newest piece) ∧
      rowsOf (pushPiece newest piece) = Stretch.rows piece ++ rowsOf newest := by
  cases newest with
  | nil => exact ⟨Stretch.canonical_singleton hp, rfl⟩
  | cons next rest =>
    unfold pushPiece
    by_cases h : next.view = piece.view ∧ piece.start + piece.len = next.start
    · simp only [if_pos h]
      let both : Span := { next with start := piece.start, len := next.len + piece.len }
      have hafter : Stretch.after piece = Stretch.head next := by simp [h]
      have hhead : Stretch.head both = Stretch.head piece := by simp [both, h.1]
      have hlen : Stretch.len both = Stretch.len piece + Stretch.len next := by
        simp [both, Nat.add_comm]
      refine ⟨⟨?_, ?_⟩, ?_⟩
      · intro s hs
        rcases List.mem_cons.mp hs with rfl | hs
        · simp only [Span.len_eq]
          omega
        · exact hc.1 s (List.mem_cons_of_mem _ hs)
      · rw [List.isChain_cons] at *
        refine ⟨fun s hs => ?_, (List.isChain_cons.mp hc.2).2⟩
        have := (List.isChain_cons.mp hc.2).1 s hs
        rwa [show Stretch.after _ = Stretch.after next from
          Stretch.after_join hafter hhead hlen]
      · rw [rowsOf_cons, rowsOf_cons, ← List.append_assoc,
          show Stretch.rows _ = Stretch.rows piece ++ Stretch.rows next from
            Stretch.rows_join hafter hhead hlen]
    · simp only [if_neg h]
      refine ⟨⟨?_, List.isChain_cons.mpr ⟨?_, hc.2⟩⟩, rfl⟩
      · intro s hs
        rcases List.mem_cons.mp hs with rfl | hs
        · exact hp
        · exact hc.1 s hs
      · intro s hs
        obtain rfl : next = s := by simpa using hs
        simp only [Span.after_eq, Span.head_eq, ne_eq, Prod.mk.injEq]
        exact fun he => h ⟨he.1.symm, he.2⟩

theorem rows_playSpan (item : ItemId) : Stretch.rows (playSpan item) = [item.row] := by
  rw [Span.rows_eq]
  rfl

variable {q : QueueState}

/-- What a stretch of the newest plays leaves out is older, and is left out only when History is
full. -/
structure Newest (plays : List Row) (newest newest' : List Span) (full : Prop) : Prop where
  canonical : Stretch.Canonical newest'
  older : ∃ older, plays ++ rowsOf newest = older ++ rowsOf newest' ∧
    (older ≠ [] → full)

theorem playedPositions_spec (hok : ∀ s ∈ q.shuffle, s.Ok) (ps : List Nat) (newest : List Span)
    (hread : ∀ p ∈ ps, (rowItem q.shuffle (.shuffle, p)).isSome) (hc : Stretch.Canonical newest) :
    let r := q.playedPositions ps newest
    Newest (listRows q.shuffle (ps.reverse.map fun p => (View.shuffle, p))) newest r.1 (r.2 = true)
      ∧ (r.2 = true → historyRuns < r.1.length) := by
  induction ps generalizing newest with
  | nil => exact ⟨⟨hc, [], rfl, fun h => absurd rfl h⟩, fun h => by cases h⟩
  | cons p ps ih =>
    obtain ⟨item, hitem⟩ := Option.isSome_iff_exists.mp (hread p (by simp))
    have hof : q.itemOf .shuffle p = some item := (q.itemOf_eq hok (.shuffle, p)).trans hitem
    obtain ⟨hc', hrows⟩ := pushPiece_spec hc (show 0 < (playSpan item).len from Nat.one_pos)
    have hsplit : listRows q.shuffle ((p :: ps).reverse.map fun p => (View.shuffle, p)) =
        listRows q.shuffle (ps.reverse.map fun p => (View.shuffle, p)) ++ [item.row] := by
      rw [List.reverse_cons, List.map_append, listRows_append]
      congr 1
      simp [listRows, itemsOf, hitem]
    have hjoin : listRows q.shuffle ((p :: ps).reverse.map fun p => (View.shuffle, p)) ++
        rowsOf newest =
        listRows q.shuffle (ps.reverse.map fun p => (View.shuffle, p)) ++
          rowsOf (pushPiece newest (playSpan item)) := by
      rw [hsplit, hrows, rows_playSpan, List.append_assoc]
    simp only [playedPositions, hof]
    by_cases hfull : (pushPiece newest (playSpan item)).length > historyRuns
    · rw [if_pos hfull]
      exact ⟨⟨hc', _, hjoin, fun _ => rfl⟩, fun _ => hfull⟩
    · rw [if_neg hfull]
      obtain ⟨⟨hcr, older, ho, hne⟩, hf⟩ :=
        ih (pushPiece newest (playSpan item)) (fun p hp => hread p (List.mem_cons_of_mem _ hp)) hc'
      exact ⟨⟨hcr, older, hjoin.trans ho, hne⟩, hf⟩

theorem playedSpans_spec (hok : ∀ s ∈ q.shuffle, s.Ok) (spans newest : List Span)
    (hread : Defined (rowItem q.shuffle) (rowsOf spans.reverse)) (hpos : ∀ s ∈ spans, 0 < s.len)
    (hc : Stretch.Canonical newest) :
    Newest (listRows q.shuffle (rowsOf spans.reverse)) newest (q.playedSpans spans newest)
      (historyRuns < (q.playedSpans spans newest).length) := by
  induction spans generalizing newest with
  | nil => exact ⟨hc, [], rfl, fun h => absurd rfl h⟩
  | cons span spans ih =>
    have hsplit : rowsOf (span :: spans).reverse = rowsOf spans.reverse ++ Stretch.rows span := by
      rw [List.reverse_cons, rowsOf_append, rowsOf_cons, rowsOf_nil, List.append_nil]
    have hread' : Defined (rowItem q.shuffle) (rowsOf spans.reverse) :=
      hread.sub fun r hr => by rw [hsplit]; exact List.mem_append_left _ hr
    have hpos' : ∀ s ∈ spans, 0 < s.len := fun s hs => hpos s (List.mem_cons_of_mem _ hs)
    rw [hsplit, listRows_append]
    -- one span is taken: what its rows play, before what was kept
    have hone : ∀ r : List Span × Bool,
        Newest (listRows q.shuffle (Stretch.rows span)) newest r.1 (r.2 = true) →
        (r.2 = true → historyRuns < r.1.length) →
        Newest (listRows q.shuffle (rowsOf spans.reverse) ++
            listRows q.shuffle (Stretch.rows span)) newest
          (if r.2 then r.1 else q.playedSpans spans r.1)
          (historyRuns < (if r.2 then r.1 else q.playedSpans spans r.1).length) := by
      rintro ⟨newest', full⟩ ⟨hcan, older, ho, hne⟩ hfull
      simp only at ho hne hfull hcan ⊢
      cases full with
      | true =>
        simp only [if_true]
        refine ⟨hcan, listRows q.shuffle (rowsOf spans.reverse) ++ older, ?_, fun _ => hfull rfl⟩
        rw [List.append_assoc, ho, List.append_assoc]
      | false =>
        obtain rfl : older = [] := by
          by_contra h
          cases hne h
        obtain ⟨hcan', older', ho', hne'⟩ := ih newest' hread' hpos' hcan
        simp only [Bool.false_eq_true, if_false]
        refine ⟨hcan', older', ?_, hne'⟩
        rw [List.append_assoc, ho, List.nil_append, ho']
    rw [playedSpans]
    cases hv : span.view with
    | key k =>
      have hkeys : KeyRows (Stretch.rows span) := by
        rintro ⟨v, p⟩ hr
        rw [Span.mem_rows] at hr
        simp [hr.1, hv]
      obtain ⟨hc', hrows⟩ := pushPiece_spec hc (hpos span (by simp))
      refine hone (pushPiece newest span, decide (_ > historyRuns)) ⟨hc', [], ?_, ?_⟩ ?_
      · rw [listRows_of_keys hkeys, hrows, List.nil_append]
      · exact fun h => absurd rfl h
      · simp
    | shuffle =>
      have hrows : Stretch.rows span =
          (List.range' span.start span.len).map fun p => (View.shuffle, p) := by
        rw [Span.rows_eq, hv]
      have hspec := playedPositions_spec hok (List.range' span.start span.len).reverse newest
        (by
          intro p hp
          rw [List.mem_reverse] at hp
          refine hread _ ?_
          rw [hsplit, hrows]
          exact List.mem_append_right _ (List.mem_map.mpr ⟨p, hp, rfl⟩)) hc
      rw [List.reverse_reverse, ← hrows] at hspec
      exact hone _ hspec.1 hspec.2

/-- **What is recorded is what is played**, but for older plays that History could not keep. -/
theorem played_spec (hok : ∀ s ∈ q.shuffle, s.Ok) {spans : List Span}
    (hread : Defined (rowItem q.shuffle) (rowsOf spans)) (hpos : ∀ s ∈ spans, 0 < s.len) :
    ∃ older, listRows q.shuffle (rowsOf spans) = older ++ rowsOf (q.played spans).2 ∧
      (q.played spans).1 = older.length ∧ (∀ s ∈ (q.played spans).2, 0 < s.len) ∧
      (older ≠ [] → Stretch.Canonical (q.played spans).2 ∧
        historyRuns < (q.played spans).2.length) := by
  unfold played
  by_cases hall : spans.all (·.view ≠ .shuffle)
  · rw [if_pos hall]
    have hkeys : KeyRows (rowsOf spans) := by
      rintro ⟨v, p⟩ hr
      obtain ⟨s, hs, hr⟩ := List.mem_flatMap.mp hr
      rw [Span.mem_rows] at hr
      rw [hr.1]
      simpa using List.all_eq_true.mp hall s hs
    exact ⟨[], listRows_of_keys hkeys _, rfl, hpos, fun h => absurd rfl h⟩
  · rw [if_neg hall]
    obtain ⟨hcan, older, ho, hne⟩ := playedSpans_spec hok spans.reverse []
      (by rwa [List.reverse_reverse]) (by simpa using hpos) Stretch.canonical_nil
    rw [List.reverse_reverse, rowsOf_nil, List.append_nil] at ho
    refine ⟨older, ho, ?_, hcan.1, fun h => ⟨hcan, hne h⟩⟩
    have hsum : ∀ ss : List Span, (ss.map (·.len)).sum = (rowsOf ss).length := by
      intro ss
      induction ss with
      | nil => rfl
      | cons s ss ih => rw [List.map_cons, List.sum_cons, ih, length_rowsOf_cons]
    have hlen := congrArg List.length ho
    rw [length_listRows hread, List.length_append] at hlen
    simp only [hsum]
    omega

/-! ### Recording -/

/-- The runs of spans numbered from `n`. -/
def runsFrom (n : Nat) : List Span → List Run
  | [] => []
  | s :: ss => ⟨n, s⟩ :: runsFrom (n + s.len) ss

theorem flat_runsFrom (n : Nat) (spans : List Span) :
    Stretch.flat (runsFrom n spans) = numbered n (rowsOf spans) := by
  induction spans generalizing n with
  | nil => rfl
  | cons s ss ih =>
    rw [runsFrom, Stretch.flat_cons, ih, rowsOf_cons, numbered_append, Run.rows_eq,
      Stretch.length_rows, Span.len_eq]

theorem runsFrom_pos {n : Nat} {spans : List Span} (h : ∀ s ∈ spans, 0 < s.len) :
    ∀ r ∈ runsFrom n spans, 0 < Stretch.len r := by
  induction spans generalizing n with
  | nil => simp [runsFrom]
  | cons s ss ih =>
    intro r hr
    rcases List.mem_cons.mp hr with rfl | hr
    · exact h s (by simp)
    · exact ih (fun t ht => h t (List.mem_cons_of_mem _ ht)) r hr

theorem foldl_recordSpan (q : QueueState) (spans : List Span) :
    spans.foldl recordSpan q =
      { q with
        history := (runsFrom q.nextPlay spans).foldl (Stretch.extendLast Run.join) q.history
        nextPlay := q.nextPlay + (rowsOf spans).length } := by
  induction spans generalizing q with
  | nil => simp [runsFrom]
  | cons s ss ih =>
    rw [List.foldl_cons, ih]
    simp only [recordSpan, runsFrom, List.foldl_cons, length_rowsOf_cons, Nat.add_assoc]

theorem runsFrom_canonical {n : Nat} {spans : List Span} (h : Stretch.Canonical spans) :
    Stretch.Canonical (runsFrom n spans) := by
  refine ⟨runsFrom_pos h.1, ?_⟩
  have hchain := h.2
  clear h
  induction spans generalizing n with
  | nil => exact List.IsChain.nil
  | cons s ss ih =>
    rw [List.isChain_cons] at hchain
    rw [runsFrom, List.isChain_cons]
    refine ⟨?_, ih hchain.2⟩
    intro r hr
    cases ss with
    | nil => simp [runsFrom] at hr
    | cons t ts =>
      obtain rfl : (⟨n + s.len, t⟩ : Run) = r := by simpa [runsFrom] using hr
      have := hchain.1 t (by simp)
      simp only [Span.after_eq, Span.head_eq, Run.after_eq, Run.head_eq, ne_eq, Prod.mk.injEq,
        true_and] at this ⊢
      exact this

theorem length_runsFrom (n : Nat) (spans : List Span) :
    (runsFrom n spans).length = spans.length := by
  induction spans generalizing n with
  | nil => rfl
  | cons s ss ih => rw [runsFrom, List.length_cons, ih, List.length_cons]

/-- **Recording, exactly.** The History after is the newest runs of the History that would hold
every play, and the answer says whether it holds more runs than are kept. -/
theorem recordPlays_eq (hq : Stretch.Canonical q.history) (hok : ∀ s ∈ q.shuffle, s.Ok)
    {spans : List Span} (hread : Defined (rowItem q.shuffle) (rowsOf spans))
    (hpos : ∀ s ∈ spans, 0 < s.len) {all : List Run} (hall : Stretch.Canonical all)
    (hflat : Stretch.flat all =
      q.plays ++ numbered q.nextPlay (listRows q.shuffle (rowsOf spans))) :
    q.recordPlays spans = (decide (historyRuns < all.length),
      { q with
        history := lastN historyRuns all
        nextPlay := q.nextPlay + (rowsOf spans).length }) := by
  obtain ⟨older, ho, hskip, hpos', hfull⟩ := played_spec hok hread hpos
  have hlen := length_listRows hread
  rw [ho, List.length_append] at hlen
  -- the runs before the trim
  let runs := runsFrom (q.nextPlay + older.length) (q.played spans).2
  let h := runs.foldl (Stretch.extendLast Run.join) q.history
  have hh : Stretch.Canonical h :=
    Stretch.canonical_foldl_extendLast Run.joins hq (runsFrom_pos hpos')
  have hhf : Stretch.flat h = q.plays ++
      numbered (q.nextPlay + older.length) (rowsOf (q.played spans).2) := by
    rw [Stretch.flat_foldl_extendLast Run.joins, flat_runsFrom]
    rfl
  have hfull' : Stretch.flat all = (q.plays ++ numbered q.nextPlay older) ++
      numbered (q.nextPlay + older.length) (rowsOf (q.played spans).2) := by
    rw [hflat, ho, numbered_append, List.append_assoc]
  have hrec : q.recordPlays spans = (decide (h.length - historyRuns > 0),
      { q with
        history := lastN historyRuns h
        nextPlay := q.nextPlay + (rowsOf spans).length }) := by
    simp only [recordPlays, foldl_recordSpan, trimHistory, hskip]
    rw [Nat.add_assoc, ← hlen]
    rfl
  have hsame : lastN historyRuns all = lastN historyRuns h ∧
      (historyRuns < all.length ↔ historyRuns < h.length) := by
    by_cases hne : older = []
    · obtain rfl : all = h := by
        refine Stretch.canonical_ext hall hh ?_
        rw [hfull', hhf, hne]
        simp
      exact ⟨rfl, Iff.rfl⟩
    · obtain ⟨hcan, hmany⟩ := hfull hne
      have hruns : Stretch.Canonical runs := runsFrom_canonical hcan
      have hrl : historyRuns < runs.length := by rwa [length_runsFrom]
      have hf1 : Stretch.flat all = (q.plays ++ numbered q.nextPlay older) ++ Stretch.flat runs := by
        rw [hfull', flat_runsFrom]
      have hf2 : Stretch.flat h = q.plays ++ Stretch.flat runs := by rw [hhf, flat_runsFrom]
      have heq := Stretch.lastN_of_suffix Run.joins hall hh hruns hf1 hf2 hrl
        (exists_history _) (exists_history _)
      refine ⟨heq, iff_of_true ?_ ?_⟩
      · exact Nat.lt_of_lt_of_le hrl (Stretch.length_le_of_suffix Run.joins hall hruns hf1
          (exists_history _))
      · exact Nat.lt_of_lt_of_le hrl (Stretch.length_le_of_suffix Run.joins hh hruns hf2
          (exists_history _))
  rw [hrec, hsame.1]
  have hdec : decide (h.length - historyRuns > 0) = decide (historyRuns < all.length) := by
    rw [decide_eq_decide, hsame.2]
    omega
  rw [hdec]

end QueueState

end JewelCase.Queue
