import Mathlib.Data.List.Induction
import JewelCase.Queue.PreviousResults

/-!
# Plays taken out of History

A removal takes each play it names out of History, one after another. What is left is the old list
without them, and without its oldest plays where splitting a run made one run too many. What the
queue still refers to reads as it did after the clean-up.
-/
namespace JewelCase.Queue

set_option autoImplicit false

open Library (Stretch)
open Library.Lists

namespace QueueState

variable {q : QueueState}

/-! ### Reading History -/

/-- One play of History: its number and the row it played. -/
structure PlayRow where
  play : Nat
  row : ReadRow
deriving DecidableEq, Repr

/-- Play `skip` of `runs`, which come newest first. -/
def historyRowIn (q : QueueState) : List Run → Nat → Option PlayRow
  | [], _ => none
  | run :: older, skip =>
    if skip < run.span.len then
      let offset := run.span.len - 1 - skip
      match run.span.view with
      | .shuffle => none
      | .key key => (q.rowOf key (run.span.start + offset)).map fun row => ⟨run.first + offset, row⟩
    else historyRowIn q older (skip - run.span.len)

/-- History row `index`, newest first. -/
def historyRow (q : QueueState) (index : Nat) : Option PlayRow :=
  q.historyRowIn q.history.reverse index

/-- The plays of History as its rows give them, oldest first. -/
def playItems (q : QueueState) : List (Nat × ItemId) :=
  (List.range q.historyLen).reverse.filterMap fun i =>
    (q.historyRow i).map fun r => (r.play, r.row.item)

/-- What History gives for a play: its number with what its row reads. -/
def playRow (q : QueueState) : Nat × Row → Option PlayRow
  | (play, (.key key, pos)) => (q.rowOf key pos).map fun row => ⟨play, row⟩
  | (_, (.shuffle, _)) => none

theorem historyRowIn_eq (runs : List Run) (skip : Nat) :
    q.historyRowIn runs skip =
      ((runs.flatMap fun run => (Stretch.rows run).reverse)[skip]?).bind q.playRow := by
  induction runs generalizing skip with
  | nil => rfl
  | cons run older ih =>
    have hlen : ((Stretch.rows run).reverse).length = run.span.len := by simp
    rw [List.flatMap_cons, historyRowIn]
    by_cases hlt : skip < run.span.len
    · have hrow : (Stretch.rows run)[run.span.len - 1 - skip]? = some
          (run.first + (run.span.len - 1 - skip),
            (run.span.view, run.span.start + (run.span.len - 1 - skip))) := by
        rw [Stretch.getElem?_rows run _ (by simp only [Run.len_eq]; omega), Run.next_iterate]
        rfl
      rw [if_pos hlt, List.getElem?_append_left (by omega), List.getElem?_reverse (by simpa using hlt),
        Stretch.length_rows, Run.len_eq, hrow, Option.bind_some]
      cases hview : run.span.view with
      | key key => simp only [playRow]
      | shuffle => rfl
    · rw [if_neg hlt, List.getElem?_append_right (by omega), hlen, ih]

/-- **A row of History is a play of it, newest first.** -/
theorem historyRow_eq (q : QueueState) (index : Nat) :
    q.historyRow index = (q.plays.reverse[index]?).bind q.playRow := by
  rw [historyRow, historyRowIn_eq, plays, Stretch.flat, List.reverse_flatMap]
  rfl

theorem historyLen_eq (q : QueueState) : q.historyLen = q.plays.length := by
  rw [historyLen, plays, Stretch.flat, List.length_flatMap]
  simp

/-- A play is of an item, and its row reads. -/
theorem Valid.play_row (h : q.Valid) {x : Nat × Row} (hx : x ∈ q.plays) :
    ∃ item row, x.2 = item.row ∧ q.rowOf item.key item.pos = some row ∧ row.item = item ∧
      q.playRow x = some ⟨x.1, row⟩ := by
  have hplayed : x.2 ∈ q.playRows := List.mem_map_of_mem hx
  obtain ⟨play, view, pos⟩ := x
  cases view with
  | shuffle => exact absurd rfl (h.numbered.keys _ hplayed)
  | key key =>
    have hmentioned : (⟨key, pos⟩ : ItemId).row ∈ q.mentioned :=
      mem_mentioned.2 (.inr (.inr (.inr (.inr hplayed))))
    obtain ⟨row, hrow, hitem⟩ := h.grounded.rowOf_mentioned hmentioned
    refine ⟨⟨key, pos⟩, row, rfl, hrow, hitem, ?_⟩
    rw [playRow, hrow]
    rfl

/-- A play of an item as History's runs give it. -/
def itemPlay (x : Nat × ItemId) : Nat × Row := (x.1, x.2.row)

theorem itemPlay_injective : Function.Injective itemPlay := by
  rintro ⟨n, key, pos⟩ ⟨n', key', pos'⟩ h
  simp only [itemPlay, ItemId.row, ItemId.view, Prod.mk.injEq, View.key.injEq] at h
  obtain ⟨rfl, rfl, rfl⟩ := h
  rfl

/-- **The rows of History are its plays.** -/
theorem Valid.plays_eq (h : q.Valid) : q.plays = q.playItems.map itemPlay := by
  let shown (x : Nat × Row) : Option (Nat × ItemId) :=
    (q.playRow x).map fun r => (r.play, r.row.item)
  have hitems : q.playItems = q.plays.filterMap shown := by
    have hrows : ∀ i, (q.historyRow i).map (fun r => (r.play, r.row.item)) =
        (q.plays.reverse[i]?).bind shown := by
      intro i
      rw [historyRow_eq, Option.map_bind]
      rfl
    have hread := congrArg (List.filterMap shown) (filterMap_range_get q.plays.reverse)
    rw [List.filterMap_filterMap, List.filterMap_reverse, List.length_reverse] at hread
    rw [playItems, List.filterMap_reverse, historyLen_eq]
    simp only [hrows]
    rw [hread, List.reverse_reverse]
  have hshown : ∀ x ∈ q.plays, (shown x).map itemPlay = some x := by
    intro x hx
    obtain ⟨item, row, hitem, -, he, hplay⟩ := h.play_row hx
    simp only [shown, hplay, Option.map_some, itemPlay, he, ← hitem]
  rw [hitems, List.map_filterMap, List.filterMap_congr hshown, List.filterMap_some]

/-! ### Taking plays out -/

/-- Whether taking a play out splits its run where History is full. -/
def SplitsFull (q : QueueState) (play : PlayRef) : Prop :=
  ∃ found ∈ q.matchPlay play, ∃ run ∈ q.history[found.1]?,
    0 < found.2 ∧ found.2 + 1 < run.span.len ∧ q.history.length = historyRuns

instance (q : QueueState) (play : PlayRef) : Decidable (q.SplitsFull play) := by
  unfold SplitsFull
  infer_instance

/-- What the trim drops as `play` goes: the oldest run's plays before it, where it splits a run of
a full History. -/
def trimmedBy (q : QueueState) (play : PlayRef) : List (Nat × Row) :=
  if q.SplitsFull play then
    (q.history.head?.toList.flatMap Stretch.rows).filter (·.1 < play.play)
  else []

/-- What the trims drop as `plays` go one after another. -/
def trims (q : QueueState) : List PlayRef → List (Nat × Row)
  | [] => []
  | play :: plays => q.trimmedBy play ++ trims (q.removePlay false play).1 plays

theorem splitsFull_iff {play : PlayRef} {i offset : Nat} {run : Run}
    (hm : q.matchPlay play = some (i, offset)) (hget : q.history[i]? = some run) :
    q.SplitsFull play ↔
      0 < offset ∧ offset + 1 < run.span.len ∧ q.history.length = historyRuns := by
  simp [SplitsFull, hm, hget]

/-- The plays of a run before its play `offset`. -/
theorem rows_before {run : Run} {offset : Nat} (h : offset ≤ run.span.len) :
    (Stretch.rows run).filter (·.1 < run.first + offset) =
      Stretch.rows (⟨run.first, { run.span with len := offset }⟩ : Run) := by
  rw [Run.rows_eq, Run.rows_eq, Span.rows_cut run.span h, numbered_append, List.filter_append,
    List.filter_eq_self.mpr, List.filter_eq_nil_iff.mpr, List.append_nil]
  · intro x hx
    have := (mem_numbered hx).1
    simp only [Stretch.length_rows, Span.len_eq] at this
    simp only [decide_eq_true_eq, not_lt]
    omega
  · intro x hx
    have := (mem_numbered hx).2.1
    simp only [Stretch.length_rows, Span.len_eq] at this
    simp only [decide_eq_true_eq]
    exact this

/-- A split of a full History leaves one run too many, the oldest of them up to the play. -/
theorem Numbered.split_full (h : q.Numbered) {play : PlayRef} {i offset : Nat} {run : Run}
    (hat : PlayAt q play i offset run) (hpos : 0 < offset) (hlt : offset + 1 < run.span.len)
    (hfull : q.history.length = historyRuns) :
    Stretch.flat (q.history.take i ++ around run offset ++ q.history.drop (i + 1)) =
      (q.history.head?.toList.flatMap Stretch.rows).filter (·.1 < play.play) ++
        (q.takePlay i offset).plays := by
  have hi := (List.getElem?_eq_some_iff.mp hat.get).1
  have htail : 0 < run.span.len - (offset + 1) := by omega
  have haround : around run offset = [(⟨run.first, { run.span with len := offset }⟩ : Run),
      ⟨run.first + (offset + 1), ⟨run.span.view, run.span.start + (offset + 1),
        run.span.len - (offset + 1)⟩⟩] := by
    simp [around, hpos, htail]
  have hplays : (q.takePlay i offset).plays =
      Stretch.flat ((q.history.take i ++ around run offset ++ q.history.drop (i + 1)).drop 1) := by
    have hlen : (q.history.take i ++ around run offset ++ q.history.drop (i + 1)).length -
        historyRuns = 1 := by
      simp only [List.length_append, List.length_take, List.length_drop, haround, List.length_cons,
        List.length_nil]
      omega
    rw [plays, takePlay_eq hat.get, lastN, hlen]
  rw [hplays, haround, hat.number]
  have hsplit := history_split hat.get
  cases i with
  | zero =>
    -- the run split is the oldest, and its head goes
    rw [List.take_zero, List.nil_append] at hsplit
    rw [hsplit, List.head?_cons, Option.toList_some, List.flatMap_singleton,
      rows_before hat.offset_lt.le]
    rfl
  | succ i =>
    -- the oldest run is another one, and goes whole
    cases hhistory : q.history with
    | nil =>
      rw [hhistory] at hi
      exact absurd hi (Nat.not_lt_zero _)
    | cons oldest runs =>
      have hbefore : oldest.first + oldest.span.len ≤ run.first := by
        have hord := h.ordered
        rw [hhistory] at hord
        have hget := hat.get
        rw [hhistory, List.getElem?_cons_succ] at hget
        exact List.rel_of_pairwise_cons hord (List.mem_of_getElem? hget)
      have hall : (Stretch.rows oldest).filter (·.1 < run.first + offset) =
          Stretch.rows oldest := by
        refine List.filter_eq_self.mpr fun x hx => ?_
        rw [Run.rows_eq] at hx
        have := (mem_numbered hx).2.1
        simp only [Stretch.length_rows, Span.len_eq] at this
        simp only [decide_eq_true_eq]
        omega
      rw [List.head?_cons, Option.toList_some, List.flatMap_singleton, hall]
      rfl

theorem length_around (run : Run) (offset : Nat) : (around run offset).length ≤ 2 :=
  List.length_filter_le _ _

theorem length_around_two {run : Run} {offset : Nat} (h : (around run offset).length = 2) :
    0 < offset ∧ offset + 1 < run.span.len := by
  have hall := List.length_filter_eq_length_iff.mp h
  simp only [List.mem_cons, List.not_mem_nil, or_false, forall_eq_or_imp, forall_eq,
    decide_eq_true_eq] at hall
  omega

/-- One play out of History is its list without it, less what the trim drops. -/
theorem Numbered.takePlay_plays (h : q.Numbered) {play : PlayRef} {i offset : Nat} {run : Run}
    (hat : PlayAt q play i offset run) :
    q.plays.filter (· ≠ (play.play, play.item.row)) =
      q.trimmedBy play ++ (q.takePlay i offset).plays := by
  obtain ⟨pre, post, hplays, hflat⟩ := hat.flat_around
  have hwithout : q.plays.filter (· ≠ (play.play, play.item.row)) = pre ++ post := by
    have hup := h.ascending
    rw [hplays, List.pairwise_append, List.pairwise_cons] at hup
    have hkeep : ∀ x ∈ pre ++ post, decide (x ≠ (play.play, play.item.row)) = true := by
      intro x hx
      rw [decide_eq_true_eq]
      rintro rfl
      rcases List.mem_append.mp hx with hx | hx
      · exact Nat.lt_irrefl _ (hup.2.2 _ hx _ List.mem_cons_self)
      · exact Nat.lt_irrefl _ (hup.2.1.1 _ hx)
    rw [hplays, List.filter_append, List.filter_cons_of_neg (by simp), ← List.filter_append,
      List.filter_eq_self.mpr hkeep]
  have hfull := splitsFull_iff (h.matchPlay_iff.mpr ⟨run, hat⟩) hat.get
  rw [hwithout, ← hflat, trimmedBy]
  by_cases hsplits : q.SplitsFull play
  · obtain ⟨hpos, hlt, hlen⟩ := hfull.mp hsplits
    rw [if_pos hsplits, h.split_full hat hpos hlt hlen]
  · have hfits : (q.history.take i ++ around run offset ++ q.history.drop (i + 1)).length ≤
        historyRuns := by
      by_contra hmany
      have hi := (List.getElem?_eq_some_iff.mp hat.get).1
      have htwo := length_around run offset
      have hbound := h.bounded
      simp only [List.length_append, List.length_take, List.length_drop] at hmany
      obtain ⟨hpos, hlt⟩ := length_around_two (show (around run offset).length = 2 by omega)
      exact hsplits (hfull.mpr ⟨hpos, hlt, by omega⟩)
    rw [if_neg hsplits, List.nil_append, plays, takePlay_eq hat.get, lastN_of_length_le hfits]

/-- A play as an edit names it. -/
def namedPlay (play : PlayRef) : Nat × Row := (play.play, play.item.row)

/-- One play of a removal, in History or not. -/
theorem Numbered.removePlay_plays (h : q.Numbered) (play : PlayRef) :
    q.plays.filter (· ≠ namedPlay play) =
      q.trimmedBy play ++ (q.removePlay false play).1.plays := by
  rw [removePlay]
  cases hm : q.matchPlay play with
  | none =>
    have hnot := h.matchPlay_none.mp hm
    have hsplits : ¬ q.SplitsFull play := by simp [SplitsFull, hm]
    rw [trimmedBy, if_neg hsplits, List.nil_append, List.filter_eq_self.mpr]
    intro x hx
    rw [decide_eq_true_eq]
    rintro rfl
    exact hnot hx
  | some found =>
    obtain ⟨i, offset⟩ := found
    obtain ⟨run, hat⟩ := h.matchPlay_iff.mp hm
    exact h.takePlay_plays hat

/-- The queue with each of `plays` out of History, before the clean-up. -/
def taken (q : QueueState) (plays : List PlayRef) : QueueState :=
  (plays.foldl (fun (q, any) play => q.removePlay any play) (q, false)).1

/-- Whether a play went before says nothing of the state after one. -/
theorem foldl_removePlay_any (plays : List PlayRef) (any : Bool) :
    (plays.foldl (fun (q, any) play => q.removePlay any play) (q, any)).1 = q.taken plays := by
  induction plays generalizing q any with
  | nil => rfl
  | cons play plays ih =>
    have hstep : (q.removePlay any play).1 = (q.removePlay false play).1 := by
      unfold removePlay
      split <;> rfl
    rw [taken, List.foldl_cons, List.foldl_cons]
    refine (ih (q.removePlay any play).2).trans ?_
    exact (congrArg (taken · plays) hstep).trans (ih (q.removePlay false play).2).symm

theorem taken_cons (play : PlayRef) (plays : List PlayRef) :
    q.taken (play :: plays) = (q.removePlay false play).1.taken plays :=
  foldl_removePlay_any plays (q.removePlay false play).2

/-- **Removing plays takes out those named**, less what the trims drop. -/
theorem Numbered.taken_plays (h : q.Numbered) (plays : List PlayRef) :
    q.plays.filter (· ∉ plays.map namedPlay) =
      (q.trims plays).filter (· ∉ plays.map namedPlay) ++ (q.taken plays).plays := by
  induction plays generalizing q with
  | nil => simp [trims, taken]
  | cons play plays ih =>
    have hone := h.removePlay_plays play
    have hnext := ih (h.lost_self.removePlay false play).1.numbered
    -- what was dropped and what is left have lost the play already
    have hlost : ∀ x ∈ q.trimmedBy play ++ (q.removePlay false play).1.plays,
        x ≠ namedPlay play := by
      intro x hx
      rw [← hone] at hx
      exact of_decide_eq_true (List.mem_filter.mp hx).2
    have hothers : ∀ x ∈ q.trimmedBy play ++ trims (q.removePlay false play).1 plays,
        x ∉ plays.map namedPlay → x ≠ namedPlay play := by
      intro x hx hnot
      rcases List.mem_append.mp hx with hx | hx
      · exact hlost x (List.mem_append_left _ hx)
      · have hleft : x ∈ (q.removePlay false play).1.plays.filter (· ∉ plays.map namedPlay) := by
          rw [hnext]
          exact List.mem_append_left _ (List.mem_filter.mpr ⟨hx, decide_eq_true hnot⟩)
        exact hlost x (List.mem_append_right _ (List.mem_filter.mp hleft).1)
    have hdropped : (q.trims (play :: plays)).filter (· ∉ (play :: plays).map namedPlay) =
        (q.trimmedBy play ++ trims (q.removePlay false play).1 plays).filter
          (· ∉ plays.map namedPlay) := by
      refine List.filter_congr fun x hx => decide_eq_decide.mpr ?_
      rw [List.map_cons, List.mem_cons, not_or]
      exact ⟨And.right, fun hnot => ⟨hothers x hx hnot, hnot⟩⟩
    calc q.plays.filter (· ∉ (play :: plays).map namedPlay)
        = (q.plays.filter (· ≠ namedPlay play)).filter (· ∉ plays.map namedPlay) := by
          rw [List.filter_filter]
          refine List.filter_congr fun x _ => ?_
          rw [← Bool.decide_and, decide_eq_decide, List.map_cons, List.mem_cons, not_or, and_comm]
      _ = (q.trimmedBy play).filter (· ∉ plays.map namedPlay) ++
            (q.removePlay false play).1.plays.filter (· ∉ plays.map namedPlay) := by
          rw [hone, List.filter_append]
      _ = (q.trims (play :: plays)).filter (· ∉ (play :: plays).map namedPlay) ++
            (q.taken (play :: plays)).plays := by
          rw [hnext, hdropped, List.filter_append, List.append_assoc, taken_cons]

/-! ### What is read after the clean-up -/

theorem rowOf_of_eq {q' : QueueState} (hsources : q'.sources = q.sources)
    (hcopies : q'.copies = q.copies) (key : String) (pos : Nat) :
    q'.rowOf key pos = q.rowOf key pos := by
  simp only [rowOf, source, copy, hsources, hcopies]

/-- What the queue still refers to reads as it did before the clean-up. -/
theorem Grounded.rowOf_cleanUp (h : q.Grounded) (hruns : ∀ run ∈ q.history, 0 < run.span.len)
    {item : ItemId} (hitem : item.row ∈ q.mentioned) :
    q.cleanUp.rowOf item.key item.pos = q.rowOf item.key item.pos := by
  obtain ⟨key, pos⟩ := item
  have hclean := (h.cleanUp hruns).1
  have hkept : ∀ s ∈ q.cleanUp.sources, q.cleanUp.source s.key = q.source s.key := by
    intro s hs
    rw [hclean.source_eq hs, h.source_eq ((mem_sources_cleanUp hruns).mp hs).1]
  rcases h.named key pos hitem with ⟨s, hs, rfl, -⟩ | ⟨c, hc, rfl, hpos⟩
  · have hs' : s ∈ q.cleanUp.sources := (mem_sources_cleanUp hruns).mpr ⟨hs, .inl ⟨pos, hitem⟩⟩
    simp only [rowOf, hclean.source_eq hs', h.source_eq hs]
  · have hc' : c ∈ q.cleanUp.copies := (mem_copies_cleanUp hruns).mpr ⟨hc, pos, hitem⟩
    have hcopy := h.copy_eq hc
    have hcopy' := hclean.copy_eq hc'
    obtain ⟨row, hrow⟩ : ∃ row, c.of.rows[pos]? = some row :=
      ⟨_, List.getElem?_eq_getElem (by rwa [← SpanList.len_eq])⟩
    obtain ⟨s, hs, hview, -⟩ := hclean.copies_ok c hc' row (List.mem_of_getElem? hrow)
    obtain ⟨view, p⟩ := row
    simp only at hview
    subst hview
    simp only [rowOf, h.source_of_copy hcopy, hclean.source_of_copy hcopy', hcopy, hcopy',
      SpanList.get_eq, hrow, hkept s hs]

/-- A named item has the row it had, whatever copies were added. -/
theorem MoreCopies.rowOf {q' : QueueState} {extra : List QueueCopy} (h : MoreCopies q q' extra)
    {item : ItemId} (hitem : q.Names item.key item.pos) :
    q'.rowOf item.key item.pos = q.rowOf item.key item.pos := by
  simp only [QueueState.rowOf, h.source, h.copy hitem]

/-- Rows of Up Next with the same item read the same. -/
theorem Valid.upNextRow_of (h : q.Valid) {q' : QueueState} (h' : q'.Valid) {i j : Nat}
    (hitem : q'.lists.upNext[j]? = q.lists.upNext[i]?)
    (hread : ∀ item ∈ q.lists.upNext, q'.rowOf item.key item.pos = q.rowOf item.key item.pos) :
    q'.upNextRow j = q.upNextRow i := by
  rw [upNextRow_eq, upNextRow_eq, h'.placed.toReadable.upNextItem_eq,
    h.placed.toReadable.upNextItem_eq, hitem]
  cases hfound : q.lists.upNext[i]? with
  | none => rfl
  | some item =>
    rw [Option.bind_some, Option.bind_some]
    exact hread item (List.mem_of_getElem? hfound)

/-! ### The edits -/

/-- A play as an edit names it, with its item. -/
def namedItem (play : PlayRef) : Nat × ItemId := (play.play, play.item)

/-- `q'` has the plays of `q` but those that `plays` name, and but those that the trims drop where
splitting a run makes one too many. -/
def PlaysOut (q q' : QueueState) (plays : List PlayRef) : Prop :=
  ∃ dropped, q.playItems.filter (· ∉ plays.map namedItem) = dropped ++ q'.playItems ∧
    dropped.map itemPlay = (q.trims plays).filter (· ∉ plays.map namedPlay)

theorem Valid.mem_playItems (h : q.Valid) {play : PlayRef} :
    namedItem play ∈ q.playItems ↔ namedPlay play ∈ q.plays := by
  rw [h.plays_eq, List.mem_map]
  constructor
  · intro hplay
    exact ⟨_, hplay, rfl⟩
  · rintro ⟨x, hx, he⟩
    have hsame : x = namedItem play := itemPlay_injective he
    exact hsame ▸ hx

theorem Valid.playsOut (h : q.Valid) {q' : QueueState} (h' : q'.Valid) {plays : List PlayRef}
    (hplays : q.plays.filter (· ∉ plays.map namedPlay) =
      (q.trims plays).filter (· ∉ plays.map namedPlay) ++ q'.plays) : PlaysOut q q' plays := by
  have hnamed : plays.map namedPlay = (plays.map namedItem).map itemPlay := by
    rw [List.map_map]
    rfl
  have hfilter : q.plays.filter (· ∉ plays.map namedPlay) =
      (q.playItems.filter (· ∉ plays.map namedItem)).map itemPlay := by
    rw [h.plays_eq, List.filter_map]
    congr 2
    funext x
    simp only [Function.comp, hnamed, List.mem_map_of_injective itemPlay_injective]
  rw [hfilter, List.map_eq_append_iff] at hplays
  obtain ⟨lost, left, hsplit, hlost, hleft⟩ := hplays
  rw [h'.plays_eq] at hleft
  rw [(List.map_injective_iff.mpr itemPlay_injective) hleft] at hsplit
  exact ⟨lost, hsplit, hlost⟩

/-- **Removing plays** takes out those named, and leaves every row of Up Next as it was. -/
theorem Valid.removePlays_out (h : q.Valid) (plays : List PlayRef) :
    PlaysOut q (q.removePlays plays) plays ∧ (q.removePlays plays).lists = q.lists ∧
      (q.removePlays plays).manual = q.manual ∧
      ∀ i, (q.removePlays plays).upNextRow i = q.upNextRow i := by
  have h' := (h.removePlays plays).valid
  have hdropped := h.numbered.taken_plays plays
  have hsame : (q.removePlays plays).plays = (q.taken plays).plays := by
    rw [QueueState.removePlays, taken]
    generalize plays.foldl (fun (q, any) play => q.removePlay any play) (q, false) = r
    obtain ⟨q', any⟩ := r
    dsimp only
    split <;> rfl
  refine ⟨h.playsOut h' (hsame ▸ hdropped), ?_⟩
  rcases h.numbered.removePlays_cases plays with he | ⟨q', hlost, he⟩
  · rw [he]
    exact ⟨rfl, rfl, fun _ => rfl⟩
  · have hframe := hlost.frame
    have hlists : (q.removePlays plays).lists = q.lists := by
      rw [he, hframe]
      rfl
    have hgrounded : ({ q' with adjusted := true } : QueueState).Grounded := by
      refine h.grounded.mono ?_ ?_ fun _ _ hm => hlost.mentioned hm
      · rw [hframe]
      · rw [hframe]
    refine ⟨hlists, by rw [he, hframe]; rfl, fun i => h.upNextRow_of h' (by rw [hlists]) ?_⟩
    intro item hitem
    have hmentioned : item.row ∈ ({ q' with adjusted := true } : QueueState).mentioned := by
      rw [← mentioned_cleanUp, ← he]
      exact h'.placed.upNext_mentioned (hlists.symm ▸ hitem)
    rw [he, hgrounded.rowOf_cleanUp hlost.numbered.canonical.1 hmentioned]
    refine rowOf_of_eq ?_ ?_ _ _
    · rw [hframe]
    · rw [hframe]

/-- The queue with a play requeued reads the play's row first, under the new key. -/
theorem Valid.requeued_reads (h : q.Valid) {play : PlayRef} {i offset : Nat} {run : Run}
    (hat : PlayAt q play i offset run) {key : String} (hk : q.hasKey key = false)
    (hplay : namedPlay play ∈ q.plays) :
    let q' := (requeued q (q.takePlay i offset) play.item key).cleanUp
    q'.lists.upNext = ⟨key, 0⟩ :: q.lists.upNext ∧ q'.manual.len = q.manual.len + 1 ∧
      (∃ played row, q.rowOf play.item.key play.item.pos = some played ∧
        q'.rowOf key 0 = some row ∧ row.source = played.source ∧ row.position = played.position) ∧
      ∀ item ∈ q.lists.upNext, q'.rowOf item.key item.pos = q.rowOf item.key item.pos := by
  have hlost := h.numbered.takePlay_lost hat
  have hframe := hlost.frame
  have hgrounded := h.requeued_grounded hlost hk hplay
  have hplaced := h.requeued_placed hlost hk play.item
  have hruns : ∀ run ∈ (requeued q (q.takePlay i offset) play.item key).history,
      0 < run.span.len := hlost.numbered.canonical.1
  have hsources : (requeued q (q.takePlay i offset) play.item key).sources = q.sources := by
    rw [requeued, hframe]
  have hcopies : (requeued q (q.takePlay i offset) play.item key).copies =
      q.copies ++ [⟨key, .fromSpans (q.sourceSpans play.item)⟩] := by
    rw [requeued, hframe]
  have hmore : MoreCopies q (requeued q (q.takePlay i offset) play.item key) _ :=
    ⟨hsources, hcopies, h.grounded, hgrounded⟩
  have hfront : (q.manual.splice 0 [playSpan ⟨key, 0⟩]).rows = (View.key key, 0) :: q.manual.rows := by
    rw [SpanList.rows_splice_front, rowsOf_cons, rows_playSpan, rowsOf_nil]
    rfl
  have hmanual : (requeued q (q.takePlay i offset) play.item key).manual =
      q.manual.splice 0 [playSpan ⟨key, 0⟩] := by
    rw [requeued, hframe]
    rfl
  have hupNext : (requeued q (q.takePlay i offset) play.item key).lists.upNext =
      ⟨key, 0⟩ :: q.lists.upNext := by
    have hlists : (requeued q (q.takePlay i offset) play.item key).lists =
        { q.lists with manual := ⟨key, 0⟩ :: q.lists.manual } := by
      have hitems : itemsOf q.shuffle (q.manual.splice 0 [playSpan ⟨key, 0⟩]).rows =
          ⟨key, 0⟩ :: itemsOf q.shuffle q.manual.rows := by
        rw [hfront]
        rfl
      rw [requeued, hframe]
      simp only [lists]
      rw [← hitems]
      rfl
    rw [hlists]
    rfl
  have hkept : ∀ item : ItemId, item ∈ ⟨key, 0⟩ :: q.lists.upNext →
      (requeued q (q.takePlay i offset) play.item key).cleanUp.rowOf item.key item.pos =
        (requeued q (q.takePlay i offset) play.item key).rowOf item.key item.pos := by
    intro item hitem
    exact hgrounded.rowOf_cleanUp hruns (hplaced.upNext_mentioned (hupNext.symm ▸ hitem))
  refine ⟨hupNext, ?_, ?_, ?_⟩
  · show (requeued q (q.takePlay i offset) play.item key).manual.len = _
    rw [hmanual, SpanList.len_eq, SpanList.len_eq, hfront, List.length_cons]
  · have hmentioned : play.item.row ∈ q.mentioned :=
      mem_mentioned.2 (.inr (.inr (.inr (.inr (List.mem_map_of_mem hplay)))))
    obtain ⟨played, hplayed, -⟩ := h.grounded.rowOf_mentioned hmentioned
    have hread : (requeued q (q.takePlay i offset) play.item key).readItem ⟨key, 0⟩ =
        some played.at := by
      have hextra := hmore.readItem_extra (c := ⟨key, .fromSpans (q.sourceSpans play.item)⟩)
        (List.mem_singleton.mpr rfl) 0
      have hplay' : q.readItem play.item = some played.at := by
        rw [readItem, hplayed]
        rfl
      rw [hextra, SpanList.rows_fromSpans, ← hplay', h.grounded.readItem_eq, List.head?_eq_getElem?]
    rw [readItem, Option.map_eq_some_iff] at hread
    obtain ⟨row, hrow, hat'⟩ := hread
    refine ⟨played, row, hplayed, ?_, Prod.mk.inj hat'⟩
    exact (hkept ⟨key, 0⟩ List.mem_cons_self).trans hrow
  · intro item hitem
    rw [hkept item (List.mem_cons_of_mem _ hitem)]
    exact hmore.rowOf (h.grounded.named _ _ (h.placed.upNext_mentioned hitem))

/-- **Requeueing a play** takes it out and reads it first in Up Next; it does nothing for a play
that is not in History, and is refused for a key in use. -/
theorem Valid.requeue_out (h : q.Valid) (play : PlayRef) (key : String) :
    (namedItem play ∉ q.playItems ∧ q.requeue play key = (.ok (), q)) ∨
      (namedItem play ∈ q.playItems ∧ q.hasKey key = true ∧
        q.requeue play key = (.error .duplicateKey, q)) ∨
      ∃ q', namedItem play ∈ q.playItems ∧ q.hasKey key = false ∧
        q.requeue play key = (.ok (), q') ∧ PlaysOut q q' [play] ∧
        q'.manual.len = q.manual.len + 1 ∧ q'.upNextLen = q.upNextLen + 1 ∧
        (∃ played row, q.rowOf play.item.key play.item.pos = some played ∧
          q'.upNextRow 0 = some row ∧ row.item = ⟨key, 0⟩ ∧ row.source = played.source ∧
          row.position = played.position) ∧
        ∀ i, q'.upNextRow (i + 1) = q.upNextRow i := by
  have hkeeps := h.requeue play key
  rcases h.numbered.requeue_cases play key with ⟨hnone, he⟩ | ⟨hsome, hk, he⟩ |
      ⟨i, offset, run, hat, hk, hplay, he⟩
  · exact .inl ⟨mt h.mem_playItems.mp (h.numbered.matchPlay_none.mp hnone), he⟩
  · exact .inr (.inl ⟨h.mem_playItems.mpr (h.numbered.matchPlay_isSome.mp hsome), hk, he⟩)
  · refine .inr (.inr ⟨_, h.mem_playItems.mpr hplay, hk, he, ?_⟩)
    rw [he] at hkeeps
    have h' := hkeeps.valid
    obtain ⟨hupNext, hmanual, ⟨played, row, hplayed, hrow, hsource, hposition⟩, hread⟩ :=
      h.requeued_reads hat hk hplay
    have htaken : (q.removePlay false play).1 = q.takePlay i offset := by
      rw [removePlay, h.numbered.matchPlay_iff.mpr ⟨run, hat⟩]
    have hdropped := h.numbered.taken_plays [play]
    rw [taken_cons, htaken] at hdropped
    refine ⟨h.playsOut h' hdropped, hmanual,
      ?_, ⟨played, row, hplayed, ?_, rowOf_item hrow, hsource, hposition⟩, fun n => ?_⟩
    · rw [← h'.placed.toReadable.length_upNext, ← h.placed.toReadable.length_upNext, hupNext]
      rfl
    · rw [upNextRow_eq, h'.placed.toReadable.upNextItem_eq, hupNext]
      exact hrow
    · exact h.upNextRow_of h' (by rw [hupNext]; rfl) hread

/-- History's rows are its plays, newest first, and there are no more of them. -/
theorem Valid.historyRow_plays (h : q.Valid) :
    q.playItems.length = q.historyLen ∧ q.playItems.Pairwise (·.1 < ·.1) ∧
      ∀ i, (q.historyRow i).map (fun r => (r.play, r.row.item)) = q.playItems.reverse[i]? := by
  have hplays := h.plays_eq
  refine ⟨?_, ?_, fun i => ?_⟩
  · rw [historyLen_eq, hplays, List.length_map]
  · have hup := h.numbered.ascending
    rw [hplays, List.pairwise_map] at hup
    exact hup
  · rw [historyRow_eq]
    cases hplay : q.plays.reverse[i]? with
    | none =>
      rw [hplays, ← List.map_reverse, List.getElem?_map, Option.map_eq_none_iff] at hplay
      rw [hplay]
      rfl
    | some x =>
      have hx : x ∈ q.plays := List.mem_reverse.mp (List.mem_of_getElem? hplay)
      obtain ⟨item, row, hitem, -, he, hrow⟩ := h.play_row hx
      rw [hplays, ← List.map_reverse, List.getElem?_map, Option.map_eq_some_iff] at hplay
      obtain ⟨shown, hshown, rfl⟩ := hplay
      have hsame : shown.2 = item := ItemId.row_inj hitem
      rw [Option.bind_some, hrow, Option.map_some, hshown, he, ← hsame]
      rfl

/-- In every queue there is: removing plays, whichever are named, takes out those that are in
History with their item, and besides them the plays of its oldest run for each of them that splits
a run of a full History; Up Next stays. Requeueing takes out its play the same way, and puts first in the Manual Queue
one item that reads what the play did; the rest of Up Next stays. The rows of History are its plays,
newest first. -/
theorem plays_taken (calls : List Call) :
    (∀ plays : List PlayRef,
      ((run calls).apply (.removePlays plays)).1 = .ok () ∧
      PlaysOut (run calls) ((run calls).edited (.removePlays plays)) plays ∧
      ((run calls).edited (.removePlays plays)).manual = (run calls).manual ∧
      ((run calls).edited (.removePlays plays)).upNextLen = (run calls).upNextLen ∧
      ∀ i, ((run calls).edited (.removePlays plays)).upNextRow i = (run calls).upNextRow i) ∧
    (∀ (play : PlayRef) (key : String),
      (namedItem play ∉ (run calls).playItems →
        (run calls).apply (.requeue play key) = (.ok (), run calls)) ∧
      (namedItem play ∈ (run calls).playItems → (run calls).hasKey key = true →
        (run calls).apply (.requeue play key) = (.error .duplicateKey, run calls)) ∧
      (namedItem play ∈ (run calls).playItems → (run calls).hasKey key = false →
        ((run calls).apply (.requeue play key)).1 = .ok () ∧
        PlaysOut (run calls) ((run calls).edited (.requeue play key)) [play] ∧
        ((run calls).edited (.requeue play key)).manual.len = (run calls).manual.len + 1 ∧
        ((run calls).edited (.requeue play key)).upNextLen = (run calls).upNextLen + 1 ∧
        (∃ played row, (run calls).rowOf play.item.key play.item.pos = some played ∧
          ((run calls).edited (.requeue play key)).upNextRow 0 = some row ∧
          row.item = ⟨key, 0⟩ ∧ row.source = played.source ∧ row.position = played.position) ∧
        ∀ i, ((run calls).edited (.requeue play key)).upNextRow (i + 1) =
          (run calls).upNextRow i)) ∧
    (run calls).plays = (run calls).playItems.map (fun x => (x.1, x.2.row)) ∧
    (run calls).playItems.length = (run calls).historyLen ∧
    (run calls).playItems.Pairwise (·.1 < ·.1) ∧
    ∀ i, ((run calls).historyRow i).map (fun r => (r.play, r.row.item)) =
      (run calls).playItems.reverse[i]? := by
  have h := run_valid calls
  obtain ⟨hlength, hascending, hrows⟩ := h.historyRow_plays
  refine ⟨fun plays => ?_, fun play key => ?_, h.plays_eq, hlength, hascending, hrows⟩
  · obtain ⟨hout, hlists, hmanual, hup⟩ := h.removePlays_out plays
    have hreadable := (h.removePlays plays).valid.placed.toReadable
    refine ⟨rfl, hout, hmanual, ?_, hup⟩
    show ((run calls).removePlays plays).upNextLen = _
    rw [← hreadable.length_upNext, ← h.placed.toReadable.length_upNext, hlists]
  · obtain ⟨hnot, he⟩ | ⟨hin, hk, he⟩ | ⟨q', hin, hk, he, hrest⟩ := h.requeue_out play key
    · exact ⟨fun _ => he, fun hin => absurd hin hnot, fun hin => absurd hin hnot⟩
    · refine ⟨fun hnot => absurd hin hnot, fun _ _ => he, fun _ hfresh => ?_⟩
      rw [hk] at hfresh
      cases hfresh
    · have happly : (run calls).apply (.requeue play key) = (.ok (), q') := he
      have hedited : (run calls).edited (.requeue play key) = q' := congrArg Prod.snd happly
      refine ⟨fun hnot => absurd hin hnot, fun _ hused => ?_, fun _ _ => ?_⟩
      · rw [hk] at hused
        cases hused
      · rw [happly, hedited]
        exact ⟨rfl, hrest⟩

end QueueState

end JewelCase.Queue
