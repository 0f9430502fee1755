import JewelCase.Queue.Record

/-!
# Play numbers

Every change of History keeps the runs in order, and only ever adds plays under new numbers:
a number that left History does not come back.
-/
namespace JewelCase.Queue

set_option autoImplicit false

open Library (Stretch)
open Library.Lists

namespace QueueState

variable {q : QueueState}

/-- What a step does to the numbers: `nextPlay` does not go down, and a play below the old
`nextPlay` was there before. -/
structure PlaysKept (q q' : QueueState) : Prop where
  next_le : q.nextPlay ≤ q'.nextPlay
  old : ∀ x ∈ q'.plays, x.1 < q.nextPlay → x ∈ q.plays

theorem PlaysKept.refl (q : QueueState) : PlaysKept q q := ⟨Nat.le_refl _, fun _ hx _ => hx⟩

theorem PlaysKept.trans {q₁ q₂ q₃ : QueueState} (h : PlaysKept q₁ q₂) (h' : PlaysKept q₂ q₃) :
    PlaysKept q₁ q₃ where
  next_le := h.next_le.trans h'.next_le
  old x hx hlt := h.old x (h'.old x hx (hlt.trans_le h.next_le)) hlt

/-- A step that leaves History and `nextPlay` alone. -/
theorem PlaysKept.of_eq {q q' : QueueState} (hh : q'.history = q.history)
    (hn : q'.nextPlay = q.nextPlay) : PlaysKept q q' := by
  refine ⟨hn.ge, fun x hx _ => ?_⟩
  rwa [plays, hh] at hx

theorem Numbered.of_eq {q q' : QueueState} (h : q.Numbered) (hh : q'.history = q.history)
    (hn : q'.nextPlay = q.nextPlay) : q'.Numbered := by
  have hp : q'.plays = q.plays := by rw [plays, hh, plays]
  refine ⟨hh ▸ h.canonical, hp ▸ h.ascending, ?_, ?_, hh ▸ h.bounded⟩
  · rw [hp, hn]
    exact h.below
  · rw [playRows, hp]
    exact h.keys

/-- A History that only lost plays. -/
theorem Numbered.of_sublist {q q' : QueueState} (h : q.Numbered)
    (hc : Stretch.Canonical q'.history) (hs : q'.plays.Sublist q.plays)
    (hn : q'.nextPlay = q.nextPlay) (hb : q'.history.length ≤ historyRuns) :
    q'.Numbered ∧ PlaysKept q q' := by
  refine ⟨⟨hc, h.ascending.sublist hs, ?_, ?_, hb⟩, hn.ge, fun x hx _ => hs.subset hx⟩
  · intro x hx
    rw [hn]
    exact h.below x (hs.subset hx)
  · exact h.keys.sub fun r hr => (hs.map Prod.snd).subset hr

/-! ### Recording -/

theorem mem_numbered {n : Nat} {rows : List Row} {x : Nat × Row} (h : x ∈ numbered n rows) :
    n ≤ x.1 ∧ x.1 < n + rows.length ∧ x.2 ∈ rows := by
  obtain ⟨i, hi⟩ := List.mem_iff_getElem?.mp h
  rw [getElem?_numbered] at hi
  obtain ⟨r, hr, rfl⟩ := Option.map_eq_some_iff.mp hi
  have := (List.getElem?_eq_some_iff.mp hr).1
  exact ⟨Nat.le_add_right n i, by simp only; omega, List.mem_of_getElem? hr⟩

theorem numbered_ascending (n : Nat) (rows : List Row) :
    (numbered n rows).Pairwise (fun a b => a.1 < b.1) := by
  have := List.pairwise_lt_range' (s := n) (n := rows.length)
  rw [← map_fst_numbered, List.pairwise_map] at this
  exact this

/-- What recording leaves: the newest of the old plays and the new ones, in order, and all of
them unless runs were trimmed. -/
structure Recorded (q : QueueState) (rows : List Row) (trimmed : Bool) (q' : QueueState) :
    Prop where
  frame : q' = { q with history := q'.history, nextPlay := q'.nextPlay }
  next : q'.nextPlay = q.nextPlay + rows.length
  suffix : q'.plays <:+ q.plays ++ numbered q.nextPlay rows
  whole : trimmed = false → q'.plays = q.plays ++ numbered q.nextPlay rows
  numbered : q'.Numbered

theorem Numbered.recorded (h : q.Numbered) (hok : ∀ s ∈ q.shuffle, s.Ok) {spans : List Span}
    (hread : Defined (rowItem q.shuffle) (rowsOf spans)) (hpos : ∀ s ∈ spans, 0 < s.len) :
    Recorded q (listRows q.shuffle (rowsOf spans)) (q.recordPlays spans).1
      (q.recordPlays spans).2 := by
  obtain ⟨all, hall, hflat⟩ :=
    exists_history (q.plays ++ numbered q.nextPlay (listRows q.shuffle (rowsOf spans)))
  have hlen := length_listRows hread
  rw [recordPlays_eq h.canonical hok hread hpos hall hflat, ← hlen]
  have hsuffix : Stretch.flat (lastN historyRuns all) <:+
      q.plays ++ numbered q.nextPlay (listRows q.shuffle (rowsOf spans)) := by
    obtain ⟨pre, hpre⟩ := lastN_suffix historyRuns all
    have hsplit : Stretch.flat all = Stretch.flat pre ++ Stretch.flat (lastN historyRuns all) := by
      rw [← Stretch.flat_append, hpre]
    rw [← hflat, hsplit]
    exact List.suffix_append _ _
  have hbelow : ∀ x ∈ q.plays ++ numbered q.nextPlay (listRows q.shuffle (rowsOf spans)),
      x.1 < q.nextPlay + (listRows q.shuffle (rowsOf spans)).length := by
    intro x hx
    rcases List.mem_append.mp hx with hx | hx
    · have := h.below x hx
      omega
    · exact (mem_numbered hx).2.1
  refine ⟨rfl, rfl, hsuffix, ?_, ?_, ?_, ?_, ?_, ?_⟩
  · intro htrim
    simp only [decide_eq_false_iff_not, not_lt] at htrim
    simp only [plays, lastN_of_length_le htrim]
    exact hflat
  · exact hall.drop _
  · refine List.Pairwise.sublist hsuffix.sublist ?_
    rw [List.pairwise_append]
    refine ⟨h.ascending, numbered_ascending _ _, ?_⟩
    intro a ha b hb
    exact (h.below a ha).trans_le (mem_numbered hb).1
  · exact fun x hx => hbelow x (hsuffix.subset hx)
  · intro r hr
    obtain ⟨x, hx, rfl⟩ := List.mem_map.mp hr
    rcases List.mem_append.mp (hsuffix.subset hx) with hx | hx
    · exact h.keys x.2 (List.mem_map.mpr ⟨x, hx, rfl⟩)
    · exact listRows_keys _ _ _ (mem_numbered hx).2.2
  · simp only [length_lastN]
    omega

theorem Recorded.kept {rows : List Row} {trimmed : Bool} {q' : QueueState}
    (h : Recorded q rows trimmed q') : PlaysKept q q' := by
  refine ⟨by rw [h.next]; omega, fun x hx hlt => ?_⟩
  rcases List.mem_append.mp (h.suffix.subset hx) with hx | hx
  · exact hx
  · have := (mem_numbered hx).1
    omega

/-! ### Finding a play -/

theorem partitionPoint_eq {α : Type} {p : α → Bool} {xs : List α} {i : Nat} {x : α}
    (hx : xs[i]? = some x) (hfail : p x = false) (hpass : ∀ j y, j < i → xs[j]? = some y → p y) :
    partitionPoint p xs = i := by
  induction xs generalizing i with
  | nil => simp at hx
  | cons y ys ih =>
    cases i with
    | zero =>
      obtain rfl : y = x := by simpa using hx
      simp [partitionPoint, hfail]
    | succ i =>
      have hy : p y = true := hpass 0 y (Nat.succ_pos i) rfl
      have := ih (by simpa using hx) (fun j z hj hz => hpass (j + 1) z (by omega) (by simpa using hz))
      unfold partitionPoint at this ⊢
      rw [List.takeWhile_cons_of_pos hy, List.length_cons, this]

theorem partitionPoint_fails {α : Type} {p : α → Bool} {xs : List α} {x : α}
    (hx : xs[partitionPoint p xs]? = some x) : p x = false := by
  induction xs with
  | nil => simp at hx
  | cons y ys ih =>
    unfold partitionPoint at hx ih
    by_cases hy : p y = true
    · rw [List.takeWhile_cons_of_pos hy, List.length_cons, List.getElem?_cons_succ] at hx
      exact ih hx
    · rw [List.takeWhile_cons_of_neg hy, List.length_nil] at hx
      obtain rfl : y = x := by simpa using hx
      simpa using hy

/-- Where a play is: its run and its offset there. -/
structure PlayAt (q : QueueState) (play : PlayRef) (i offset : Nat) (run : Run) : Prop where
  get : q.history[i]? = some run
  offset_lt : offset < run.span.len
  number : play.play = run.first + offset
  view : run.span.view = .key play.item.key
  pos : play.item.pos = run.span.start + offset

/-- **A play named by number and item is found exactly where it is.** -/
theorem Numbered.matchPlay_iff (h : q.Numbered) {play : PlayRef} {i offset : Nat} :
    q.matchPlay play = some (i, offset) ↔ ∃ run, PlayAt q play i offset run := by
  have hord := h.ordered
  unfold matchPlay findPlay
  simp only
  constructor
  · intro hm
    generalize hi : partitionPoint
      (fun run : Run => decide (run.first + run.span.len ≤ play.play)) q.history = j at hm
    cases hj : q.history[j]? with
    | none => simp [hj] at hm
    | some run =>
      have hfail := partitionPoint_fails (hi.symm ▸ hj)
      simp only [decide_eq_false_iff_not, not_le] at hfail
      by_cases hle : run.first ≤ play.play
      · simp only [hj, if_pos hle] at hm
        split at hm
        · rename_i hmatch
          obtain ⟨rfl, rfl⟩ : j = i ∧ play.play - run.first = offset := by simpa using hm
          exact ⟨run, hj, by omega, by omega, hmatch.1, hmatch.2⟩
        · cases hm
      · simp [hj, if_neg hle] at hm
  · rintro ⟨run, hget, hlt, hnum, hview, hpos⟩
    have hpp : partitionPoint
        (fun run : Run => decide (run.first + run.span.len ≤ play.play)) q.history = i := by
      refine partitionPoint_eq hget (by simp; omega) ?_
      intro j other hj hother
      obtain ⟨hj', rfl⟩ := List.getElem?_eq_some_iff.mp hother
      obtain ⟨hi', rfl⟩ := List.getElem?_eq_some_iff.mp hget
      have := List.pairwise_iff_getElem.mp hord j i hj' hi' hj
      simp only [decide_eq_true_eq]
      omega
    rw [hpp, hget]
    simp only [if_pos (show run.first ≤ play.play by omega)]
    rw [hget]
    simp only
    rw [if_pos ⟨hview, by omega⟩]
    simp
    omega

theorem mem_plays_iff {x : Nat × Row} :
    x ∈ q.plays ↔ ∃ i : Nat, ∃ run : Run, q.history[i]? = some run ∧ ∃ o < run.span.len,
      x = (run.first + o, (run.span.view, run.span.start + o)) := by
  rw [plays, Stretch.flat, List.mem_flatMap]
  constructor
  · rintro ⟨run, hrun, hx⟩
    obtain ⟨i, hi⟩ := List.mem_iff_getElem?.mp hrun
    exact ⟨i, run, hi, Run.mem_rows.1 hx⟩
  · rintro ⟨i, run, hi, hx⟩
    exact ⟨run, List.mem_of_getElem? hi, Run.mem_rows.2 hx⟩

/-- A play is found when its number and its item are both in History. -/
theorem Numbered.matchPlay_isSome (h : q.Numbered) {play : PlayRef} :
    (q.matchPlay play).isSome ↔ (play.play, play.item.row) ∈ q.plays := by
  rw [mem_plays_iff, Option.isSome_iff_exists]
  constructor
  · rintro ⟨⟨i, offset⟩, hm⟩
    obtain ⟨run, hat⟩ := h.matchPlay_iff.mp hm
    refine ⟨i, run, hat.get, offset, hat.offset_lt, ?_⟩
    rw [← hat.number, ItemId.row, ItemId.view, hat.view, hat.pos]
  · rintro ⟨i, run, hget, o, ho, hx⟩
    simp only [ItemId.row, ItemId.view, Prod.mk.injEq] at hx
    exact ⟨(i, o), h.matchPlay_iff.mpr ⟨run, hget, ho, hx.1, hx.2.1.symm, hx.2.2⟩⟩

theorem Numbered.matchPlay_none (h : q.Numbered) {play : PlayRef} :
    q.matchPlay play = none ↔ (play.play, play.item.row) ∉ q.plays := by
  rw [← h.matchPlay_isSome]
  simp

/-! ### Taking a play out -/

/-- What a run keeps around one play: the nonempty ones of its head and tail. -/
def around (run : Run) (offset : Nat) : List Run :=
  [(⟨run.first, { run.span with len := offset }⟩ : Run),
    ⟨run.first + (offset + 1), ⟨run.span.view, run.span.start + (offset + 1),
      run.span.len - (offset + 1)⟩⟩].filter (·.span.len > 0)

theorem takePlay_eq {i offset : Nat} {run : Run} (h : q.history[i]? = some run) :
    q.takePlay i offset =
      { q with
        history := lastN historyRuns
          (q.history.take i ++ around run offset ++ q.history.drop (i + 1)) } := by
  simp only [takePlay, h, trimHistory, around, lastN]

theorem flat_around {run : Run} {offset : Nat} (h : offset < run.span.len) :
    ∃ as bs, Stretch.flat (around run offset) = as ++ bs ∧ Stretch.rows run =
      as ++ (run.first + offset, (run.span.view, run.span.start + offset)) :: bs := by
  let head : Run := ⟨run.first, { run.span with len := offset }⟩
  let tail : Run := ⟨run.first + (offset + 1),
    ⟨run.span.view, run.span.start + (offset + 1), run.span.len - (offset + 1)⟩⟩
  refine ⟨Stretch.rows head, Stretch.rows tail, ?_, ?_⟩
  · have hflat : Stretch.flat (around run offset) = Stretch.flat [head, tail] :=
      Stretch.flat_filter_pos [head, tail]
    rw [hflat, Stretch.flat_cons, Stretch.flat_singleton]
  · rw [Run.rows_eq, Run.rows_eq, Run.rows_eq, Span.rows_cut run.span (Nat.le_of_lt h),
      numbered_append]
    congr 1
    have hcut := Span.rows_cut ⟨run.span.view, run.span.start + offset, run.span.len - offset⟩
      (show 1 ≤ run.span.len - offset by omega)
    rw [hcut, numbered_append]
    simp only [Stretch.length_rows, Span.len_eq]
    rw [Span.rows_eq]
    simp [numbered, tail, Nat.add_assoc, Nat.sub_sub]

theorem gap {a b : Run} (h : a.first + a.span.len < b.first) :
    Stretch.after a ≠ Stretch.head b := by
  simp only [Run.after_eq, Run.head_eq, ne_eq, Prod.mk.injEq]
  omega

/-- A History split at a run. -/
theorem history_split {i : Nat} {run : Run} (h : q.history[i]? = some run) :
    q.history = q.history.take i ++ run :: q.history.drop (i + 1) := by
  obtain ⟨hi, rfl⟩ := List.getElem?_eq_some_iff.mp h
  rw [← List.drop_eq_getElem_cons hi, List.take_append_drop]

theorem around_cases (run : Run) (offset : Nat) :
    (∀ b ∈ (around run offset).head?,
        Stretch.head b = Stretch.head run ∨ run.first < b.first) ∧
      (∀ a ∈ (around run offset).getLast?, offset < run.span.len →
        Stretch.after a = Stretch.after run ∨
          a.first + a.span.len < run.first + run.span.len) ∧
      Stretch.Canonical (around run offset) := by
  unfold around
  by_cases h0 : 0 < offset <;> by_cases h1 : 0 < run.span.len - (offset + 1)
  · simp only [List.filter_cons, h0, h1, gt_iff_lt, decide_true, if_true, List.filter_nil]
    refine ⟨by simp, ?_, ?_, ?_⟩
    · intro a ha hlt
      left
      obtain rfl : _ = a := by simpa using ha
      simp only [Run.after_eq, Prod.mk.injEq, true_and]
      omega
    · intro b hb
      simp only [List.mem_cons, List.not_mem_nil, or_false] at hb
      rcases hb with rfl | rfl
      · exact h0
      · exact h1
    · refine List.isChain_cons.mpr ⟨?_, by simp⟩
      intro b hb
      obtain rfl : _ = b := by simpa using hb
      exact gap (by simp only; omega)
  · simp only [List.filter_cons, h0, h1, gt_iff_lt, decide_true, decide_false, if_true,
      Bool.false_eq_true, if_false, List.filter_nil]
    refine ⟨by simp, ?_, Stretch.canonical_singleton h0⟩
    intro a ha hlt
    right
    obtain rfl : _ = a := by simpa using ha
    simp only
    omega
  · simp only [List.filter_cons, h0, h1, gt_iff_lt, decide_true, decide_false, if_true,
      Bool.false_eq_true, if_false, List.filter_nil]
    refine ⟨?_, ?_, Stretch.canonical_singleton h1⟩
    · intro b hb
      right
      obtain rfl : _ = b := by simpa using hb
      simp only
      omega
    · intro a ha hlt
      left
      obtain rfl : _ = a := by simpa using ha
      simp only [Run.after_eq, Prod.mk.injEq, true_and]
      omega
  · simp only [List.filter_cons, h0, h1, gt_iff_lt, decide_false, Bool.false_eq_true, if_false,
      List.filter_nil]
    exact ⟨by simp, by simp, Stretch.canonical_nil⟩

/-- Around a play, a History's runs are those of its plays without it. -/
theorem PlayAt.flat_around {play : PlayRef} {i offset : Nat} {run : Run}
    (hat : PlayAt q play i offset run) :
    ∃ pre post, q.plays = pre ++ (play.play, play.item.row) :: post ∧
      Stretch.flat (q.history.take i ++ around run offset ++ q.history.drop (i + 1)) =
        pre ++ post := by
  obtain ⟨as, bs, haround, hrow⟩ := QueueState.flat_around hat.offset_lt
  have hplay : (run.first + offset, (run.span.view, run.span.start + offset)) =
      (play.play, play.item.row) := by
    rw [hat.number, ItemId.row, ItemId.view, hat.view, hat.pos]
  rw [hplay] at hrow
  refine ⟨Stretch.flat (q.history.take i) ++ as, bs ++ Stretch.flat (q.history.drop (i + 1)), ?_, ?_⟩
  · rw [plays]
    conv_lhs => rw [history_split hat.get]
    rw [Stretch.flat_append, Stretch.flat_cons, hrow]
    simp
  · simp only [Stretch.flat_append, haround]
    simp

/-- **Taking one play out** leaves the others, under their numbers; a trim may drop old ones. -/
theorem Numbered.takePlay (h : q.Numbered) {play : PlayRef} {i offset : Nat} {run : Run}
    (hat : PlayAt q play i offset run) :
    (q.takePlay i offset).Numbered ∧ PlaysKept q (q.takePlay i offset) ∧
      ∃ pre post, q.plays = pre ++ (play.play, play.item.row) :: post ∧
        (q.takePlay i offset).plays <:+ pre ++ post := by
  have hord := h.ordered
  have hsplit := history_split hat.get
  have hcan := h.canonical
  rw [hsplit, List.pairwise_append, List.pairwise_cons] at hord
  rw [hsplit] at hcan
  obtain ⟨hheadOf, hlastOf, hcanOf⟩ := around_cases run offset
  -- the runs with the play taken out
  let runs := q.history.take i ++ around run offset ++ q.history.drop (i + 1)
  have hbefore : ∀ a ∈ (q.history.take i).getLast?, a.first + a.span.len ≤ run.first ∧
      Stretch.after a ≠ Stretch.head run := by
    intro a ha
    exact ⟨hord.2.2 a (List.mem_of_getLast? ha) run (by simp),
      (List.isChain_append.mp hcan.2).2.2 a ha run (by simp)⟩
  have hafter : ∀ b ∈ (q.history.drop (i + 1)).head?, run.first + run.span.len ≤ b.first ∧
      Stretch.after run ≠ Stretch.head b := by
    intro b hb
    exact ⟨hord.2.1.1 b (List.mem_of_head? hb),
      (List.isChain_cons.mp hcan.right.2).1 b hb⟩
  have hlt := hat.offset_lt
  have hruns : Stretch.Canonical runs := by
    refine (hcan.left.append hcanOf ?_).append hcan.right.tail ?_
    · intro a ha b hb
      obtain ⟨hle, hne⟩ := hbefore a ha
      rcases hheadOf b hb with hb' | hb'
      · rwa [hb']
      · exact gap (by omega)
    · intro a ha b hb
      obtain ⟨hle, hne⟩ := hafter b hb
      rw [List.getLast?_append] at ha
      cases hl : (around run offset).getLast? with
      | some a' =>
        obtain rfl : a' = a := by simpa [hl] using ha
        rcases hlastOf a' hl hlt with ha' | ha'
        · rwa [ha']
        · exact gap (by omega)
      | none =>
        have ha' : a ∈ (q.history.take i).getLast? := by simpa [hl] using ha
        have := (hbefore a ha').1
        exact gap (by omega)
  obtain ⟨before, after, hplays, hflat⟩ := hat.flat_around
  have htake := @takePlay_eq q i offset run hat.get
  have hsuffix : (q.takePlay i offset).plays <:+ before ++ after := by
    rw [htake, ← hflat]
    obtain ⟨pre, hpre⟩ := lastN_suffix historyRuns runs
    have hruns : Stretch.flat runs = Stretch.flat pre ++ Stretch.flat (lastN historyRuns runs) := by
      rw [← Stretch.flat_append, hpre]
    exact hruns ▸ List.suffix_append _ _
  have hsub : (q.takePlay i offset).plays.Sublist q.plays := by
    rw [hplays]
    refine hsuffix.sublist.trans ?_
    exact (List.Sublist.refl _).append (List.sublist_cons_self _ _)
  have hcanon : Stretch.Canonical (q.takePlay i offset).history := by
    rw [htake]
    exact hruns.drop _
  have hbound : (q.takePlay i offset).history.length ≤ historyRuns := by
    rw [htake]
    simp only [length_lastN]
    omega
  have hnum := h.of_sublist hcanon hsub (by rw [htake]) hbound
  exact ⟨hnum.1, hnum.2, _, _, hplays, hsuffix⟩

/-! ### Dropping the newest plays -/

/-- History up to offset `offset` of run `i`. -/
def truncated (q : QueueState) (i offset : Nat) : List Run :=
  match q.history[i]? with
  | none => q.history
  | some run =>
    q.history.take i ++
      if offset > 0 then [{ run with span := { run.span with len := offset } }] else []

theorem Numbered.truncated (h : q.Numbered) {i offset : Nat} {run : Run}
    (hi : q.history[i]? = some run) (ho : offset < run.span.len) :
    Stretch.Canonical (q.truncated i offset) ∧
      (q.truncated i offset).length ≤ q.history.length ∧
      q.plays = Stretch.flat (q.truncated i offset) ++
        (numbered (run.first + offset) ((Stretch.rows run.span).drop offset) ++
          Stretch.flat (q.history.drop (i + 1))) := by
  have hsplit := history_split hi
  have hcan := h.canonical
  have hlen := congrArg List.length hsplit
  rw [hsplit] at hcan
  have hrow : Stretch.rows run =
      numbered run.first (Stretch.rows { run.span with len := offset }) ++
        numbered (run.first + offset) ((Stretch.rows run.span).drop offset) := by
    rw [Run.rows_eq, Span.rows_cut run.span (Nat.le_of_lt ho), numbered_append,
      List.drop_left' (by simp), Stretch.length_rows, Span.len_eq]
  have hplays : q.plays = Stretch.flat (q.history.take i) ++
      (Stretch.rows run ++ Stretch.flat (q.history.drop (i + 1))) := by
    rw [plays]
    conv_lhs => rw [hsplit]
    rw [Stretch.flat_append, Stretch.flat_cons]
  simp only [QueueState.truncated, hi]
  by_cases h0 : offset > 0
  · rw [if_pos h0]
    refine ⟨?_, ?_, ?_⟩
    · refine hcan.left.append (Stretch.canonical_singleton h0) ?_
      intro a ha b hb
      obtain rfl : _ = b := by simpa using hb
      exact (List.isChain_append.mp hcan.2).2.2 a ha run (by simp)
    · simp only [List.length_append, List.length_cons, List.length_nil] at hlen ⊢
      omega
    · rw [hplays, hrow, Stretch.flat_append, Stretch.flat_singleton, Run.rows_eq]
      simp
  · obtain rfl : offset = 0 := by omega
    rw [if_neg h0, List.append_nil]
    refine ⟨hcan.left, ?_, ?_⟩
    · simp only [List.length_append, List.length_cons] at hlen
      omega
    · rw [hplays, Run.rows_eq]
      simp

/-- A truncated History keeps its numbers. -/
theorem Numbered.truncate (h : q.Numbered) {q' : QueueState} {i offset : Nat} {run : Run}
    (hi : q.history[i]? = some run) (ho : offset < run.span.len)
    (hh : q'.history = q.truncated i offset) (hn : q'.nextPlay = q.nextPlay) :
    q'.Numbered ∧ PlaysKept q q' := by
  obtain ⟨hc, hl, hp⟩ := h.truncated hi ho
  refine h.of_sublist (hh ▸ hc) ?_ hn (hh ▸ hl.trans h.bounded)
  rw [hp, plays, hh]
  exact List.sublist_append_left _ _

theorem popPlay_eq {run : Run} (h : q.history.getLast? = some run) (hp : 0 < run.span.len) :
    q.popPlay = { q with
      history := q.truncated (q.history.length - 1) (run.span.len - 1) } := by
  have hlast : q.history[q.history.length - 1]? = some run := by
    rw [← List.getLast?_eq_getElem?, h]
  simp only [popPlay, h, QueueState.truncated, hlast, List.dropLast_eq_take]
  by_cases h1 : run.span.len - 1 = 0
  · rw [if_pos h1, if_neg (by omega), List.append_nil]
  · rw [if_neg h1, if_pos (by omega)]

/-- **The newest play** is the last row of the last run, and popping it leaves the others. -/
theorem Numbered.popPlay (h : q.Numbered) {run : Run} (hl : q.history.getLast? = some run) :
    q.popPlay.Numbered ∧ PlaysKept q q.popPlay ∧
      q.plays = q.popPlay.plays ++
        [(run.first + (run.span.len - 1), (run.span.view, run.span.start + (run.span.len - 1)))]
      := by
  have hp : 0 < run.span.len := h.canonical.1 run (List.mem_of_getLast? hl)
  have hlast : q.history[q.history.length - 1]? = some run := by
    rw [← List.getLast?_eq_getElem?, hl]
  have heq := popPlay_eq hl hp
  have hhist : q.popPlay.history = q.truncated (q.history.length - 1) (run.span.len - 1) := by
    rw [heq]
  obtain ⟨hnum, hkept⟩ := h.truncate hlast (by omega) hhist (by rw [heq])
  refine ⟨hnum, hkept, ?_⟩
  obtain ⟨-, -, hplays⟩ := h.truncated hlast (show run.span.len - 1 < run.span.len by omega)
  have hlen := List.length_pos_iff.mpr (show q.history ≠ [] by rintro he; simp [he] at hl)
  rw [List.drop_of_length_le (show q.history.length ≤ q.history.length - 1 + 1 by omega)] at hplays
  rw [hplays, heq]
  congr 1
  have hcut := Span.rows_cut run.span (show run.span.len - 1 ≤ run.span.len by omega)
  rw [hcut, List.drop_left' (by simp), Span.rows_eq]
  simp [numbered, show run.span.len - (run.span.len - 1) = 1 by omega]

end QueueState

end JewelCase.Queue
