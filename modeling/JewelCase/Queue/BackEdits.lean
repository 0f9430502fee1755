import JewelCase.Queue.Valid

/-!
# Edits of History

Removing plays, re-queueing one and stepping back to the last: each keeps the queue valid. What
History lets go of is either gone for good and cleaned up, or becomes the item playing.
-/
namespace JewelCase.Queue

set_option autoImplicit false

open Library (Stretch)
open Library.Lists

namespace QueueState

variable {q : QueueState}

/-! ### Removing plays -/

/-- A queue whose History lost plays, and nothing else changed. -/
structure PlaysLost (q q' : QueueState) : Prop where
  frame : q' = { q with history := q'.history }
  numbered : q'.Numbered
  kept : PlaysKept q q'
  sublist : q'.plays.Sublist q.plays

theorem Numbered.lost_self (h : q.Numbered) : PlaysLost q q :=
  ⟨rfl, h, PlaysKept.refl q, List.Sublist.refl _⟩

theorem Numbered.takePlay_lost (h : q.Numbered) {play : PlayRef} {i offset : Nat} {run : Run}
    (hat : PlayAt q play i offset run) : PlaysLost q (q.takePlay i offset) := by
  obtain ⟨hn, hk, pre, post, hsplit, hsuffix⟩ := h.takePlay hat
  refine ⟨?_, hn, hk, ?_⟩
  · rw [takePlay_eq hat.get]
  · rw [hsplit]
    exact hsuffix.sublist.trans (List.Sublist.append_left (List.sublist_cons_self _ _) _)

/-- One removal: the play goes if History has it, and the answer says whether any went. -/
theorem PlaysLost.removePlay {q₁ : QueueState} (h : PlaysLost q q₁) (any : Bool)
    (play : PlayRef) :
    PlaysLost q (q₁.removePlay any play).1 ∧
      ((q₁.removePlay any play).2 = false → any = false ∧ (q₁.removePlay any play).1 = q₁) := by
  unfold QueueState.removePlay
  cases hm : q₁.matchPlay play with
  | none => exact ⟨h, fun ha => ⟨ha, rfl⟩⟩
  | some at_ =>
    obtain ⟨i, offset⟩ := at_
    obtain ⟨run, hat⟩ := h.numbered.matchPlay_iff.mp hm
    have h' := h.numbered.takePlay_lost hat
    refine ⟨⟨?_, h'.numbered, h.kept.trans h'.kept, h'.sublist.trans h.sublist⟩, fun ha => by cases ha⟩
    simp only
    rw [h'.frame, h.frame]

theorem PlaysLost.removePlays {q₁ : QueueState} (h : PlaysLost q q₁) (any : Bool)
    (plays : List PlayRef) :
    let r := plays.foldl (fun (q, any) play => q.removePlay any play) (q₁, any)
    PlaysLost q r.1 ∧ (r.2 = false → any = false ∧ r.1 = q₁) := by
  induction plays generalizing q₁ any with
  | nil => exact ⟨h, fun ha => ⟨ha, rfl⟩⟩
  | cons play plays ih =>
    obtain ⟨h', hsame⟩ := h.removePlay any play
    obtain ⟨h'', hsame'⟩ := ih h' (q₁.removePlay any play).2
    refine ⟨h'', fun ha => ?_⟩
    obtain ⟨hany, he⟩ := hsame' ha
    obtain ⟨hany', he'⟩ := hsame hany
    exact ⟨hany', he.trans he'⟩

/-- **What removing plays does**: nothing, or plays go and what only they read goes with them. -/
theorem Numbered.removePlays_cases (h : q.Numbered) (plays : List PlayRef) :
    q.removePlays plays = q ∨
      ∃ q', PlaysLost q q' ∧ q.removePlays plays = cleanUp { q' with adjusted := true } := by
  obtain ⟨hlost, hsame⟩ := h.lost_self.removePlays false plays
  unfold QueueState.removePlays
  cases hany : (plays.foldl (fun (q, any) play => q.removePlay any play) (q, false)).2 with
  | false =>
    left
    simp only [hany, Bool.false_eq_true, if_false]
    exact (hsame hany).2
  | true => exact Or.inr ⟨_, hlost, by simp only [hany, if_true]⟩

theorem PlaysLost.mentioned {q' : QueueState} (h : PlaysLost q q') {r : Row}
    (hr : r ∈ q'.mentioned) : r ∈ q.mentioned := by
  have hsub := (h.sublist.map Prod.snd).subset
  rw [mem_mentioned] at hr ⊢
  rw [h.frame] at hr
  rcases hr with hr | hr | hr | hr | hr
  · exact Or.inl hr
  · exact Or.inr (Or.inl hr)
  · exact Or.inr (Or.inr (Or.inl hr))
  · exact Or.inr (Or.inr (Or.inr (Or.inl hr)))
  · refine Or.inr (Or.inr (Or.inr (Or.inr (hsub ?_))))
    rw [← h.frame] at hr
    exact hr

theorem Valid.removePlays (h : q.Valid) (plays : List PlayRef) :
    Keeps q (q.removePlays plays) := by
  rcases h.numbered.removePlays_cases plays with he | ⟨q', hlost, he⟩
  · rw [he]
    exact h.keeps
  · rw [he]
    have hframe := hlost.frame
    refine keeps_cleanUp ?_ (hlost.numbered.of_eq rfl rfl) ?_ (hlost.kept.trans (.of_eq rfl rfl))
    · rw [hframe]
      exact h.placed.of_eq rfl rfl rfl rfl rfl
    · refine h.grounded.mono ?_ ?_ fun _ _ hm => hlost.mentioned hm
      · rw [hframe]
      · rw [hframe]

/-! ### Re-queueing -/

/-- A queue with a new item at the front of the Manual Queue. -/
theorem Placed.queueFront (h : q.Placed) {item : ItemId} (hup : item ∉ q.lists.upNext)
    (hcur : q.current ≠ some item) :
    Placed { q with manual := q.manual.splice 0 [playSpan item] } := by
  have hrows : (q.manual.splice 0 [playSpan item]).rows = item.row :: q.manual.rows := by
    rw [SpanList.rows_splice_front, rowsOf_cons, rows_playSpan, rowsOf_nil]
    rfl
  refine ⟨⟨h.cursor_le, ?_, h.shuffle_ok, h.order_reads⟩, ?_⟩
  · simp only [hrows]
    intro r hr
    rcases List.mem_cons.mp hr with rfl | hr
    · simp [ItemId.row, ItemId.view]
    · exact h.manual_keys r hr
  · refine @Lists.Sound.insert _ _ [item] .manualStart h.sound ?_ (by simp) (by simpa using hup)
      (fun ha => by cases ha) ?_
    · simp only [Lists.insert, lists, hrows, itemsOf, List.filterMap_cons, rowItem_row,
        List.cons_append, List.nil_append]
    · intro x hx hxi
      obtain rfl : x = item := by simpa using hxi
      exact hcur hx

/-- A new key is read by no item of the queue. -/
theorem Valid.fresh_item (h : q.Valid) {key : String} (hk : q.hasKey key = false) (pos : Nat) :
    (⟨key, pos⟩ : ItemId) ∉ q.lists.upNext ∧ q.current ≠ some ⟨key, pos⟩ := by
  have hf : (View.key key, pos) ∉ q.mentioned := h.grounded.fresh hk
  refine ⟨fun hm => hf (h.placed.upNext_mentioned hm), fun hc => hf (current_mentioned hc)⟩

/-- A play is a row of a source or copy. -/
theorem Valid.play_named (h : q.Valid) {n : Nat} {item : ItemId} (hp : (n, item.row) ∈ q.plays) :
    q.Names item.key item.pos := by
  refine h.grounded.named item.key item.pos (mem_mentioned.2 ?_)
  exact Or.inr (Or.inr (Or.inr (Or.inr (List.mem_map.mpr ⟨_, hp, rfl⟩))))

/-- The copy of one row. -/
theorem Valid.copy_row (h : q.Valid) {item : ItemId} (hn : q.Names item.key item.pos) :
    (∀ r ∈ (SpanList.fromSpans (q.sourceSpans item)).rows, q.NamesSource r) ∧
      (SpanList.fromSpans (q.sourceSpans item)).len = 1 := by
  have := @Grounded.sourceRange q h.grounded item.key item.pos 1 (by
    intro pos hlo hhi
    obtain rfl : pos = item.pos := by omega
    exact hn)
  rwa [SpanList.len_eq, SpanList.rows_fromSpans]

/-- The queue after a play moved to the front of the Manual Queue, before the clean-up. -/
def requeued (q q' : QueueState) (item : ItemId) (key : String) : QueueState :=
  { q' with
    copies := q'.copies ++ [⟨key, .fromSpans (q.sourceSpans item)⟩]
    manual := q'.manual.splice 0 [⟨.key key, 0, 1⟩]
    adjusted := true }

/-- **What re-queueing does**: nothing, or it is refused, or the play goes and a copy of it is
first in the Manual Queue. -/
theorem Numbered.requeue_cases (h : q.Numbered) (play : PlayRef) (key : String) :
    (q.matchPlay play = none ∧ q.requeue play key = (.ok (), q)) ∨
      ((q.matchPlay play).isSome ∧ q.hasKey key = true ∧
        q.requeue play key = (.error .duplicateKey, q)) ∨
      ∃ i offset run, PlayAt q play i offset run ∧ q.hasKey key = false ∧
        (play.play, play.item.row) ∈ q.plays ∧
        q.requeue play key =
          (.ok (), (requeued q (q.takePlay i offset) play.item key).cleanUp) := by
  unfold QueueState.requeue
  cases hm : q.matchPlay play with
  | none => exact Or.inl ⟨rfl, rfl⟩
  | some at_ =>
    obtain ⟨i, offset⟩ := at_
    obtain ⟨run, hat⟩ := h.matchPlay_iff.mp hm
    cases hk : q.hasKey key with
    | true => exact Or.inr (Or.inl ⟨rfl, rfl, by simp⟩)
    | false =>
      refine Or.inr (Or.inr ⟨i, offset, run, hat, rfl, ?_, by simp [requeued]⟩)
      exact h.matchPlay_isSome.mp (by rw [hm]; rfl)

theorem Valid.requeued_placed (h : q.Valid) {q' : QueueState} (hlost : PlaysLost q q')
    {key : String} (hk : q.hasKey key = false) (item : ItemId) : (requeued q q' item key).Placed := by
  obtain ⟨hup, hcur⟩ := h.fresh_item hk 0
  have hframe := hlost.frame
  have hplaced : q'.Placed := by
    rw [hframe]
    exact h.placed.of_eq rfl rfl rfl rfl rfl
  have hlists : q'.lists = q.lists := by rw [hframe]; rfl
  have hcurr : q'.current = q.current := by rw [hframe]
  have hfront := @Placed.queueFront q' hplaced ⟨key, 0⟩ (hlists ▸ hup) (hcurr ▸ hcur)
  exact hfront.of_eq rfl rfl rfl rfl rfl

theorem Valid.requeued_grounded (h : q.Valid) {q' : QueueState} (hlost : PlaysLost q q')
    {key : String} (hk : q.hasKey key = false) {n : Nat} {item : ItemId}
    (hplay : (n, item.row) ∈ q.plays) : (requeued q q' item key).Grounded := by
  obtain ⟨hcs, hlen⟩ := h.copy_row (h.play_named hplay)
  have hframe := hlost.frame
  have hsrc : q'.sources = q.sources := by rw [hframe]
  have hcop : q'.copies = q.copies := by rw [hframe]
  refine @Grounded.extend q _ h.grounded [] [⟨key, .fromSpans (q.sourceSpans item)⟩]
    (by simp [requeued, hsrc]) (by simp [requeued, hcop]) ?_ ?_ ?_
  · simp only [requeued, hsrc, hcop]
    exact nodup_snoc_copy h.grounded hk
  · intro k pos hm
    have hrow : (View.key k, pos) ∈ q'.mentioned ∨ (View.key k, pos) = (View.key key, 0) := by
      rw [mem_mentioned] at hm
      have hman := SpanList.rows_splice_front q'.manual [playSpan ⟨key, 0⟩]
      rw [rowsOf_cons, rows_playSpan, rowsOf_nil] at hman
      simp only [playSpan, ItemId.row, ItemId.view] at hman
      simp only [requeued, hman, baseRows, playRows, plays] at hm
      rw [mem_mentioned]
      simp only [baseRows, playRows, plays]
      grind
    rcases hrow with hrow | hrow
    · exact Or.inl (hlost.mentioned hrow)
    · obtain ⟨hk', rfl⟩ := Prod.mk.inj hrow
      obtain rfl : k = key := by simpa using hk'
      exact Or.inr (Or.inr ⟨_, List.mem_singleton.mpr rfl, rfl, by rw [hlen]; exact Nat.one_pos⟩)
  · intro c hc
    obtain rfl : c = _ := List.mem_singleton.mp hc
    exact hcs

theorem Valid.requeue (h : q.Valid) (play : PlayRef) (key : String) :
    Keeps q (q.requeue play key).2 := by
  rcases h.numbered.requeue_cases play key with ⟨-, he⟩ | ⟨-, -, he⟩ |
      ⟨i, offset, run, hat, hk, hp, he⟩
  · rw [he]
    exact h.keeps
  · rw [he]
    exact h.keeps
  · have hlost := h.numbered.takePlay_lost hat
    rw [he]
    exact keeps_cleanUp (h.requeued_placed hlost hk _) (hlost.numbered.of_eq rfl rfl)
      (h.requeued_grounded hlost hk hp) (hlost.kept.trans (.of_eq rfl rfl))

/-! ### Stepping back -/

theorem Readable.justPassed_iff (h : q.Readable) (old : ItemId) :
    q.justPassed old = true ↔ q.lists.passed.getLast? = some old := by
  have hget : q.lists.passed.getLast? = q.lists.passed[q.cursor - 1]? := by
    rw [List.getLast?_eq_getElem?, h.length_passed]
  rw [hget, h.passed_eq, justPassed, checkedSub]
  by_cases hc : 1 ≤ q.cursor
  · rw [if_pos hc, List.getElem?_take_of_lt (by omega), h.getElem?_order]
    simp
  · rw [if_neg hc, show q.cursor = 0 by omega]
    simp

/-- **Putting back**: the cursor steps back over the item, or the item is queued first. -/
theorem Readable.putBack_cases (h : q.Readable) (old : ItemId) :
    (q.lists.manual = [] ∧ q.lists.passed.getLast? = some old ∧
        q.putBack old = { q with cursor := q.cursor - 1 }) ∨
      (¬(q.lists.manual = [] ∧ q.lists.passed.getLast? = some old) ∧
        q.putBack old = { q with manual := q.manual.splice 0 [playSpan old] }) := by
  have hm : q.manual.isEmpty = true ↔ q.lists.manual = [] := by
    rw [SpanList.isEmpty_iff_len, ← SpanList.len_eq, ← h.length_manual, List.length_eq_zero_iff]
  unfold QueueState.putBack
  simp only [Bool.and_eq_true, h.justPassed_iff, hm]
  by_cases hc : q.lists.manual = [] ∧ q.lists.passed.getLast? = some old
  · exact Or.inl ⟨hc.1, hc.2, if_pos hc⟩
  · exact Or.inr ⟨hc, if_neg hc⟩

/-- What is left where it was by putting the playing item back. -/
structure Stepped (q q' : QueueState) : Prop where
  frame : q' = { q with cursor := q'.cursor, manual := q'.manual, history := q'.history }
  readable : q'.Readable

theorem Readable.putBack (h : q.Readable) (old : ItemId) :
    Stepped q (q.putBack old) ∧ (q.putBack old).history = q.history ∧
      (q.putBack old).lists = q.lists.back old := by
  rcases h.putBack_cases old with ⟨hm, hp, he⟩ | ⟨hc, he⟩
  · rw [he]
    refine ⟨⟨rfl, (Nat.sub_le _ _).trans h.cursor_le, h.manual_keys, h.shuffle_ok, h.order_reads⟩,
      rfl, ?_⟩
    have hpos : 0 < q.cursor := by
      rw [← h.length_passed]
      exact List.length_pos_iff.mpr fun hn => by rw [hn] at hp; cases hp
    have hlast : q.lists.order[q.cursor - 1]? = some old := by
      rw [List.getLast?_eq_getElem?, h.length_passed, h.passed_eq,
        List.getElem?_take_of_lt (by omega)] at hp
      exact hp
    have hlen := (List.getElem?_eq_some_iff.mp hlast).1
    rw [Lists.back, if_pos ⟨hm, hp⟩]
    have hread : Readable { q with cursor := q.cursor - 1 } :=
      ⟨(Nat.sub_le _ _).trans h.cursor_le, h.manual_keys, h.shuffle_ok, h.order_reads⟩
    have hpassed := hread.passed_eq
    have hahead := hread.ahead_eq
    have hord : (lists { q with cursor := q.cursor - 1 }).order = q.lists.order := by
      rw [← order_items, ← order_items]
    rw [hord] at hpassed hahead
    have h1 : (lists { q with cursor := q.cursor - 1 }).passed = q.lists.passed.dropLast := by
      rw [hpassed, List.dropLast_eq_take, h.length_passed, h.passed_eq, List.take_take,
        Nat.min_eq_left (Nat.sub_le _ _)]
    have h2 : (lists { q with cursor := q.cursor - 1 }).ahead = old :: q.lists.ahead := by
      rw [hahead, h.ahead_eq, List.drop_eq_getElem_cons hlen]
      rw [List.getElem?_eq_getElem hlen, Option.some.injEq] at hlast
      simp only [hlast]
      rw [show q.cursor - 1 + 1 = q.cursor by omega]
    calc lists { q with cursor := q.cursor - 1 }
        = ⟨q.lists.manual, (lists { q with cursor := q.cursor - 1 }).passed,
            (lists { q with cursor := q.cursor - 1 }).ahead, q.current⟩ := rfl
      _ = _ := by rw [h1, h2]; rfl
  · rw [he]
    have hrows : (q.manual.splice 0 [playSpan old]).rows = old.row :: q.manual.rows := by
      rw [SpanList.rows_splice_front, rowsOf_cons, rows_playSpan, rowsOf_nil]
      rfl
    refine ⟨⟨rfl, h.cursor_le, ?_, h.shuffle_ok, h.order_reads⟩, rfl, ?_⟩
    · simp only [hrows]
      intro r hr
      rcases List.mem_cons.mp hr with rfl | hr
      · simp [ItemId.row, ItemId.view]
      · exact h.manual_keys r hr
    · rw [Lists.back, if_neg hc]
      simp only [lists, hrows, itemsOf, List.filterMap_cons, rowItem_row]

theorem Numbered.stepBack (h : q.Numbered) (hr : q.Readable) {run : Run}
    (hl : q.history.getLast? = some run) :
    Stepped q q.stepBack ∧ q.stepBack.lists = q.lists.putBack ∧
      q.stepBack.Numbered ∧ PlaysKept q q.stepBack ∧
      q.plays = q.stepBack.plays ++
        [(run.first + (run.span.len - 1), (run.span.view, run.span.start + (run.span.len - 1)))]
      := by
  obtain ⟨hn, hk, hp⟩ := h.popPlay hl
  have hpos : 0 < run.span.len := h.canonical.1 run (List.mem_of_getLast? hl)
  have hframe : q.popPlay = { q with history := q.popPlay.history } := by
    rw [popPlay_eq hl hpos]
  have hread : q.popPlay.Readable := by
    rw [hframe]
    exact ⟨hr.cursor_le, hr.manual_keys, hr.shuffle_ok, hr.order_reads⟩
  have hlists : q.popPlay.lists = q.lists := by rw [hframe]; rfl
  unfold QueueState.stepBack Lists.putBack
  rw [show q.lists.current = q.current from rfl]
  cases hc : q.current with
  | none =>
    simp only [Option.elim_none]
    exact ⟨⟨by rw [hframe], hread⟩, hlists, hn, hk, hp⟩
  | some old =>
    simp only [Option.elim_some]
    obtain ⟨hst, hh, hl'⟩ := hread.putBack old
    have hnext : (q.popPlay.putBack old).nextPlay = q.popPlay.nextPlay := by rw [hst.frame]
    refine ⟨⟨?_, hst.readable⟩, by rw [hl', hlists], hn.of_eq hh hnext,
      hk.trans (.of_eq hh hnext), ?_⟩
    · rw [hst.frame, hframe]
    · rw [hp, plays, plays, hh]

/-- The newest play's item. -/
def lastItem (q : QueueState) : Option ItemId :=
  q.history.getLast?.bind fun run =>
    run.span.view.key?.map fun key => ⟨key, run.span.start + run.span.len - 1⟩

/-- Whether stepping back to `x` needs a copy: Up Next would hold `x` itself. -/
def CopyNeeded (q : QueueState) (x : ItemId) : Prop := x ∈ q.lists.putBack.upNext

instance (q : QueueState) (x : ItemId) : Decidable (q.CopyNeeded x) :=
  inferInstanceAs (Decidable (_ ∈ _))

/-- One step back to `x`, or to a copy of it under `key` where Up Next holds `x`. -/
def steppedTo (q : QueueState) (x : ItemId) (key : String) : QueueState :=
  if q.CopyNeeded x then
    { q.stepBack with
      copies := q.copies ++ [⟨key, .fromSpans (q.sourceSpans x)⟩]
      current := some ⟨key, 0⟩ }
  else { q.stepBack with current := some x }

theorem Placed.copyNeeded_iff (h : q.Placed) (x : ItemId) :
    (q.current = some x ∨ (q.findItem x).isSome) ↔ q.CopyNeeded x := by
  have hf : (q.findItem x).isSome ↔ x ∈ q.lists.upNext := by
    rw [Option.isSome_iff_ne_none, ne_eq, h.findItem_none, not_not]
  rw [hf, CopyNeeded, Lists.upNext_putBack, List.mem_append, Option.mem_toList]
  rfl

/-- **What Previous does**: nothing without History; it is refused where a copy is needed and
the key is taken; else the newest play becomes the item playing, itself or as a copy. -/
theorem Valid.previous_cases (h : q.Valid) (key : String) :
    (q.history = [] ∧ q.previous key = (.ok (), q)) ∨
      ∃ run x, q.history.getLast? = some run ∧ q.lastItem = some x ∧
        x.row = (run.span.view, run.span.start + (run.span.len - 1)) ∧
        ((q.CopyNeeded x ∧ q.hasKey key = true ∧
            q.previous key = (.error .duplicateKey, q)) ∨
          ((q.CopyNeeded x → q.hasKey key = false) ∧
            q.previous key = (.ok (), q.steppedTo x key))) := by
  cases hl : q.history.getLast? with
  | none =>
    refine Or.inl ⟨List.getLast?_eq_none_iff.mp hl, ?_⟩
    rw [QueueState.previous, hl]
  | some run =>
    right
    have hpos : 0 < run.span.len := h.runs_pos run (List.mem_of_getLast? hl)
    obtain ⟨hst, -, -, -, hp⟩ := h.numbered.stepBack h.placed.toReadable hl
    have hrow : (run.span.view, run.span.start + (run.span.len - 1)) ∈ q.playRows := by
      rw [playRows, hp]
      simp
    obtain ⟨k, hk⟩ := h.numbered.keys.of_mem hrow
    simp only at hk
    have hsame : run.span.start + run.span.len - 1 = run.span.start + (run.span.len - 1) := by
      omega
    have hcop : q.stepBack.copies = q.copies := by rw [hst.frame]
    have hspans : ∀ x, q.stepBack.sourceSpans x = q.sourceSpans x := by
      intro x
      simp only [sourceSpans, sourceRange, copy, hcop]
    refine ⟨run, ⟨k, run.span.start + run.span.len - 1⟩, rfl, ?_, ?_, ?_⟩
    · simp [lastItem, hl, hk, View.key?]
    · rw [ItemId.row, ItemId.view, hk, hsame]
    · have hneed := h.placed.copyNeeded_iff ⟨k, run.span.start + run.span.len - 1⟩
      unfold QueueState.previous
      simp only [hl, hk, hspans]
      by_cases hc : q.CopyNeeded ⟨k, run.span.start + run.span.len - 1⟩
      · have hn := hneed.mpr hc
        cases hkey : q.hasKey key with
        | true =>
          refine Or.inl ⟨hc, rfl, ?_⟩
          rw [if_pos ⟨hn, rfl⟩]
        | false =>
          refine Or.inr ⟨fun _ => rfl, ?_⟩
          rw [if_neg (by simp), if_pos hn, hcop, steppedTo, if_pos hc]
      · have hn := mt hneed.mp hc
        refine Or.inr ⟨fun h => absurd h hc, ?_⟩
        rw [if_neg fun h => hn h.1, if_neg hn, steppedTo, if_neg hc]

/-- A queue gone back: rows of History moved to Up Next or to what plays, at most one copy was
made for those that Up Next held, and the context is the same. -/
structure WentBack (q q' : QueueState) (cs : List QueueCopy) : Prop where
  placed : q'.Placed
  numbered : q'.Numbered
  kept : PlaysKept q q'
  sources : q'.sources = q.sources
  copies : q'.copies = q.copies ++ cs
  order : q'.order = q.order
  shuffle : q'.shuffle = q.shuffle
  one_copy : cs.length ≤ 1
  copies_ok : ∀ c ∈ cs, q.hasKey c.key = false ∧ (∀ r ∈ c.of.rows, q.NamesSource r) ∧
    q'.Refers c.key
  from_old : ∀ it, q'.current = some it ∨ it ∈ q'.lists.manual →
    it.row ∈ q.mentioned ∨ ∃ c ∈ cs, c.key = it.key ∧ it.pos < c.of.len
  plays : ∀ r ∈ q'.playRows, r ∈ q.playRows
  to_new : ∀ it, q.current = some it ∨ it ∈ q.lists.manual ∨ it.row ∈ q.playRows →
    it.row ∈ q'.mentioned

/-- **Going back** leaves nothing dangling and nothing over. -/
theorem Valid.wentBack (h : q.Valid) {q' : QueueState} {cs : List QueueCopy}
    (hb : WentBack q q' cs) : Keeps q q' := by
  have hbase : q'.baseRows = q.baseRows := by rw [baseRows, baseRows, hb.shuffle]
  have hitem : ∀ {q : QueueState}, q.Placed → ∀ {r : Row}, r ∈ q.manual.rows →
      ∃ it ∈ q.lists.manual, r = it.row := by
    intro q hp r hr
    rw [hp.manual_items]
    obtain ⟨it, hit⟩ := Option.isSome_iff_exists.mp (keyItem_isSome (hp.manual_keys r hr))
    exact ⟨it, List.mem_filterMap.mpr ⟨r, hr, hit⟩, keyItem_eq_some.1 hit⟩
  refine ⟨⟨hb.placed, hb.numbered, ?_, ?_⟩, hb.kept⟩
  · refine @Grounded.extend q _ h.grounded [] cs (by simp [hb.sources]) hb.copies ?_ ?_
      fun c hc => (hb.copies_ok c hc).2.1
    · rw [hb.sources, hb.copies]
      have hone := hb.one_copy
      have hok := hb.copies_ok
      cases cs with
      | nil => simpa using h.grounded.keys_nodup
      | cons c cs =>
        obtain rfl : cs = [] := List.eq_nil_of_length_eq_zero (by simpa using hone)
        exact nodup_snoc_copy h.grounded (hok c (by simp)).1
    · intro key pos hm
      have hfrom : ∀ it : ItemId, (View.key key, pos) = it.row →
          q'.current = some it ∨ it ∈ q'.lists.manual →
          (View.key key, pos) ∈ q.mentioned ∨
            (∃ s ∈ ([] : List Source), s.key = key ∧ pos < s.length) ∨
            ∃ c ∈ cs, c.key = key ∧ pos < c.of.len := by
        intro it hrow hit
        obtain rfl : it = ⟨key, pos⟩ := ItemId.row_inj hrow.symm
        rcases hb.from_old _ hit with ho | ho
        · exact Or.inl ho
        · exact Or.inr (Or.inr ho)
      rw [mem_mentioned] at hm
      rcases hm with ⟨it, hit, hrow⟩ | hm | hm | hm | hm
      · exact hfrom it hrow (Or.inl hit)
      · obtain ⟨it, hit, hrow⟩ := hitem hb.placed hm
        exact hfrom it hrow (Or.inr hit)
      · exact Or.inl (mem_mentioned.2 (Or.inr (Or.inr (Or.inl (hb.order ▸ hm)))))
      · exact Or.inl (mem_mentioned.2 (Or.inr (Or.inr (Or.inr (Or.inl (hbase ▸ hm))))))
      · exact Or.inl (mem_mentioned.2 (Or.inr (Or.inr (Or.inr (Or.inr (hb.plays _ hm))))))
  · refine @Tidy.extend q _ h.tidy [] _ (by simp [hb.sources]) hb.copies ?_ (by simp)
      fun c hc => (hb.copies_ok c hc).2.2
    rintro key ⟨pos, hm⟩
    refine ⟨pos, ?_⟩
    rw [mem_mentioned] at hm
    rcases hm with ⟨it, hit, hrow⟩ | hm | hm | hm | hm
    · exact hrow ▸ hb.to_new it (Or.inl hit)
    · obtain ⟨it, hit, hrow⟩ := hitem h.placed hm
      exact hrow ▸ hb.to_new it (Or.inr (Or.inl hit))
    · exact mem_mentioned.2 (Or.inr (Or.inr (Or.inl (hb.order.symm ▸ hm))))
    · exact mem_mentioned.2 (Or.inr (Or.inr (Or.inr (Or.inl (hbase.symm ▸ hm)))))
    · exact hb.to_new ⟨key, pos⟩ (Or.inr (Or.inr hm))

/-- What one step back made of the queue. -/
structure SteppedBack (q q' : QueueState) (x : ItemId) (key : String) : Prop where
  went : WentBack q q' (if q.CopyNeeded x then [⟨key, .fromSpans (q.sourceSpans x)⟩] else [])
  lists : q'.lists = q.lists.stepBack x ⟨key, 0⟩
  plays : ∃ n, q.plays = q'.plays ++ [(n, x.row)]
  nextPlay : q'.nextPlay = q.nextPlay
  repeatMode : q'.repeatMode = q.repeatMode
  adjusted : q'.adjusted = q.adjusted

theorem Valid.fresh_putBack (h : q.Valid) {key : String} (hk : q.hasKey key = false) (pos : Nat) :
    (⟨key, pos⟩ : ItemId) ∉ q.lists.putBack.upNext := by
  obtain ⟨hup, hcur⟩ := h.fresh_item hk pos
  rw [Lists.upNext_putBack, List.mem_append, Option.mem_toList, not_or]
  exact ⟨hcur, hup⟩

/-- What was playing or in Up Next is a row the queue refers to. -/
theorem Valid.putBack_mentioned (h : q.Valid) {it : ItemId} (hi : it ∈ q.lists.putBack.upNext) :
    it.row ∈ q.mentioned := by
  rw [Lists.upNext_putBack, List.mem_append, Option.mem_toList] at hi
  rcases hi with hi | hi
  · exact current_mentioned hi
  · exact h.placed.upNext_mentioned hi

/-- **One step back.** -/
theorem Valid.steppedBack (h : q.Valid) {run : Run} (hl : q.history.getLast? = some run)
    {x : ItemId} (hx : x.row = (run.span.view, run.span.start + (run.span.len - 1)))
    {key : String} (hk : q.CopyNeeded x → q.hasKey key = false) :
    SteppedBack q (q.steppedTo x key) x key := by
  obtain ⟨hst, hlists, hnum, hkept, hplays⟩ := h.numbered.stepBack h.placed.toReadable hl
  rw [← hx] at hplays
  have hframe := hst.frame
  have hxrow : x.row ∈ q.playRows := by
    rw [playRows, hplays]
    simp
  have hnamed : q.Names x.key x.pos :=
    h.play_named (n := run.first + (run.span.len - 1)) (by rw [hplays]; simp)
  -- everything but the copy and the item playing is as `stepBack` leaves it
  have hp : q.steppedTo x key = { q.stepBack with
      copies := q.copies ++
        if q.CopyNeeded x then [⟨key, .fromSpans (q.sourceSpans x)⟩] else []
      current := some (if q.CopyNeeded x then ⟨key, 0⟩ else x) } := by
    unfold steppedTo
    by_cases hc : q.CopyNeeded x
    · rw [if_pos hc, if_pos hc, if_pos hc]
    · rw [if_neg hc, if_neg hc, if_neg hc, List.append_nil, hframe]
  have hpl : (q.steppedTo x key).lists = q.lists.stepBack x ⟨key, 0⟩ := by
    rw [hp]
    calc { q.stepBack.lists with current := some (if q.CopyNeeded x then ⟨key, 0⟩ else x) }
        = { q.lists.putBack with current := some (if q.CopyNeeded x then ⟨key, 0⟩ else x) } := by
          rw [hlists]
      _ = q.lists.stepBack x ⟨key, 0⟩ := rfl
  have hup : (q.steppedTo x key).lists.upNext = q.lists.putBack.upNext := by rw [hpl]; rfl
  have hplaced : (q.steppedTo x key).Placed := by
    refine ⟨?_, ?_⟩
    · rw [hp]
      have := hst.readable
      exact ⟨this.cursor_le, this.manual_keys, this.shuffle_ok, this.order_reads⟩
    · rw [hpl]
      exact h.placed.sound.stepBack fun hc => h.fresh_putBack (hk hc) 0
  have hsame : (q.steppedTo x key).plays = q.stepBack.plays := by rw [hp]; rfl
  refine ⟨⟨hplaced, ?_, ?_, ?_, ?_, ?_, ?_, ?_, ?_, ?_, ?_, ?_⟩, hpl, ?_, ?_, ?_, ?_⟩
  · exact hnum.of_eq (by rw [hp]) (by rw [hp])
  · exact hkept.trans (.of_eq (by rw [hp]) (by rw [hp]))
  · rw [hp, hframe]
  · rw [hp]
  · rw [hp, hframe]
  · rw [hp, hframe]
  · split <;> simp
  · intro c hc
    by_cases hn : q.CopyNeeded x
    · rw [if_pos hn, List.mem_singleton] at hc
      subst hc
      refine ⟨hk hn, (h.copy_row hnamed).1, 0, @current_mentioned _ ⟨key, 0⟩ ?_⟩
      rw [hp]
      simp only [if_pos hn]
    · rw [if_neg hn] at hc
      cases hc
  · intro it hit
    rcases hit with hit | hit
    · rw [hp] at hit
      by_cases hn : q.CopyNeeded x
      · simp only [if_pos hn, Option.some.injEq] at hit ⊢
        subst hit
        refine Or.inr ⟨_, List.mem_singleton.mpr rfl, rfl, ?_⟩
        rw [(h.copy_row hnamed).2]
        exact Nat.one_pos
      · simp only [if_neg hn, Option.some.injEq] at hit
        subst hit
        exact Or.inl (mem_mentioned.2 (Or.inr (Or.inr (Or.inr (Or.inr hxrow)))))
    · refine Or.inl (h.putBack_mentioned ?_)
      rw [← hup]
      exact List.mem_append_left _ hit
  · intro r hr
    rw [playRows, hsame] at hr
    rw [playRows, hplays, List.map_append]
    exact List.mem_append_left _ hr
  · have hback : ∀ {it}, it ∈ q.lists.putBack.upNext → it.row ∈ (q.steppedTo x key).mentioned :=
      fun hi => hplaced.upNext_mentioned (hup.symm ▸ hi)
    intro it hit
    rcases hit with hit | hit | hit
    · refine hback ?_
      rw [Lists.upNext_putBack, List.mem_append, Option.mem_toList]
      exact Or.inl hit
    · refine hback ?_
      rw [Lists.upNext_putBack]
      exact List.mem_append_right _ (List.mem_append_left _ hit)
    · rw [playRows, hplays, List.map_append, List.mem_append] at hit
      rcases hit with hit | hit
      · refine mem_mentioned.2 (Or.inr (Or.inr (Or.inr (Or.inr ?_))))
        rwa [playRows, hsame]
      · obtain rfl : it = x := ItemId.row_inj (by simpa using hit)
        by_cases hn : q.CopyNeeded it
        · exact hback hn
        · refine current_mentioned ?_
          rw [hp]
          simp only [if_neg hn]
  · exact ⟨_, by rw [hsame]; exact hplays⟩
  · rw [hp, hframe]
  · rw [hp, hframe]
  · rw [hp, hframe]

theorem Valid.previous (h : q.Valid) (key : String) : Keeps q (q.previous key).2 := by
  rcases h.previous_cases key with ⟨-, he⟩ | ⟨run, x, hl, -, hx, ⟨-, -, he⟩ | ⟨hk, he⟩⟩
  · rw [he]
    exact h.keeps
  · rw [he]
    exact h.keeps
  · rw [he]
    exact h.wentBack (h.steppedBack hl hx hk).went

end QueueState

end JewelCase.Queue
