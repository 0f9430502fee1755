import JewelCase.Queue.Invariants

/-!
# What edits answer

Adding, removing and moving are the plain list edits; an edit that is refused, or that names
nothing it could act on, leaves the queue as it was; and turning shuffle off puts the context
in its natural order.
-/
namespace JewelCase.Queue

set_option autoImplicit false

open Library.Runs

namespace QueueState

variable {q : QueueState}

/-! ### List edits -/

/-- What no list edit changes: the item playing, the plays and the play number to come. -/
structure PlaysAlone (q q' : QueueState) : Prop where
  current : q'.current = q.current
  history : q'.history = q.history
  nextPlay : q'.nextPlay = q.nextPlay

theorem PlaysAlone.refl (q : QueueState) : PlaysAlone q q := ⟨rfl, rfl, rfl⟩

theorem playsAlone_put (spot : Spot) (spans : List Span) : PlaysAlone q (q.put spot spans) := by
  cases spot <;> exact ⟨rfl, rfl, rfl⟩

theorem playsAlone_added (source : Source) (spot : Spot) : PlaysAlone q (q.added source spot) := by
  obtain ⟨hc, hh, hn⟩ := playsAlone_put (q := { q with sources := q.sources ++ [source] }) spot
    [⟨.key source.key, 0, source.length⟩]
  exact ⟨hc, hh, hn⟩

theorem playsAlone_remove (items : List ItemId) : PlaysAlone q (q.remove items) := by
  unfold QueueState.remove
  simp only
  split
  · exact PlaysAlone.refl q
  · exact ⟨rfl, rfl, rfl⟩

theorem playsAlone_moved (items : List ItemId) (target spot : Spot) :
    PlaysAlone q (q.moved items target spot) := by
  obtain ⟨hc, hh, hn⟩ := playsAlone_put (q := (q.take (q.resolve items) target.isManual).2) spot
    (if target.isManual then (q.take (q.resolve items) target.isManual).2.listSpans
      (q.take (q.resolve items) target.isManual).1
    else (q.take (q.resolve items) target.isManual).1)
  exact ⟨hc, hh, hn⟩

theorem Placed.spot_ok (h : q.Placed) {a : Anchor} {items : List ItemId} {spot : Spot}
    (hs : q.spot a (q.resolve items) = .ok spot) :
    ¬∃ item, a = .before item ∧ (item ∉ q.lists.upNext ∨ item ∈ items) := by
  intro hex
  have := (h.spot_error (e := .anchorGone)).mpr ⟨rfl, hex⟩
  rw [hs] at this
  cases this

theorem Placed.spot_nil_error (h : q.Placed) {a : Anchor} {e : QueueError} :
    q.spot a [] = .error e ↔ e = .anchorGone ∧ ∃ item, a = .before item ∧ item ∉ q.lists.upNext := by
  have := @spot_error q h a [] e
  simpa only [resolve_nil, List.not_mem_nil, or_false] using this

/-- What an add answers, and what it leaves. -/
theorem Placed.add_spec (h : q.Placed) (source : Source) (before : Anchor) :
    ((q.add source before).1 = .error .anchorGone ↔
        ∃ item, before = .before item ∧ item ∉ q.lists.upNext) ∧
      ((q.add source before).1 = .error .duplicateKey →
        q.hasKey source.key = true) ∧
      ((q.add source before).1 = .error .anchorGone ∨
        (q.add source before).1 = .error .duplicateKey ∨ (q.add source before).1 = .ok ()) ∧
      ((q.add source before).1 ≠ .ok () → (q.add source before).2 = q) ∧
      ((q.add source before).1 = .ok () →
        q.lists.insert (sourceItems source) before = some (q.add source before).2.lists) ∧
      PlaysAlone q (q.add source before).2 := by
  have hanchor : ∀ {spot}, q.spot before [] = .ok spot →
      ¬∃ item, before = .before item ∧ item ∉ q.lists.upNext := by
    intro spot hs hex
    have := h.spot_nil_error.mpr ⟨rfl, hex⟩
    rw [hs] at this
    cases this
  rcases q.add_cases source before with ⟨e, hs, he⟩ | ⟨spot, hs, hk, he⟩ |
      ⟨spot, hs, hk, hl, he⟩ | ⟨spot, hs, hk, hl, he⟩
  · obtain ⟨rfl, hex⟩ := h.spot_nil_error.mp hs
    rw [he]
    exact ⟨⟨fun _ => hex, fun _ => rfl⟩, (fun he => by cases he), Or.inl rfl, fun _ => rfl,
      (fun he => by cases he),
      PlaysAlone.refl q⟩
  · rw [he]
    exact ⟨⟨(fun he => by cases he), fun hex => (hanchor hs hex).elim⟩, fun _ => hk, Or.inr (Or.inl rfl),
      fun _ => rfl, (fun he => by cases he), PlaysAlone.refl q⟩
  · have hins : q.lists.insert (sourceItems source) before = some (q.added source spot).lists :=
      h.added_lists hs
    have hnil : sourceItems source = [] := by simp [sourceItems, hl]
    have hsame : q.lists.insert (sourceItems source) before = some q.lists := by
      rw [hnil] at hins ⊢
      rw [hins, Lists.insert_nil hins]
    rw [he]
    exact ⟨⟨(fun he => by cases he), fun hex => (hanchor hs hex).elim⟩,
      (fun he => by cases he), Or.inr (Or.inr rfl),
      fun _ => rfl, fun _ => hsame, PlaysAlone.refl q⟩
  · rw [he]
    exact ⟨⟨(fun he => by cases he), fun hex => (hanchor hs hex).elim⟩,
      (fun he => by cases he), Or.inr (Or.inr rfl),
      fun hne => (hne rfl).elim, fun _ => h.added_lists hs, playsAlone_added source spot⟩

/-- What a move answers, and what it leaves. -/
theorem Placed.move_spec (h : q.Placed) (items : List ItemId) (before : Anchor) :
    ((q.moveItems items before).1 = .error .anchorGone ↔
        ∃ item, before = .before item ∧ (item ∉ q.lists.upNext ∨ item ∈ items)) ∧
      ((q.moveItems items before).1 = .error .anchorGone ∨
        (q.moveItems items before).1 = .ok ()) ∧
      ((q.moveItems items before).1 ≠ .ok () → (q.moveItems items before).2 = q) ∧
      ((q.moveItems items before).1 = .ok () →
        q.lists.move items before = some (q.moveItems items before).2.lists) ∧
      PlaysAlone q (q.moveItems items before).2 := by
  rcases h.move_cases items before with ⟨hs, he⟩ | ⟨target, hs, hgone, he⟩ |
      ⟨target, spot, hs, hs', hsome, he⟩
  · obtain ⟨-, item, hb, hor⟩ := h.spot_error.mp hs
    rw [he]
    exact ⟨⟨fun _ => ⟨item, hb, hor⟩, fun _ => rfl⟩, Or.inl rfl, fun _ => rfl, (fun he => by cases he),
      PlaysAlone.refl q⟩
  · have hmove : q.lists.move items before = some q.lists := by
      cases hm : q.lists.move items before with
      | none =>
        rw [Lists.move, Lists.insert_eq_none, Lists.without_gone hgone] at hm
        obtain ⟨item, hb, hup⟩ := hm
        exact (h.spot_ok hs ⟨item, hb, Or.inl hup⟩).elim
      | some l => rw [Lists.move_gone hgone hm]
    rw [he]
    exact ⟨⟨(fun he => by cases he), fun hex => (h.spot_ok hs hex).elim⟩, Or.inr rfl, fun _ => rfl,
      fun _ => hmove, PlaysAlone.refl q⟩
  · rw [he]
    exact ⟨⟨(fun he => by cases he), fun hex => (h.spot_ok hs hex).elim⟩, Or.inr rfl,
      fun hne => (hne rfl).elim, fun _ => h.moved_lists hs hs', playsAlone_moved items target spot⟩

/-- **Add, remove and move are the plain list edits**, in every queue: on the Manual Queue, the
passed context and the context ahead, read as items. The cursor is the length of the passed
part, nothing playing or played changes, and an anchor fails exactly when it names an item that
is not in Up Next or that the edit moves. -/
theorem list_edits (calls : List Call) (source : Source) (items : List ItemId)
    (before : Anchor) :
    let q := run calls
    let add := q.apply (.add source before)
    let remove := q.apply (.remove items)
    let move := q.apply (.move items before)
    (add.1 = .error .anchorGone ↔ ∃ item, before = .before item ∧ item ∉ q.lists.upNext) ∧
      (add.1 = .error .duplicateKey → q.hasKey source.key = true) ∧
      (add.1 = .error .anchorGone ∨ add.1 = .error .duplicateKey ∨ add.1 = .ok ()) ∧
      (add.1 = .ok () → q.lists.insert (sourceItems source) before = some add.2.lists) ∧
      remove.1 = .ok () ∧ remove.2.lists = q.lists.without items false ∧
      (move.1 = .error .anchorGone ↔
        ∃ item, before = .before item ∧ (item ∉ q.lists.upNext ∨ item ∈ items)) ∧
      (move.1 = .error .anchorGone ∨ move.1 = .ok ()) ∧
      (move.1 = .ok () → q.lists.move items before = some move.2.lists) ∧
      ∀ q' ∈ [add.2, remove.2, move.2],
        PlaysAlone q q' ∧ q'.cursor = q'.lists.passed.length := by
  intro q add remove move
  have hv : q.Valid := run_valid calls
  obtain ⟨ha1, ha2, ha3, -, ha4, ha5⟩ := hv.placed.add_spec source before
  obtain ⟨hm1, hm2, -, hm3, hm4⟩ := hv.placed.move_spec items before
  refine ⟨ha1, ha2, ha3, ha4, rfl, hv.placed.remove_lists items, hm1, hm2, hm3, ?_⟩
  intro q' hq'
  simp only [List.mem_cons, List.not_mem_nil, or_false] at hq'
  rcases hq' with rfl | rfl | rfl
  · exact ⟨ha5, (hv.add source before).valid.placed.length_passed.symm⟩
  · exact ⟨playsAlone_remove items, (hv.remove items).valid.placed.length_passed.symm⟩
  · exact ⟨hm4, (hv.moveItems items before).valid.placed.length_passed.symm⟩

/-! ### Refusals and edits that find nothing -/

theorem adjusted_recordAndClean (spans : List Span) :
    (q.recordAndClean spans).adjusted = q.adjusted := by
  unfold recordAndClean recordPlays trimHistory
  simp only [foldl_recordSpan]
  split <;> rfl

theorem adjusted_jump (item : ItemId) : (q.jump item).adjusted = q.adjusted := by
  unfold QueueState.jump
  split
  · rfl
  · simp only
    split <;> rw [adjusted_recordAndClean]

theorem adjusted_next : q.next.adjusted = q.adjusted := by
  have hr : q.restart.adjusted = q.adjusted := by
    unfold restart shuffleNextLap
    repeat' split
    all_goals rfl
  have ha : q.restart.advance.adjusted = q.restart.adjusted := by
    unfold advance
    repeat' split
    all_goals rfl
  rw [QueueState.next, adjusted_recordAndClean, ha, hr]

/-- A removal of plays none of which is in History. -/
theorem Numbered.foldl_removePlay_gone (h : q.Numbered) {plays : List PlayRef}
    (hgone : ∀ play ∈ plays, ¬ q.Played play.play play.item) :
    plays.foldl (fun (q, any) play => q.removePlay any play) (q, false) = (q, false) := by
  induction plays with
  | nil => rfl
  | cons play plays ih =>
    have hnone : q.matchPlay play = none :=
      h.matchPlay_none.mpr fun hp => hgone play List.mem_cons_self (played_iff.2 hp)
    have hone : q.removePlay false play = (q, false) := by
      rw [removePlay, hnone]
    rw [List.foldl_cons]
    simp only [hone]
    exact ih fun play hp => hgone play (List.mem_cons_of_mem _ hp)

theorem Numbered.removePlays_gone (h : q.Numbered) {plays : List PlayRef}
    (hgone : ∀ play ∈ plays, ¬ q.Played play.play play.item) : q.removePlays plays = q := by
  unfold QueueState.removePlays
  rw [h.foldl_removePlay_gone hgone]
  rfl

theorem Numbered.requeue_gone (h : q.Numbered) {play : PlayRef} {key : String}
    (hgone : ¬ q.Played play.play play.item) : q.requeue play key = (.ok (), q) := by
  have hnone : q.matchPlay play = none :=
    h.matchPlay_none.mpr fun hp => hgone (played_iff.2 hp)
  rw [QueueState.requeue, hnone]

/-- Whether an edit that answered `Ok` added, removed, moved or re-queued anything. -/
def Acted (q : QueueState) : Edit → Prop
  | .add source before => (q.apply (.add source before)).1 = .ok () ∧ source.length ≠ 0
  | .remove items => ∃ item ∈ items, item ∈ q.lists.upNext
  | .move items before =>
    (q.apply (.move items before)).1 = .ok () ∧ ∃ item ∈ items, item ∈ q.lists.upNext
  | .removePlays plays => ∃ play ∈ plays, q.Played play.play play.item
  | .requeue play key =>
    (q.apply (.requeue play key)).1 = .ok () ∧ q.Played play.play play.item
  | _ => False

/-- Whether an edit names nothing that is there to act on. An add of no rows must have a new key
and, like a move, an anchor that is in Up Next. -/
def FindsNothing (q : QueueState) : Edit → Prop
  | .add source before => source.length = 0 ∧ q.hasKey source.key = false ∧
      ∀ item, before = .before item → item ∈ q.lists.upNext
  | .remove items => ∀ item ∈ items, item ∉ q.lists.upNext
  | .move items before => (∀ item ∈ items, item ∉ q.lists.upNext) ∧
      ∀ item, before = .before item → item ∈ q.lists.upNext
  | .jump item => item ∉ q.lists.upNext
  | .removePlays plays => ∀ play ∈ plays, ¬ q.Played play.play play.item
  | .requeue play _ => ¬ q.Played play.play play.item
  | .previous _ => q.history = []
  | .shuffle on _ => q.shuffle.isSome = on
  | _ => False

theorem Valid.refused (h : q.Valid) (edit : Edit) (hne : (q.apply edit).1 ≠ .ok ()) :
    (q.apply edit).2 = q := by
  cases edit with
  | add source before => exact (h.placed.add_spec source before).2.2.2.1 hne
  | move items before => exact (h.placed.move_spec items before).2.2.1 hne
  | requeue play key =>
    rcases h.numbered.requeue_cases play key with ⟨-, he⟩ | ⟨-, -, he⟩ | ⟨_, _, _, -, -, -, he⟩ <;>
      simp only [apply, he, ne_eq, not_true_eq_false] at hne ⊢
  | previous key =>
    rcases h.previous_cases key with ⟨-, he⟩ | ⟨run, x, -, -, -, ⟨-, -, he⟩ | ⟨-, he⟩⟩ <;>
      simp only [apply, he, ne_eq, not_true_eq_false] at hne ⊢
  | rewind play key =>
    rcases h.rewind_cases play key with ⟨-, he⟩ | ⟨ws, -, ⟨-, -, he⟩ | ⟨-, q', he, -⟩⟩ <;>
      simp only [apply, he, ne_eq, not_true_eq_false] at hne ⊢
  | _ => exact (hne rfl).elim

theorem Valid.found_nothing (h : q.Valid) (edit : Edit) (hn : q.FindsNothing edit) :
    q.apply edit = (.ok (), q) := by
  cases edit with
  | add source before =>
    obtain ⟨hl, hk, hb⟩ := hn
    rcases q.add_cases source before with ⟨e, hs, -⟩ | ⟨spot, -, hk', -⟩ |
        ⟨spot, -, -, -, he⟩ | ⟨spot, -, -, hl', -⟩
    · obtain ⟨-, item, hbefore, hup⟩ := h.placed.spot_nil_error.mp hs
      exact (hup (hb item hbefore)).elim
    · rw [hk] at hk'
      cases hk'
    · exact he
    · exact (hl' hl).elim
  | remove items =>
    have hempty := h.placed.resolve_isEmpty.mpr hn
    simp only [apply, QueueState.remove, hempty, if_true]
  | move items before =>
    obtain ⟨hgone, hb⟩ := hn
    rcases h.placed.move_cases items before with ⟨hs, -⟩ | ⟨target, -, -, he⟩ |
        ⟨target, spot, -, -, ⟨item, hi, hup⟩, -⟩
    · obtain ⟨-, item, hbefore, hup | hi⟩ := h.placed.spot_error.mp hs
      · exact (hup (hb item hbefore)).elim
      · exact (hgone item hi (hb item hbefore)).elim
    · exact he
    · exact (hgone item hi hup).elim
  | jump item =>
    have hnone : q.findItem item = none := h.placed.findItem_none.mpr hn
    simp only [apply, QueueState.jump, hnone]
  | removePlays plays => simp only [apply, h.numbered.removePlays_gone hn]
  | requeue play key => exact h.numbered.requeue_gone hn
  | previous key =>
    have hnil : q.history = [] := hn
    simp only [apply, QueueState.previous, hnil, List.getLast?_nil]
  | shuffle on seed =>
    have hs : q.shuffle.isSome = on := hn
    cases on with
    | true =>
      obtain ⟨s, hs⟩ := Option.isSome_iff_exists.mp hs
      simp only [apply, QueueState.setShuffle, hs]
    | false =>
      rw [Option.isSome_eq_false_iff, Option.isNone_iff_eq_none] at hs
      simp only [apply, QueueState.setShuffle, hs]
  | next => exact hn.elim
  | rewind play key => exact hn.elim
  | repeatMode mode => exact hn.elim

/-- An edit leaves `adjusted` as it is, or acts and sets it. -/
theorem Valid.adjusted_cases (h : q.Valid) (edit : Edit) :
    (q.edited edit).adjusted = q.adjusted ∨ (q.edited edit).adjusted = true ∧ q.Acted edit := by
  cases edit with
  | add source before =>
    rcases q.add_cases source before with ⟨e, -, he⟩ | ⟨spot, -, -, he⟩ | ⟨spot, -, -, -, he⟩ |
        ⟨spot, -, -, hl, he⟩
    · exact Or.inl (by rw [edited, apply, he])
    · exact Or.inl (by rw [edited, apply, he])
    · exact Or.inl (by rw [edited, apply, he])
    · exact Or.inr ⟨by rw [edited, apply, he]; rfl, by rw [apply, he], hl⟩
  | remove items =>
    by_cases hg : ∃ item ∈ items, item ∈ q.lists.upNext
    · refine Or.inr ⟨?_, hg⟩
      have hne : ¬(q.resolve items).isEmpty = true := by
        rw [h.placed.resolve_isEmpty]
        push Not
        exact hg
      simp only [edited, apply, QueueState.remove, if_neg hne]
      rfl
    · left
      have hn : q.FindsNothing (.remove items) := fun item hi hup => hg ⟨item, hi, hup⟩
      rw [edited, h.found_nothing _ hn]
  | move items before =>
    rcases h.placed.move_cases items before with ⟨-, he⟩ | ⟨target, -, -, he⟩ |
        ⟨target, spot, -, -, hsome, he⟩
    · exact Or.inl (by rw [edited, apply, he])
    · exact Or.inl (by rw [edited, apply, he])
    · exact Or.inr ⟨by rw [edited, apply, he]; rfl, by rw [apply, he], hsome⟩
  | jump item => exact Or.inl (adjusted_jump item)
  | next => exact Or.inl adjusted_next
  | removePlays plays =>
    by_cases hg : ∃ play ∈ plays, q.Played play.play play.item
    · rcases h.numbered.removePlays_cases plays with he | ⟨q', -, he⟩
      · exact Or.inl (by rw [edited, apply, he])
      · exact Or.inr ⟨by rw [edited, apply, he]; rfl, hg⟩
    · left
      have hn : q.FindsNothing (.removePlays plays) := fun play hp hpl => hg ⟨play, hp, hpl⟩
      rw [edited, h.found_nothing _ hn]
  | requeue play key =>
    rcases h.numbered.requeue_cases play key with ⟨-, he⟩ | ⟨-, -, he⟩ | ⟨_, _, _, -, -, hp, he⟩
    · exact Or.inl (by rw [edited, apply, he])
    · exact Or.inl (by rw [edited, apply, he])
    · exact Or.inr ⟨by rw [edited, apply, he]; rfl, by rw [apply, he], played_iff.2 hp⟩
  | previous key =>
    left
    rcases h.previous_cases key with ⟨-, he⟩ | ⟨run, x, hl, -, hx, ⟨-, -, he⟩ | ⟨hk, he⟩⟩
    · rw [edited, apply, he]
    · rw [edited, apply, he]
    · rw [edited, apply, he]
      exact (h.steppedBack hl hx hk).adjusted
  | rewind play key =>
    left
    rcases h.rewind_cases play key with ⟨-, he⟩ | ⟨ws, -, ⟨-, -, he⟩ | ⟨-, q', he, hr⟩⟩
    · rw [edited, apply, he]
    · rw [edited, apply, he]
    · rw [edited, apply, he]
      exact hr.adjusted
  | shuffle on seed =>
    left
    cases hs : q.shuffle with
    | none =>
      cases on with
      | false => simp only [edited, apply, QueueState.setShuffle, hs]
      | true =>
        obtain ⟨s, order, he, -⟩ := q.setShuffle_on hs seed
        rw [edited, apply, he]
    | some s =>
      cases on with
      | true => simp only [edited, apply, QueueState.setShuffle, hs]
      | false =>
        obtain ⟨q', hu, he⟩ := h.placed.unshuffled hs
        have hset : q.setShuffle false seed = q.unshuffle := by simp [QueueState.setShuffle, hs]
        rw [edited, apply, hset, he]
        change q'.adjusted = q.adjusted
        rw [hu.frame]
  | repeatMode mode => exact Or.inl rfl

/-- **Refused and ignored edits leave no trace**, in every queue. A refusal changes nothing; an
edit that finds nothing to act on answers `Ok` and changes nothing; and only an add, a removal,
a move or a re-queue that acted sets `adjusted`, which nothing clears. -/
theorem no_trace (calls : List Call) (edit : Edit) :
    let q := run calls
    ((q.apply edit).1 ≠ .ok () → (q.apply edit).2 = q) ∧
      (q.FindsNothing edit → q.apply edit = (.ok (), q)) ∧
      (q.adjusted = false → (q.apply edit).2.adjusted = true → q.Acted edit) ∧
      (q.adjusted = true → (q.apply edit).2.adjusted = true) := by
  intro q
  have hv : q.Valid := run_valid calls
  have hadj := hv.adjusted_cases edit
  refine ⟨hv.refused edit, hv.found_nothing edit, ?_, ?_⟩
  · intro hf ht
    rcases hadj with he | ⟨-, ha⟩
    · rw [edited, hf, ht] at he
      cases he
    · exact ha
  · intro ht
    rcases hadj with he | ⟨he, -⟩
    · rw [edited, ht] at he
      exact he
    · exact he

/-- An add of no rows under a key in use is refused, and so is a move of items that are gone to
before an item that is gone. -/
theorem nothing_refused :
    ¬ (∀ calls source before, source.length = 0 →
        ((run calls).apply (.add source before)).1 = .ok ()) ∧
      ¬ ∀ calls items before, (∀ item ∈ items, item ∉ (run calls).lists.upNext) →
        ((run calls).apply (.move items before)).1 = .ok () := by
  constructor
  · intro h
    have := h [.start ⟨"a", "", none, 2, none⟩ 0] ⟨"a", "", none, 0, none⟩ .manualEnd rfl
    revert this
    decide +kernel
  · intro h
    have := h [.start ⟨"a", "", none, 2, none⟩ 0] [⟨"a", 0⟩] (.before ⟨"a", 0⟩)
      (by decide +kernel)
    revert this
    decide +kernel

/-! ### Shuffle off -/

/-- **Turning shuffle off puts the context in its natural order**, in every shuffled queue: the
passed part and the part ahead are what the natural order says, the cursor is the length of the
passed part, and the context holds the same items. -/
theorem unshuffled_order (calls : List Call) (seed : UInt32) :
    ∀ s ∈ (run calls).shuffle,
      let q := run calls
      let q' := q.edited (.shuffle false seed)
      let m := q.shuffled s
      m.places.filterMap m.item = q.lists.order ∧
        q'.lists = ⟨q.lists.manual, m.naturalPassed, m.naturalAhead, q.current⟩ ∧
        q'.cursor = m.naturalPassed.length ∧ q'.shuffle = none ∧
        q'.lists.order.Perm q.lists.order := by
  intro s hs q q' m
  have hv : q.Valid := run_valid calls
  obtain ⟨q₁, hu, he⟩ := hv.placed.unshuffled hs
  have hq' : q' = q₁.cleanUp := by
    simp only [q', edited, apply]
    rw [← he]
    simp [QueueState.setShuffle, show q.shuffle = some s from hs]
  rw [hq']
  refine ⟨hv.placed.shuffled_items hs, hu.lists, hu.cursor, ?_, hu.perm hv.placed hs⟩
  exact congrArg QueueState.shuffle hu.frame

theorem unshuffled_order_of_four :
    let q := run [.start ⟨"a", "", none, 4, none⟩ 0, .apply (.shuffle true 9), .apply .next]
    q.shuffle.isSome ∧ (q.edited (.shuffle false 0)).lists.order.Perm q.lists.order := by
  have hs : (run [.start ⟨"a", "", none, 4, none⟩ 0, .apply (.shuffle true 9),
      .apply .next]).shuffle = some ⟨9, .fromSpans [⟨.key "a", 1, 3⟩]⟩ := by
    decide +kernel
  exact ⟨by rw [hs]; rfl, (unshuffled_order [.start ⟨"a", "", none, 4, none⟩ 0,
    .apply (.shuffle true 9), .apply .next] 0 _ hs).2.2.2.2⟩

end QueueState

end JewelCase.Queue
