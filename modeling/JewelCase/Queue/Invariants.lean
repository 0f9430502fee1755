import JewelCase.Library.Runs
import JewelCase.Queue.ListEdits
import JewelCase.Queue.PlayEdits
import JewelCase.Queue.Rewound
import JewelCase.Queue.Unshuffle

/-!
# Runs of a queue

Every queue there is comes from no queue by starts and edits, each accepted, ignored or
refused. All of them are valid, and a run of edits keeps play numbers.
-/
namespace JewelCase.Queue

set_option autoImplicit false

open Library (Stretch)
open Library.Lists
open Library.Runs

/-- One call on a queue. -/
inductive Call where
  | start (source : Source) (position : Nat)
  | apply (edit : Edit)
deriving DecidableEq, Repr

namespace QueueState

variable {q : QueueState}

/-- The state after one edit, refused or not. -/
def edited (q : QueueState) (edit : Edit) : QueueState := (q.apply edit).2

/-- The state after one call, refused or not. -/
def called (q : QueueState) : Call → QueueState
  | .start source position => (q.start source position).2
  | .apply edit => q.edited edit

/-- The queue that a run of calls makes of no queue. -/
def run (calls : List Call) : QueueState := after called default calls

theorem Valid.setShuffle (h : q.Valid) (on : Bool) (seed : UInt32) :
    Keeps q (q.setShuffle on seed) := by
  cases on with
  | true =>
    cases hs : q.shuffle with
    | none => exact h.shuffleOn hs seed
    | some s =>
      have he : q.setShuffle true seed = q := by simp [QueueState.setShuffle, hs]
      rw [he]
      exact h.keeps
  | false =>
    cases hs : q.shuffle with
    | none =>
      have he : q.setShuffle false seed = q := by simp [QueueState.setShuffle, hs]
      rw [he]
      exact h.keeps
    | some s =>
      have he : q.setShuffle false seed = q.unshuffle := by simp [QueueState.setShuffle, hs]
      rw [he]
      exact h.unshuffle

/-- **Every edit keeps a valid queue valid, and keeps its play numbers.** -/
theorem Valid.keeps_edited (h : q.Valid) (edit : Edit) : Keeps q (q.edited edit) := by
  cases edit with
  | add source before => exact h.add source before
  | remove items => exact h.remove items
  | move items before => exact h.moveItems items before
  | jump item => exact h.jump item
  | next => exact h.next
  | removePlays plays => exact h.removePlays plays
  | requeue play key => exact h.requeue play key
  | previous key => exact h.previous key
  | rewind play key => exact h.rewind play key
  | shuffle on seed => exact h.setShuffle on seed
  | repeatMode mode => exact h.of_eq rfl rfl rfl rfl rfl rfl rfl rfl rfl

theorem Valid.valid_called (h : q.Valid) (call : Call) : (q.called call).Valid := by
  cases call with
  | start source position => exact h.start source position
  | apply edit => exact (h.keeps_edited edit).valid

/-- **Every queue a run makes is valid.** -/
theorem run_valid (calls : List Call) : (run calls).Valid :=
  after_invariant (fun _ c h => h.valid_called c) default_valid calls

theorem Valid.valid_after (h : q.Valid) (edits : List Edit) :
    (after QueueState.edited q edits).Valid :=
  after_invariant (fun _ e h => (h.keeps_edited e).valid) h edits

theorem Valid.plays_after (h : q.Valid) (edits : List Edit) :
    PlaysKept q (after QueueState.edited q edits) :=
  after_related PlaysKept.refl PlaysKept.trans
    (fun _ e h => ⟨(h.keeps_edited e).valid, (h.keeps_edited e).plays⟩) h edits

end QueueState

end JewelCase.Queue

/-!
## What holds of every queue

The invariant of a valid queue, told on the spans and runs the queue holds: where rows and
items may be, what the sources and copies are kept for, and which play a number names.
-/
namespace JewelCase.Queue

set_option autoImplicit false

open Library (Stretch)
open Library.Runs

/-- Two spans with no position in common. -/
def Span.Apart (a b : Span) : Prop := a.start + a.len ≤ b.start ∨ b.start + b.len ≤ a.start

namespace QueueState

variable {q : QueueState}

/-! ### Places -/

/-- The item at Up Next index `i`. -/
def upNextItem (q : QueueState) (i : Nat) : Option ItemId :=
  if i < q.manual.len then q.itemAt q.manual i
  else q.itemAt q.order (q.cursor + (i - q.manual.len))

theorem Readable.upNextItem_eq (h : q.Readable) (i : Nat) :
    q.upNextItem i = q.lists.upNext[i]? := by
  rw [upNextItem, Lists.upNext]
  by_cases hi : i < q.manual.len
  · rw [if_pos hi, List.getElem?_append_left (h.length_manual ▸ hi), h.getElem?_manual]
  · rw [if_neg hi, List.getElem?_append_right (by rw [h.length_manual]; omega),
      h.length_manual, h.getElem?_ahead]

/-- The shuffle spans of `order`. -/
def shuffleParts (q : QueueState) : List Span := q.order.spans.filter (·.view = .shuffle)

theorem span_row {l : SpanList} {span : Span} (hs : span ∈ l.spans) {p : Nat}
    (hlo : span.start ≤ p) (hhi : p < span.start + span.len) : (span.view, p) ∈ l.rows :=
  (SpanList.mem_rows_iff ..).mpr ⟨span, hs, rfl, hlo, hhi⟩

theorem span_first {l : SpanList} {span : Span} (hs : span ∈ l.spans) :
    (span.view, span.start) ∈ l.rows :=
  span_row hs (Nat.le_refl _) (by have : 0 < span.len := l.canonical.1 span hs; omega)

theorem span_last {l : SpanList} {span : Span} (hs : span ∈ l.spans) :
    (span.view, span.start + (span.len - 1)) ∈ l.rows :=
  span_row hs (by omega) (by have : 0 < span.len := l.canonical.1 span hs; omega)

theorem keys_of_rows {l : SpanList} (h : KeyRows l.rows) : ∀ span ∈ l.spans, span.view ≠ .shuffle :=
  fun _ hs => h _ (span_first hs)

theorem Placed.shuffleParts_apart (h : q.Placed) : q.shuffleParts.Pairwise Span.Apart := by
  have hrows : (q.order.spans.flatMap Stretch.rows).Nodup := h.order_rows_nodup
  have hpair := ((List.nodup_flatMap.mp hrows).2.filter (·.view = .shuffle))
  refine List.Pairwise.imp_of_mem ?_ hpair
  intro a b ha hb hd
  simp only [shuffleParts, List.mem_filter, decide_eq_true_eq] at ha hb
  have hpa : 0 < a.len := q.order.canonical.1 a ha.1
  have hpb : 0 < b.len := q.order.canonical.1 b hb.1
  by_contra hn
  simp only [Span.Apart, not_or, Nat.not_le] at hn
  -- two overlapping spans would both read the later of their first positions
  have hra : (View.shuffle, max a.start b.start) ∈ Stretch.rows a :=
    Span.mem_rows.2 ⟨ha.2.symm, by omega, by omega⟩
  have hrb : (View.shuffle, max a.start b.start) ∈ Stretch.rows b :=
    Span.mem_rows.2 ⟨hb.2.symm, by omega, by omega⟩
  exact hd hra hrb

theorem Readable.shuffleParts_inside (h : q.Readable) {span : Span} (hm : span ∈ q.shuffleParts) :
    ∃ s, q.shuffle = some s ∧ span.start + span.len ≤ s.base.len := by
  simp only [shuffleParts, List.mem_filter, decide_eq_true_eq] at hm
  have hpos : 0 < span.len := q.order.canonical.1 span hm.1
  have hlast := span_last hm.1
  rw [hm.2] at hlast
  cases hs : q.shuffle with
  | none =>
    have := h.order_reads _ hlast
    simp [rowItem, hs] at this
  | some s =>
    have := h.shuffle_lt hs hlast
    exact ⟨s, rfl, by omega⟩

/-- **Where rows and items are, in every queue.** The cursor is inside the context; every row
reads an item; an item is at most once in the context and at most once in Up Next, and not there
while it plays; one that is in the Manual Queue too has passed its place in the context. Shuffle
spans are disjoint ranges of the base, and only the context has them. -/
theorem run_places (calls : List Call) :
    let q := run calls
    q.cursor ≤ q.order.len ∧
      (∀ i < q.order.len, ∃ item, q.itemAt q.order i = some item) ∧
      (∀ i < q.upNextLen, ∃ item, q.upNextItem i = some item) ∧
      (∀ i j item, q.itemAt q.order i = some item → q.itemAt q.order j = some item → i = j) ∧
      (∀ i j item, q.upNextItem i = some item → q.upNextItem j = some item → i = j) ∧
      (∀ i item, q.current = some item → q.upNextItem i ≠ some item) ∧
      (∀ i j item, q.itemAt q.manual i = some item → q.itemAt q.order j = some item →
        j < q.cursor) ∧
      q.shuffleParts.Pairwise Span.Apart ∧
      (∀ span ∈ q.shuffleParts, ∃ s, q.shuffle = some s ∧ span.start + span.len ≤ s.base.len) ∧
      (∀ span ∈ q.manual.spans, span.view ≠ .shuffle) ∧
      (∀ s ∈ q.shuffle, ∀ span ∈ s.base.spans, span.view ≠ .shuffle) ∧
      (∀ run ∈ q.history, run.span.view ≠ .shuffle) ∧
      ∀ copy ∈ q.copies, ∀ span ∈ copy.of.spans, span.view ≠ .shuffle := by
  intro q
  have hv : q.Valid := run_valid calls
  have hp := hv.placed
  have hr := hp.toReadable
  refine ⟨?_, ?_, ?_, ?_, ?_, ?_, ?_, hp.shuffleParts_apart,
    fun span hs => hr.shuffleParts_inside hs, keys_of_rows hr.manual_keys,
    fun s hs => keys_of_rows (hr.shuffle_ok s hs).keys, ?_, ?_⟩
  · rw [SpanList.len_eq]
    exact hr.cursor_le
  · intro i hi
    rw [← hr.length_order] at hi
    exact ⟨_, (hr.getElem?_order i).symm.trans (List.getElem?_eq_getElem hi)⟩
  · intro i hi
    rw [← hr.length_upNext] at hi
    exact ⟨_, (hr.upNextItem_eq i).trans (List.getElem?_eq_getElem hi)⟩
  · intro i j item hi hj
    rw [← hr.getElem?_order] at hi hj
    exact Library.Lists.index_unique hp.sound.order_nodup hi hj
  · intro i j item hi hj
    rw [hr.upNextItem_eq] at hi hj
    exact Library.Lists.index_unique hp.sound.upNext_nodup hi hj
  · intro i item hc hi
    rw [hr.upNextItem_eq] at hi
    exact hp.sound.current_notin item hc (List.mem_of_getElem? hi)
  · intro i j item hi hj
    rw [← hr.getElem?_manual] at hi
    rw [← hr.getElem?_order] at hj
    have hpassed := hp.sound.passed_of_manual (List.mem_of_getElem? hi) (List.mem_of_getElem? hj)
    rw [hr.passed_eq] at hpassed
    obtain ⟨k, hk, he⟩ := List.mem_take_iff_getElem.mp hpassed
    have hkj := Library.Lists.index_unique hp.sound.order_nodup hj
      (List.getElem?_eq_some_iff.mpr ⟨_, he⟩)
    omega
  · intro run hrun
    refine hv.numbered.keys (run.span.view, run.span.start) ?_
    rw [playRows_eq]
    refine List.mem_flatMap.mpr ⟨run.span, List.mem_map.mpr ⟨run, hrun, rfl⟩, ?_⟩
    exact Span.mem_rows.2 ⟨rfl, Nat.le_refl _, by have := hv.runs_pos run hrun; omega⟩
  · intro copy hc span hs
    obtain ⟨s, -, hview, -⟩ := hv.grounded.copies_ok copy hc _ (span_first hs)
    intro hshuffle
    simp only [hshuffle] at hview
    cases hview

/-! ### References -/

/-- The spans a queue holds: of its lists, of the shuffle's base and of History. -/
def heldSpans (q : QueueState) : List Span :=
  q.manual.spans ++ q.order.spans ++ (q.shuffle.elim [] fun s => s.base.spans) ++
    q.history.map (·.span)

/-- Whether the queue refers to `key`, by the item playing or by a span it holds. -/
def RefersTo (q : QueueState) (key : String) : Prop :=
  (∃ item, q.current = some item ∧ item.key = key) ∨ ∃ span ∈ q.heldSpans, span.view = .key key

/-- Whether positions up to `stop` of `key` are those of a source or copy. -/
def Inside (q : QueueState) (key : String) (stop : Nat) : Prop :=
  (∃ s ∈ q.sources, s.key = key ∧ stop ≤ s.length) ∨
    ∃ c ∈ q.copies, c.key = key ∧ stop ≤ c.of.len

theorem Valid.heldSpans_rows (h : q.Valid) {span : Span} (hs : span ∈ q.heldSpans) {p : Nat}
    (hlo : span.start ≤ p) (hhi : p < span.start + span.len) :
    0 < span.len ∧ (span.view, p) ∈ q.mentioned := by
  simp only [heldSpans, List.mem_append, or_assoc] at hs
  rcases hs with hs | hs | hs | hs
  · exact ⟨q.manual.canonical.1 span hs,
      mem_mentioned.2 (Or.inr (Or.inl (span_row hs hlo hhi)))⟩
  · exact ⟨q.order.canonical.1 span hs,
      mem_mentioned.2 (Or.inr (Or.inr (Or.inl (span_row hs hlo hhi))))⟩
  · cases hsh : q.shuffle with
    | none => simp [hsh] at hs
    | some s =>
      simp only [hsh, Option.elim_some] at hs
      refine ⟨s.base.canonical.1 span hs, mem_mentioned.2 ?_⟩
      exact Or.inr (Or.inr (Or.inr (Or.inl (mem_baseRows.2 ⟨s, hsh, span_row hs hlo hhi⟩))))
  · obtain ⟨run, hrun, rfl⟩ := List.mem_map.mp hs
    refine ⟨h.runs_pos run hrun, mem_mentioned.2 (Or.inr (Or.inr (Or.inr (Or.inr ?_))))⟩
    rw [playRows_eq]
    exact List.mem_flatMap.mpr ⟨run.span, hs, Span.mem_rows.2 ⟨rfl, hlo, hhi⟩⟩

theorem Valid.heldSpans_pos (h : q.Valid) {span : Span} (hs : span ∈ q.heldSpans) :
    0 < span.len := by
  simp only [heldSpans, List.mem_append, or_assoc] at hs
  rcases hs with hs | hs | hs | hs
  · exact q.manual.canonical.1 span hs
  · exact q.order.canonical.1 span hs
  · cases hsh : q.shuffle with
    | none => simp [hsh] at hs
    | some s =>
      simp only [hsh, Option.elim_some] at hs
      exact s.base.canonical.1 span hs
  · obtain ⟨run, hrun, rfl⟩ := List.mem_map.mp hs
    exact h.runs_pos run hrun

theorem mem_rows_span {l : SpanList} {key : String} {p : Nat} (h : (View.key key, p) ∈ l.rows) :
    ∃ span ∈ l.spans, span.view = .key key := by
  obtain ⟨span, hs, hread⟩ := (SpanList.mem_rows_iff ..).mp h
  exact ⟨span, hs, hread.1.symm⟩

/-- What the spans and the item playing refer to is what the rows mention. -/
theorem Valid.refersTo_iff (h : q.Valid) {key : String} : q.RefersTo key ↔ q.Refers key := by
  constructor
  · rintro (⟨item, hc, rfl⟩ | ⟨span, hs, hv⟩)
    · exact ⟨item.pos, current_mentioned hc⟩
    · have hpos := h.heldSpans_pos hs
      have := (h.heldSpans_rows hs (Nat.le_refl _) (by omega)).2
      exact ⟨span.start, hv ▸ this⟩
  · rintro ⟨p, hp⟩
    rcases mem_mentioned.1 hp with ⟨item, hc, he⟩ | hm | hm | hm | hm
    · simp only [ItemId.row, ItemId.view, Prod.mk.injEq, View.key.injEq] at he
      exact Or.inl ⟨item, hc, he.1.symm⟩
    · obtain ⟨span, hs, hv⟩ := mem_rows_span hm
      exact Or.inr ⟨span, by simp [heldSpans, hs], hv⟩
    · obtain ⟨span, hs, hv⟩ := mem_rows_span hm
      exact Or.inr ⟨span, by simp [heldSpans, hs], hv⟩
    · obtain ⟨s, hsh, hr⟩ := mem_baseRows.1 hm
      obtain ⟨span, hs, hv⟩ := mem_rows_span hr
      exact Or.inr ⟨span, by simp [heldSpans, hsh, hs], hv⟩
    · rw [playRows_eq] at hm
      obtain ⟨span, hs, hr⟩ := List.mem_flatMap.mp hm
      refine Or.inr ⟨span, ?_, (Span.mem_rows.1 hr).1.symm⟩
      simp only [heldSpans, List.mem_append]
      exact Or.inr hs

theorem Grounded.inside (h : q.Grounded) {key : String} {p : Nat}
    (hp : (View.key key, p) ∈ q.mentioned) : q.Inside key (p + 1) := by
  rcases h.named key p hp with ⟨s, hs, hk, hlt⟩ | ⟨c, hc, hk, hlt⟩
  · exact Or.inl ⟨s, hs, hk, hlt⟩
  · exact Or.inr ⟨c, hc, hk, hlt⟩

/-- **References in every queue.** Keys are unique; every span, and the item playing, lies
inside a source or copy; a copy's spans lie inside sources; and the sources and copies present
are exactly those referred to. -/
theorem run_references (calls : List Call) :
    let q := run calls
    (q.sources.map (·.key) ++ q.copies.map (·.key)).Nodup ∧
      (∀ span ∈ q.heldSpans, ∀ key, span.view = .key key →
        q.Inside key (span.start + span.len)) ∧
      (∀ item ∈ q.current, q.Inside item.key (item.pos + 1)) ∧
      (∀ c ∈ q.copies, ∀ span ∈ c.of.spans, ∃ s ∈ q.sources,
        span.view = .key s.key ∧ span.start + span.len ≤ s.length) ∧
      (∀ key, key ∈ q.copies.map (·.key) → q.RefersTo key) ∧
      ∀ key, key ∈ q.sources.map (·.key) ++ q.copies.map (·.key) ↔
        q.RefersTo key ∨ ∃ c ∈ q.copies, ∃ span ∈ c.of.spans, span.view = .key key := by
  intro q
  have hv : q.Valid := run_valid calls
  have hg := hv.grounded
  refine ⟨hg.keys_nodup, ?_, ?_, ?_, ?_, ?_⟩
  · intro span hs key hview
    have hpos := hv.heldSpans_pos hs
    have hlast := (hv.heldSpans_rows hs (p := span.start + (span.len - 1)) (by omega)
      (by omega)).2
    rw [hview] at hlast
    have := hg.inside hlast
    rwa [show span.start + (span.len - 1) + 1 = span.start + span.len by omega] at this
  · intro item hc
    exact hg.inside (current_mentioned hc)
  · intro c hc span hs
    have hpos : 0 < span.len := c.of.canonical.1 span hs
    obtain ⟨s, hsrc, hview, hlt⟩ := hg.copies_ok c hc _ (span_last hs)
    exact ⟨s, hsrc, hview, by simp only at hlt; omega⟩
  · intro key hk
    obtain ⟨c, hc, rfl⟩ := List.mem_map.mp hk
    exact hv.refersTo_iff.mpr (hv.tidy.copies_used c hc)
  · intro key
    rw [hv.refersTo_iff]
    constructor
    · intro hk
      rcases List.mem_append.mp hk with hk | hk
      · obtain ⟨s, hs, rfl⟩ := List.mem_map.mp hk
        rcases hv.tidy.sources_used s hs with hr | ⟨c, hc, p, hp⟩
        · exact Or.inl hr
        · exact Or.inr ⟨c, hc, mem_rows_span hp⟩
      · obtain ⟨c, hc, rfl⟩ := List.mem_map.mp hk
        exact Or.inl (hv.tidy.copies_used c hc)
    · rintro (⟨p, hp⟩ | ⟨c, hc, span, hs, hview⟩)
      · rcases hg.named key p hp with ⟨s, hs, rfl, -⟩ | ⟨c, hc, rfl, -⟩
        · exact List.mem_append.mpr (Or.inl (List.mem_map.mpr ⟨s, hs, rfl⟩))
        · exact List.mem_append.mpr (Or.inr (List.mem_map.mpr ⟨c, hc, rfl⟩))
      · obtain ⟨s, hsrc, hkey, -⟩ := hg.copies_ok c hc _ (span_first hs)
        obtain rfl : key = s.key := by simpa [hview] using hkey
        exact List.mem_append.mpr (Or.inl (List.mem_map.mpr ⟨s, hsrc, rfl⟩))

/-! ### Play numbers -/

/-- Whether play number `n` is in History and played `item`. -/
def Played (q : QueueState) (n : Nat) (item : ItemId) : Prop :=
  ∃ run ∈ q.history, ∃ o < run.span.len,
    n = run.first + o ∧ run.span.view = .key item.key ∧ item.pos = run.span.start + o

theorem played_iff {n : Nat} {item : ItemId} : q.Played n item ↔ (n, item.row) ∈ q.plays := by
  rw [mem_plays_iff]
  constructor
  · rintro ⟨run, hrun, o, ho, rfl, hview, hpos⟩
    obtain ⟨i, hi⟩ := List.mem_iff_getElem?.mp hrun
    exact ⟨i, run, hi, o, ho, by simp [ItemId.row, ItemId.view, hview, hpos]⟩
  · rintro ⟨i, run, hi, o, ho, he⟩
    simp only [ItemId.row, ItemId.view, Prod.mk.injEq] at he
    exact ⟨run, List.mem_of_getElem? hi, o, ho, he.1, he.2.1.symm, he.2.2⟩

/-- **A play number names one item for ever.** Over a run of edits, from any queue: runs are
nonempty, in number order and below `nextPlay`, which never falls; a number in History at two
moments names the same item at both, and one that is used and not in History never comes back;
so a play named at one moment is found later only as itself, and is found while its number is
there. -/
theorem play_numbers (calls : List Call) (edits later : List Edit) :
    let q := after edited (run calls) edits
    let q' := after edited q later
    (∀ run ∈ q.history, 0 < run.span.len ∧ run.first + run.span.len ≤ q.nextPlay) ∧
      q.history.Pairwise (fun a b => a.first + a.span.len ≤ b.first) ∧
      q.history.length ≤ 1000 ∧
      q.nextPlay ≤ q'.nextPlay ∧
      (∀ n item item', q.Played n item → q'.Played n item' → item = item') ∧
      (∀ n < q.nextPlay, (∀ item, ¬ q.Played n item) → ∀ item, ¬ q'.Played n item) ∧
      (∀ play i offset, q'.matchPlay play = some (i, offset) →
        ∃ run, q'.history[i]? = some run ∧ offset < run.span.len ∧
          play.play = run.first + offset ∧ run.span.view = .key play.item.key ∧
          play.item.pos = run.span.start + offset) ∧
      ∀ play, q.Played play.play play.item →
        ((q'.matchPlay play).isSome ↔ ∃ item, q'.Played play.play item) := by
  intro q q'
  have hv : q.Valid := (run_valid calls).valid_after edits
  have hv' : q'.Valid := hv.valid_after later
  have hkept : PlaysKept q q' := hv.plays_after later
  have hsame : ∀ n item item', q.Played n item → q'.Played n item' → item = item' := by
    intro n item item' hi hi'
    rw [played_iff] at hi hi'
    have hold := hkept.old _ hi' (hv.numbered.below (n, item.row) hi)
    exact ItemId.row_inj (hv.numbered.play_unique hi hold)
  refine ⟨?_, hv.numbered.ordered, ?_, hkept.next_le, hsame, ?_, ?_, ?_⟩
  · intro run hrun
    have hpos := hv.runs_pos run hrun
    refine ⟨hpos, ?_⟩
    obtain ⟨i, hi⟩ := List.mem_iff_getElem?.mp hrun
    have hlast : (run.first + (run.span.len - 1),
        (run.span.view, run.span.start + (run.span.len - 1))) ∈ q.plays :=
      mem_plays_iff.2 ⟨i, run, hi, _, by omega, rfl⟩
    have := hv.numbered.below _ hlast
    simp only at this
    omega
  · have := hv.numbered.bounded
    rwa [historyRuns] at this
  · intro n hn hno item hi
    rw [played_iff] at hi
    exact hno item (played_iff.2 (hkept.old _ hi hn))
  · intro play i offset hm
    obtain ⟨run, hat⟩ := hv'.numbered.matchPlay_iff.mp hm
    exact ⟨run, hat.get, hat.offset_lt, hat.number, hat.view, hat.pos⟩
  · intro play hplay
    rw [hv'.numbered.matchPlay_isSome, ← played_iff]
    constructor
    · intro h
      exact ⟨_, h⟩
    · rintro ⟨item, hi⟩
      rwa [hsame _ _ _ hplay hi]

end QueueState

end JewelCase.Queue
