import Mathlib.Data.List.TakeWhile
import JewelCase.Queue.SpanList
import JewelCase.Queue.PreviousResults

/-!
# A span list stands for its rows

What a span list's fields are, that no two lists have the same rows, and each operation as one on
the sequence of rows, at every boundary.
-/
namespace JewelCase.Queue

set_option autoImplicit false

open Library (Stretch)

namespace SpanList

/-- Reads a list from its spans alone, in any form. -/
def deserialize (spans : List Span) : SpanList := fromSpans spans

/-- Two neighbours that could be one span. -/
def Mergeable (a b : Span) : Prop := a.view = b.view ∧ a.start + a.len = b.start

theorem neighbours (l : SpanList) : l.spans.IsChain fun a b => ¬ Mergeable a b := by
  refine l.canonical.2.imp ?_
  intro a b hne hmerge
  apply hne
  rw [Span.after_eq, Span.head_eq, hmerge.1, hmerge.2]

theorem getElem?_ends (l : SpanList) {i : Nat} (hi : i < l.spans.length) :
    l.ends[i]? = some (rowsOf (l.spans.take (i + 1))).length := by
  rw [l.running, getElem?_runningLengths 0 l.spans i hi, Nat.zero_add]

theorem length_ends (l : SpanList) : l.ends.length = l.spans.length := by
  rw [l.running, length_runningLengths]

/-- A row is in the span that starts before it and ends after it. -/
theorem locate_eq_some (l : SpanList) {index i offset : Nat} :
    l.locate index = some (i, offset) ↔
      ∃ span, l.spans[i]? = some span ∧ offset < span.len ∧
        index = (rowsOf (l.spans.take i)).length + offset := by
  rw [l.good.locate_eq_some]
  constructor
  · rintro ⟨hi, hindex, hlt⟩
    have hspan := List.getElem?_eq_getElem hi
    rw [rowsOf_take_succ hspan, List.length_append, Stretch.length_rows, Span.len_eq] at hlt
    exact ⟨_, hspan, by omega, hindex⟩
  · rintro ⟨span, hspan, hoffset, hindex⟩
    have hi : i < l.spans.length := (List.getElem?_eq_some_iff.mp hspan).1
    refine ⟨hi, hindex, ?_⟩
    rw [rowsOf_take_succ hspan, List.length_append, Stretch.length_rows, Span.len_eq]
    omega

theorem find_eq (l : SpanList) (view : View) (pos : Nat) :
    l.find view pos = l.rows.findIdx? fun row => row = (view, pos) := by
  cases hfind : l.find view pos with
  | none =>
    symm
    rw [List.findIdx?_eq_none_iff]
    intro row hrow
    have hnot := (find_eq_none l view pos).mp hfind
    simp only [decide_eq_false_iff_not]
    rintro rfl
    exact hnot hrow
  | some row =>
    obtain ⟨hrow, hbefore⟩ := find_eq_some hfind
    obtain ⟨hlt, heq⟩ := List.getElem?_eq_some_iff.mp hrow
    symm
    rw [List.findIdx?_eq_some_iff_getElem]
    refine ⟨hlt, by simpa using heq, ?_⟩
    intro j hj
    simp only [decide_eq_true_eq]
    intro hsame
    apply hbefore
    rw [← hsame]
    exact List.mem_take_iff_getElem.mpr ⟨j, by omega, rfl⟩

/-- Every span list, however it was made: no span is empty, no two neighbours could be one, and the
running lengths are those of its spans. Its rows determine it. Splicing, slicing, removing and
reading are those operations on the rows, clamped to them. -/
theorem stands_for_rows :
    (∀ l : SpanList, (∀ span ∈ l.spans, 0 < span.len) ∧
      (l.spans.IsChain fun a b => ¬ Mergeable a b) ∧
      l.ends.length = l.spans.length ∧
      (∀ i < l.spans.length, l.ends[i]? = some (rowsOf (l.spans.take (i + 1))).length) ∧
      l.len = l.rows.length) ∧
    (∀ a b : SpanList, a.rows = b.rows → a = b) ∧
    (∀ spans, (fromSpans spans).rows = rowsOf spans ∧ (deserialize spans).rows = rowsOf spans) ∧
    (∀ l : SpanList, deserialize l.spans = l) ∧
    (∀ (l : SpanList) index spans,
      (l.splice index spans).rows = l.rows.take index ++ rowsOf spans ++ l.rows.drop index) ∧
    (∀ (l : SpanList) start stop,
      rowsOf (l.remove start stop).1 = (l.rows.take stop).drop start ∧
      (l.remove start stop).2.rows = l.rows.take start ++ l.rows.drop (max start stop) ∧
      rowsOf (l.slice start stop) = (l.rows.take stop).drop start) ∧
    (∀ (l : SpanList) (rows : List Nat), rows.Pairwise (· < ·) →
      (l.removeRows rows).2.rows = (l.rows.zipIdx.filter fun row => row.2 ∉ rows).map Prod.fst ∧
      (l.removeRows rows).1 =
        ((l.rows.zipIdx.filter fun row => row.2 ∈ rows).map Prod.fst).map single) ∧
    (∀ (l : SpanList) index, (l.locate index = none ↔ l.rows.length ≤ index) ∧
      (∀ i offset, l.locate index = some (i, offset) ↔
        ∃ span, l.spans[i]? = some span ∧ offset < span.len ∧
          index = (rowsOf (l.spans.take i)).length + offset) ∧
      l.get index = l.rows[index]?) ∧
    (∀ (l : SpanList) view pos,
      l.find view pos = l.rows.findIdx? fun row => row = (view, pos)) := by
  refine ⟨?_, fun a b h => ext_rows h, ?_, fromSpans_spans, rows_splice, ?_, ?_, ?_, find_eq⟩
  · intro l
    exact ⟨l.canonical.1, l.neighbours, l.length_ends, fun i hi => l.getElem?_ends hi, l.len_eq⟩
  · intro spans
    exact ⟨rows_fromSpans spans, rows_fromSpans spans⟩
  · intro l start stop
    obtain ⟨hremoved, hrest⟩ := rows_remove l start stop
    exact ⟨hremoved, hrest, rows_slice l start stop⟩
  · intro l rows hrows
    exact removeRows_ok l hrows
  · intro l index
    exact ⟨l.good.locate_eq_none, fun i offset => l.locate_eq_some, l.get_eq index⟩

end SpanList

end JewelCase.Queue

/-!
## A shuffle turned off again

Turning shuffle on and off with nothing between gives back the queue it began with, down to its
spans: the natural order around no pivot is the base's own.
-/
namespace JewelCase.Queue

set_option autoImplicit false

open Library.Lists

namespace Shuffled

variable {m : Shuffled}

/-- A shuffle just turned on: what was passed is not of the base, and all the base is ahead. -/
structure Fresh (m : Shuffled) : Prop where
  passed : ∀ p ∈ m.passed, isAdded p = true
  ahead : ∀ p ∈ m.ahead, isAdded p = false
  whole : ∀ b < m.base.length, .base b ∈ m.ahead
  current : ∀ c ∈ m.current, c ∉ m.base

theorem Fresh.not_passed (h : m.Fresh) {b : Nat} : .base b ∉ m.passed := by
  intro hb
  have := h.passed _ hb
  simp [isAdded, Place.base?] at this

theorem Fresh.pivot (h : m.Fresh) : m.pivot = none := by
  have hcurrent : (m.current.bind fun c => m.base.idxOf? c) = none := by
    rw [Option.bind_eq_none_iff]
    intro c hc
    exact List.idxOf?_eq_none_iff.mpr (h.current c hc)
  have hpassed : m.passed.filterMap Place.base? = [] := by
    rw [List.filterMap_eq_nil_iff]
    intro p hp
    simpa [isAdded] using h.passed p hp
  rw [Shuffled.pivot, hcurrent, hpassed]
  rfl

theorem Fresh.split (h : m.Fresh) : m.split = 0 := by
  rw [Shuffled.split, h.pivot]
  rfl

theorem anchors_bases (split : Nat) (seen : Bool) {places : List Place}
    (hbases : ∀ p ∈ places, isAdded p = false) : anchors split seen places = [] := by
  induction places generalizing seen with
  | nil => rfl
  | cons p places ih =>
    cases p with
    | base b => exact ih true fun p hp => hbases p (List.mem_cons_of_mem _ hp)
    | added item => cases hbases _ List.mem_cons_self

theorem Fresh.natural (h : m.Fresh) (b : Nat) : m.natural b = m.base[b]?.toList := by
  unfold Shuffled.natural
  by_cases hb : b < m.base.length
  · exact if_pos ⟨List.mem_append_right _ (h.whole b hb), fun htwo => h.not_passed htwo.1⟩
  · rw [List.getElem?_eq_none (by omega)]
    exact ite_self _

/-- Turned off again, what was passed is what it was. -/
theorem Fresh.naturalPassed (h : m.Fresh) :
    m.naturalPassed = m.passed.filterMap Place.added? := by
  have htake : m.passed.takeWhile isAdded = m.passed := List.takeWhile_eq_self_iff.mpr h.passed
  have hdrop : m.passed.dropWhile isAdded = [] := List.dropWhile_eq_nil_iff.mpr h.passed
  rw [Shuffled.naturalPassed, htake, hdrop, h.split]
  simp

/-- Turned off again, what is ahead is the base. -/
theorem Fresh.naturalAhead (h : m.Fresh) : m.naturalAhead = m.base := by
  have hanchors : m.aheadAnchors = [] := anchors_bases _ _ h.ahead
  rw [Shuffled.naturalAhead, hanchors, h.split]
  simp only [List.filter_nil, List.map_nil, List.nil_append, List.append_nil, h.natural]
  rw [← List.filterMap_eq_flatMap_toList, Nat.sub_zero, ← List.range_eq_range',
    List.range_succ, List.filterMap_append, filterMap_range_get]
  simp

end Shuffled

namespace QueueState

variable {q : QueueState}

/-- Turning shuffle on leaves a fresh shuffle of what was unplayed. -/
theorem Valid.shuffled_fresh (h : q.Valid) (hs : q.shuffle = none) {s : Shuffle} {order : SpanList}
    (hbase : s.base.rows = q.order.rows.drop q.cursor)
    (horder : order.rows = q.order.rows.take q.cursor ++
      (List.range' 0 s.base.len).map fun p => (View.shuffle, p)) (hok : s.Ok) :
    (shuffled { q with order := order, shuffle := some s } s).Fresh ∧
      (shuffled { q with order := order, shuffle := some s } s).passed.filterMap Place.added? =
        q.lists.passed ∧
      (shuffled { q with order := order, shuffle := some s } s).base = q.lists.ahead := by
  have hkeys : KeyRows q.order.rows := by
    have := h.placed.order_reads
    rw [hs] at this
    exact Defined.keys_of_none this
  have hlength : (q.order.rows.take q.cursor).length = q.cursor := by
    rw [List.length_take]
    exact Nat.min_eq_left h.placed.cursor_le
  have hbehind : KeyRows (q.order.rows.take q.cursor) :=
    hkeys.sub fun _ hr => List.mem_of_mem_take hr
  have hbaseItems : s.baseItems = q.lists.ahead := by
    have hahead : KeyRows (q.order.rows.drop q.cursor) :=
      hkeys.sub fun _ hr => List.mem_of_mem_drop hr
    rw [Shuffle.baseItems, hbase]
    exact (hahead.items _).symm
  have hpassed : (shuffled { q with order := order, shuffle := some s } s).passed =
      ((q.order.rows.take q.cursor).filterMap keyItem).map .added := by
    simp only [shuffled, horder, List.take_left' hlength]
    exact places_key _ _ hbehind
  have hahead : (shuffled { q with order := order, shuffle := some s } s).ahead =
      (List.range' 0 s.base.len).map fun p => .base (permute s.seed s.base.len p) := by
    simp only [shuffled, horder, List.drop_left' hlength, List.map_map]
    rfl
  refine ⟨⟨?_, ?_, ?_, ?_⟩, ?_, hbaseItems⟩
  · intro p hp
    rw [hpassed, List.mem_map] at hp
    obtain ⟨item, -, rfl⟩ := hp
    rfl
  · intro p hp
    rw [hahead, List.mem_map] at hp
    obtain ⟨row, -, rfl⟩ := hp
    rfl
  · intro b hb
    have hlt : b < s.base.len := hok.length ▸ hb
    rw [hahead, List.mem_map]
    refine ⟨unpermute s.seed s.base.len b, ?_, congrArg _ (permute_unpermute s.seed hlt)⟩
    rw [List.mem_range'_1]
    have := unpermute_lt s.seed hlt
    omega
  · intro c hc hin
    have hin' : c ∈ s.baseItems := hin
    rw [hbaseItems] at hin'
    exact h.placed.sound.current_notin c hc (List.mem_append_right _ hin')
  · rw [hpassed, List.filterMap_map]
    refine (List.filterMap_some ..).trans ?_
    exact (hbehind.items _).symm

/-- Turned off at once, a shuffle leaves the queue as it was. -/
theorem Valid.shuffle_undone (h : q.Valid) (hs : q.shuffle = none) (seed : UInt32) :
    (q.setShuffle true seed).unshuffle = q := by
  obtain ⟨s, order, he, -, hbase, horder⟩ := q.setShuffle_on hs seed
  have hplaced := (h.shuffleOn hs seed).valid.placed
  rw [he] at hplaced ⊢
  obtain ⟨hfresh, hpassed, hahead⟩ :=
    h.shuffled_fresh hs hbase horder (hplaced.shuffle_ok s rfl)
  obtain ⟨q', hu, hun⟩ := hplaced.unshuffled (s := s) rfl
  have hkeys : KeyRows q.order.rows := by
    have := h.placed.order_reads
    rw [hs] at this
    exact Defined.keys_of_none this
  have hitems : q'.order.rows.filterMap keyItem = q.order.rows.filterMap keyItem := by
    have hlists : q'.lists.order = q.lists.order := by
      rw [hu.lists, hfresh.naturalPassed, hfresh.naturalAhead, hpassed, hahead]
      rfl
    rw [← hu.keys.items q'.shuffle, ← hkeys.items q.shuffle]
    exact (order_items q').trans (hlists.trans (order_items q).symm)
  have horders : q'.order = q.order := by
    refine SpanList.ext_rows ?_
    rw [← hu.keys.rows_eq, hitems, hkeys.rows_eq]
  have hcursor : q'.cursor = q.cursor := by
    rw [hu.cursor, hfresh.naturalPassed, hpassed]
    exact h.placed.length_passed
  have hback : q' = q := by
    rw [hu.frame, horders, hcursor, ← hs]
  rw [hun, hback]
  exact h.tidy.cleanUp_eq h.runs_pos

theorem Valid.upNextItems_drop (h : q.Valid) :
    q.upNextItems.drop q.manual.len = q.lists.ahead := by
  have hmanual : q.manual.len = q.lists.manual.length := by
    rw [h.placed.manual_items, h.placed.manual_keys.total.length, SpanList.len_eq]
  rw [h.upNextItems_eq, hmanual]
  exact List.drop_left

/-- Turning shuffle on reorders what the context has ahead. -/
theorem Valid.shuffleOn_ahead (h : q.Valid) (hs : q.shuffle = none) (seed : UInt32) :
    (q.setShuffle true seed).lists.ahead.Perm q.lists.ahead := by
  obtain ⟨s, order, he, -, hbase, horder⟩ := q.setShuffle_on hs seed
  have hplaced := (h.shuffleOn hs seed).valid.placed
  rw [he] at hplaced ⊢
  have hok := hplaced.shuffle_ok s rfl
  obtain ⟨-, -, hahead⟩ := h.shuffled_fresh hs hbase horder hok
  have hlength : (q.order.rows.take q.cursor).length = q.cursor := by
    rw [List.length_take]
    exact Nat.min_eq_left h.placed.cursor_le
  have hlap : lists { q with order := order, shuffle := some s } =
      { lists { q with order := order, shuffle := some s } with ahead := s.lap } := by
    simp only [lists, horder, List.drop_left' hlength, itemsOf_lap]
  rw [hlap, ← hahead]
  exact hok.lap_perm

/-- In every queue there is with shuffle off, turning it on with any seed and off again gives back
the queue, spans and all. In between, behind the same Manual Queue, Up Next is a permutation of what
it was. -/
theorem shuffle_on_then_off (calls : List Call) (seed off : UInt32)
    (hshuffle : (run calls).shuffle = none) :
    (run calls).apply (.shuffle true seed) =
      (.ok (), (run calls).edited (.shuffle true seed)) ∧
    ((run calls).edited (.shuffle true seed)).apply (.shuffle false off) = (.ok (), run calls) ∧
    ((run calls).edited (.shuffle true seed)).manual = (run calls).manual ∧
    (((run calls).edited (.shuffle true seed)).upNextItems.drop (run calls).manual.len).Perm
      ((run calls).upNextItems.drop (run calls).manual.len) := by
  have h := run_valid calls
  have hon : (run calls).edited (.shuffle true seed) = (run calls).setShuffle true seed := rfl
  have hkept := (h.shuffleOn hshuffle seed).valid
  obtain ⟨s, order, he, -⟩ := (run calls).setShuffle_on hshuffle seed
  have hmanual : ((run calls).setShuffle true seed).manual = (run calls).manual := by
    rw [he]
  refine ⟨rfl, ?_, ?_, ?_⟩
  · have hoff : ((run calls).setShuffle true seed).setShuffle false off =
        ((run calls).setShuffle true seed).unshuffle := by
      rw [he]
      rfl
    rw [hon, apply, hoff, h.shuffle_undone hshuffle]
  · exact hmanual
  · rw [hon, h.upNextItems_drop, ← hmanual, hkept.upNextItems_drop]
    exact h.shuffleOn_ahead hshuffle seed

theorem shuffle_on_then_off_of_four :
    ((run [.start ⟨"a", "", none, 4, none⟩ 1]).edited (.shuffle true 9)).apply (.shuffle false 0) =
      (.ok (), run [.start ⟨"a", "", none, 4, none⟩ 1]) :=
  (shuffle_on_then_off [.start ⟨"a", "", none, 4, none⟩ 1] 9 0 (by decide +kernel)).2.1

end QueueState

end JewelCase.Queue
