import JewelCase.Queue.Take
import JewelCase.Queue.Valid

/-!
# Add, remove and move

The three edits of Up Next are the plain list edits of `Lists`, and keep the queue valid. Rows
that leave the shuffled context for the Manual Queue become list positions on the way.
-/
namespace JewelCase.Queue

set_option autoImplicit false

open Library (Stretch)
open Library.Lists

namespace QueueState

variable {q : QueueState}

/-! ### Rows put in -/

theorem mem_rows_splice {l : SpanList} {i : Nat} {spans : List Span} {r : Row} :
    r ∈ (l.splice i spans).rows ↔ r ∈ l.rows ∨ r ∈ rowsOf spans := by
  rw [SpanList.rows_splice]
  conv_rhs => rw [← List.take_append_drop i l.rows]
  simp only [List.mem_append]
  tauto

theorem length_rows_splice (l : SpanList) (i : Nat) (spans : List Span) :
    (l.splice i spans).rows.length = l.rows.length + (rowsOf spans).length := by
  rw [SpanList.rows_splice]
  simp only [List.length_append, List.length_take, List.length_drop]
  omega

theorem mem_mentioned_put (spot : Spot) (spans : List Span) {r : Row} :
    r ∈ (q.put spot spans).mentioned ↔ r ∈ q.mentioned ∨ r ∈ rowsOf spans := by
  cases spot with
  | manual i =>
    simp only [mem_mentioned, put, mem_rows_splice, baseRows, playRows, plays]
    grind
  | order i =>
    simp only [mem_mentioned, put, mem_rows_splice, baseRows, playRows, plays]
    grind


theorem itemsOf_listRows (shuffle : Option Shuffle) (rows : List Row) :
    itemsOf shuffle (listRows shuffle rows) = itemsOf shuffle rows := by
  rw [itemsOf, (listRows_keys shuffle rows).items, listRows, List.filterMap_map]
  exact List.filterMap_some

theorem rows_listSpan (hok : ∀ s ∈ q.shuffle, s.Ok) (span : Span) :
    rowsOf (q.listSpan span) = listRows q.shuffle (Stretch.rows span) := by
  unfold listSpan
  cases hv : span.view with
  | key k =>
    rw [listRows_of_keys]
    · simp
    · rintro ⟨v, p⟩ hr
      rw [Span.mem_rows] at hr
      simp [hr.1, hv]
  | shuffle =>
    simp only [Span.rows_eq, hv]
    induction List.range' span.start span.len with
    | nil => rfl
    | cons p ps ih =>
      have hp : q.itemOf .shuffle p = rowItem q.shuffle (.shuffle, p) :=
        q.itemOf_eq hok (.shuffle, p)
      rw [List.map_cons, listRows, itemsOf]
      cases hi : rowItem q.shuffle (.shuffle, p) with
      | none =>
        rw [List.filterMap_cons_none (by rw [hp, hi]; rfl), List.filterMap_cons_none hi, ih]
        rfl
      | some item =>
        rw [List.filterMap_cons_some (b := playSpan item) (by rw [hp, hi]; rfl),
          List.filterMap_cons_some hi, rowsOf_cons, ih, rows_playSpan]
        rfl

/-- Rows recorded outside the shuffled context are list positions. -/
theorem rows_listSpans (hok : ∀ s ∈ q.shuffle, s.Ok) (spans : List Span) :
    rowsOf (q.listSpans spans) = listRows q.shuffle (rowsOf spans) := by
  rw [listSpans]
  change (SpanList.fromSpans _).rows = _
  rw [SpanList.rows_fromSpans]
  induction spans with
  | nil => rfl
  | cons span spans ih =>
    rw [List.flatMap_cons, rowsOf_append, rowsOf_cons, listRows_append, ih, rows_listSpan hok]

theorem spot_toManual (h : q.Placed) {a : Anchor} {moving : List Nat} {spot : Spot}
    (hs : q.spot a moving = .ok spot) :
    q.lists.toManual a = spot.isManual := by
  have hml := h.length_manual
  cases a with
  | manualStart =>
    obtain rfl : Spot.manual 0 = spot := by simpa [QueueState.spot] using hs
    rfl
  | manualEnd =>
    obtain rfl : Spot.manual q.manual.len = spot := by simpa [QueueState.spot] using hs
    rfl
  | contextEnd =>
    obtain rfl : Spot.order q.order.len = spot := by simpa [QueueState.spot] using hs
    rfl
  | before item =>
    simp only [QueueState.spot] at hs
    cases hf : q.findItem item with
    | none => simp [hf] at hs
    | some i =>
      have hup := h.findItem_iff.mp hf
      simp only [hf] at hs
      split at hs
      · cases hs
      · split at hs
        · obtain rfl : Spot.manual i = spot := by simpa using hs
          rw [Lists.upNext, List.getElem?_append_left (by omega)] at hup
          simpa [Lists.toManual, Spot.isManual] using List.mem_of_getElem? hup
        · obtain rfl : Spot.order _ = spot := by simpa using hs
          rw [Lists.upNext, List.getElem?_append_right (by omega)] at hup
          have hmem := List.mem_of_getElem? hup
          have hn : item ∉ q.lists.manual := fun hm =>
            (List.nodup_append.mp h.sound.upNext_nodup).2.2 item hm item hmem rfl
          simpa [Lists.toManual, Spot.isManual] using hn

/-- Rows put at a spot can be read there: list positions in the Manual Queue, and rows that the
shuffle reads in the context. -/
def Fits (q : QueueState) (toManual : Bool) (rows : List Row) : Prop :=
  if toManual then KeyRows rows else Defined (rowItem q.shuffle) rows

theorem Placed.put (h : q.Placed) {spot : Spot} {spans : List Span}
    (hfit : q.Fits spot.isManual (rowsOf spans))
    (hsound : (q.put spot spans).lists.Sound) : (q.put spot spans).Placed := by
  cases spot with
  | manual i =>
    refine ⟨⟨h.cursor_le, ?_, h.shuffle_ok, h.order_reads⟩, hsound⟩
    intro r hr
    rcases mem_rows_splice.1 hr with hr | hr
    · exact h.manual_keys r hr
    · exact hfit r hr
  | order i =>
    refine ⟨⟨?_, h.manual_keys, h.shuffle_ok, ?_⟩, hsound⟩
    · have := h.cursor_le
      simp only [QueueState.put, length_rows_splice]
      omega
    · intro r hr
      rcases mem_rows_splice.1 hr with hr | hr
      · exact h.order_reads r hr
      · exact hfit r hr

/-! ### Add -/

/-- The items of a new source. -/
def sourceItems (source : Source) : List ItemId :=
  (List.range' 0 source.length).map fun p => ⟨source.key, p⟩

theorem rows_source (source : Source) :
    rowsOf [⟨.key source.key, 0, source.length⟩] = (sourceItems source).map ItemId.row := by
  rw [rowsOf_cons, rowsOf_nil, List.append_nil, Span.rows_eq, sourceItems, List.map_map]
  rfl

theorem itemsOf_map_row (shuffle : Option Shuffle) (items : List ItemId) :
    itemsOf shuffle (items.map ItemId.row) = items := by
  rw [itemsOf, List.filterMap_map]
  exact List.filterMap_some

theorem keys_map_row (items : List ItemId) : KeyRows (items.map ItemId.row) := by
  intro r hr
  obtain ⟨item, -, rfl⟩ := List.mem_map.mp hr
  simp [ItemId.row, ItemId.view]

theorem sourceItems_nodup (source : Source) : (sourceItems source).Nodup :=
  List.Nodup.map (fun a b hab => by simpa using hab) (List.nodup_range' ..)

/-- The state after an add that acts. -/
def added (q : QueueState) (source : Source) (spot : Spot) : QueueState :=
  { (put { q with sources := q.sources ++ [source] } spot [⟨.key source.key, 0, source.length⟩])
    with adjusted := true }

theorem added_eq (q : QueueState) (source : Source) (spot : Spot) :
    q.added source spot =
      { (q.put spot [⟨.key source.key, 0, source.length⟩]) with
        sources := q.sources ++ [source]
        adjusted := true } := by
  cases spot <;> rfl

/-- **Add, case by case.** -/
theorem add_cases (q : QueueState) (source : Source) (before : Anchor) :
    (∃ e, q.spot before [] = .error e ∧ q.add source before = (.error e, q)) ∨
      (∃ spot, q.spot before [] = .ok spot ∧ q.hasKey source.key = true ∧
        q.add source before = (.error .duplicateKey, q)) ∨
      (∃ spot, q.spot before [] = .ok spot ∧ q.hasKey source.key = false ∧ source.length = 0 ∧
        q.add source before = (.ok (), q)) ∨
      ∃ spot, q.spot before [] = .ok spot ∧ q.hasKey source.key = false ∧ source.length ≠ 0 ∧
        q.add source before = (.ok (), q.added source spot) := by
  unfold add
  cases hs : q.spot before [] with
  | error e => exact Or.inl ⟨e, rfl, rfl⟩
  | ok spot =>
    right
    cases hk : q.hasKey source.key with
    | true => exact Or.inl ⟨spot, rfl, rfl, by simp⟩
    | false =>
      right
      by_cases h0 : source.length = 0
      · exact Or.inl ⟨spot, rfl, rfl, h0, by simp [h0]⟩
      · exact Or.inr ⟨spot, rfl, rfl, h0, by simp [h0, added]⟩

/-- **An add is a list insertion.** -/
theorem Placed.added_lists (h : q.Placed) {source : Source} {before : Anchor} {spot : Spot}
    (hs : q.spot before [] = .ok spot) :
    q.lists.insert (sourceItems source) before = some (q.added source spot).lists := by
  have := h.put_lists hs [⟨.key source.key, 0, source.length⟩]
  rw [rows_source, itemsOf_map_row] at this
  rw [this, added_eq]
  rfl

theorem Valid.added (h : q.Valid) {source : Source} {before : Anchor} {spot : Spot}
    (hs : q.spot before [] = .ok spot) (hk : q.hasKey source.key = false)
    (hl : source.length ≠ 0) : Keeps q (q.added source spot) := by
  have hput : q.lists.insert (sourceItems source) before = some (q.added source spot).lists :=
    h.placed.added_lists hs
  have hfresh : ∀ item ∈ sourceItems source, item.row ∉ q.mentioned := by
    intro item hi
    obtain ⟨p, -, rfl⟩ := List.mem_map.mp hi
    exact h.grounded.fresh hk
  have hsound : (q.added source spot).lists.Sound := by
    refine h.placed.sound.insert hput (sourceItems_nodup source) ?_ ?_ ?_
    · exact fun item hi hup => hfresh item hi (h.placed.upNext_mentioned hup)
    · exact fun _ item hi hp =>
        hfresh item hi (order_mentioned (List.mem_append_left _ hp))
    · exact fun item hc hi => hfresh item hi (current_mentioned hc)
  have hfit : q.Fits spot.isManual (rowsOf [⟨.key source.key, 0, source.length⟩]) := by
    rw [rows_source]
    have hkeys := keys_map_row (sourceItems source)
    cases spot with
    | manual i => exact hkeys
    | order i => exact hkeys.total_rowItem _
  have hplaced : (q.put spot [⟨.key source.key, 0, source.length⟩]).Placed :=
    h.placed.put hfit (by rw [added_eq] at hsound; exact hsound)
  have hment : ∀ r, r ∈ (q.added source spot).mentioned ↔
      r ∈ q.mentioned ∨ r ∈ (sourceItems source).map ItemId.row := by
    intro r
    rw [← rows_source, ← mem_mentioned_put spot, added_eq]
    exact Iff.rfl
  have hsources : (q.added source spot).sources = q.sources ++ [source] := by rw [added_eq]
  have hcopies : (q.added source spot).copies = q.copies ++ [] := by
    rw [added_eq, List.append_nil]
    cases spot <;> rfl
  have hhist : (q.added source spot).history = q.history ∧
      (q.added source spot).nextPlay = q.nextPlay := by
    cases spot <;> exact ⟨rfl, rfl⟩
  refine ⟨⟨?_, h.numbered.of_eq hhist.1 hhist.2, ?_, ?_⟩, .of_eq hhist.1 hhist.2⟩
  · rw [added_eq]
    exact hplaced.of_eq rfl rfl rfl rfl rfl
  · refine h.grounded.extend hsources hcopies ?_ ?_ (by simp)
    · rw [hsources, hcopies, List.append_nil]
      exact nodup_snoc_source h.grounded hk
    · intro key pos hm
      rcases (hment _).mp hm with hm | hm
      · exact Or.inl hm
      · obtain ⟨item, hi, he⟩ := List.mem_map.mp hm
        obtain ⟨p, hp, rfl⟩ := List.mem_map.mp hi
        rw [List.mem_range'_1] at hp
        simp only [ItemId.row, ItemId.view, Prod.mk.injEq, View.key.injEq] at he
        exact Or.inr (Or.inl ⟨source, by simp, he.1, by omega⟩)
  · refine h.tidy.extend hsources hcopies (fun key hr => hr.imp fun _ hp => (hment _).mpr (Or.inl hp)) ?_
      (by simp)
    intro s hs'
    obtain rfl : s = source := by simpa using hs'
    refine ⟨0, (hment _).mpr (Or.inr (List.mem_map.mpr ⟨⟨s.key, 0⟩, ?_, rfl⟩))⟩
    exact List.mem_map.mpr ⟨0, by rw [List.mem_range'_1]; omega, rfl⟩

theorem Valid.add (h : q.Valid) (source : Source) (before : Anchor) :
    Keeps q (q.add source before).2 := by
  rcases q.add_cases source before with ⟨e, -, he⟩ | ⟨spot, -, -, he⟩ | ⟨spot, -, -, -, he⟩ |
    ⟨spot, hs, hk, hl, he⟩
  · exact he ▸ h.keeps
  · exact he ▸ h.keeps
  · exact he ▸ h.keeps
  · exact he ▸ h.added hs hk hl

/-! ### Remove -/

/-- What a take leaves is referred to as before, but for the rows it took. -/
theorem mem_mentioned_take (h : q.Placed) {items : List ItemId} {keepPassed : Bool} {r : Row}
    (hr : r ∈ (q.take (q.resolve items) keepPassed).2.mentioned) : r ∈ q.mentioned := by
  rw [mem_mentioned] at hr ⊢
  rcases hr with hr | hr | hr | hr | hr
  · exact Or.inl hr
  · rw [(h.take_manual_rows items keepPassed).1] at hr
    exact Or.inr (Or.inl (List.mem_filter.mp hr).1)
  · have horder := (h.take_order_rows items keepPassed).1
    rw [take_eq] at hr
    simp only [horder] at hr
    exact Or.inr (Or.inr (Or.inl (List.mem_filter.mp hr).1))
  · exact Or.inr (Or.inr (Or.inr (Or.inl hr)))
  · exact Or.inr (Or.inr (Or.inr (Or.inr hr)))

theorem Valid.remove (h : q.Valid) (items : List ItemId) : Keeps q (q.remove items) := by
  unfold QueueState.remove
  simp only
  split
  · exact h.keeps
  · refine keeps_cleanUp ((h.placed.take_placed items false).of_eq rfl rfl rfl rfl rfl)
      (h.numbered.of_eq rfl rfl) ?_ (.of_eq rfl rfl)
    exact h.grounded.mono rfl rfl fun k p hm => mem_mentioned_take h.placed hm

/-- **A removal is a list removal.** -/
theorem Placed.remove_lists (h : q.Placed) (items : List ItemId) :
    (q.remove items).lists = q.lists.without items false := by
  unfold QueueState.remove
  simp only
  split
  · rename_i hempty
    rw [Lists.without_gone (h.resolve_isEmpty.mp hempty)]
  · exact h.take_lists items false

/-! ### Move -/

/-- The state after the named rows are taken and the others put together again at the anchor. -/
def moved (q : QueueState) (items : List ItemId) (target spot : Spot) : QueueState :=
  let t := q.take (q.resolve items) target.isManual
  { (t.2.put spot (if target.isManual then t.2.listSpans t.1 else t.1)) with adjusted := true }

/-- An anchor that is not moved is still in Up Next once the rows are taken. -/
theorem Placed.spot_take (h : q.Placed) {items : List ItemId} {keepPassed : Bool} {a : Anchor}
    {target : Spot} (hs : q.spot a (q.resolve items) = .ok target) :
    ∃ spot, (q.take (q.resolve items) keepPassed).2.spot a [] = .ok spot := by
  have hplaced := h.take_placed items keepPassed
  cases hsp : (q.take (q.resolve items) keepPassed).2.spot a [] with
  | ok spot => exact ⟨spot, rfl⟩
  | error e =>
    rw [← resolve_nil (q.take (q.resolve items) keepPassed).2] at hsp
    obtain ⟨-, item, rfl, hgone | hgone⟩ := hplaced.spot_error.mp hsp
    · rw [h.take_lists, Lists.upNext_without] at hgone
      have hnone : ¬ (item ∉ q.lists.upNext ∨ item ∈ items) := by
        intro hor
        rw [h.spot_error.mpr ⟨rfl, item, rfl, hor⟩] at hs
        cases hs
      rw [not_or, not_not] at hnone
      exact absurd (List.mem_filter.mpr ⟨hnone.1, by simpa using hnone.2⟩) hgone
    · simp at hgone

/-- **Move, case by case.** The second look-up of the anchor never fails, so an edit that is
refused has taken nothing. -/
theorem Placed.move_cases (h : q.Placed) (items : List ItemId) (before : Anchor) :
    (q.spot before (q.resolve items) = .error .anchorGone ∧
        q.moveItems items before = (.error .anchorGone, q)) ∨
      (∃ target, q.spot before (q.resolve items) = .ok target ∧
        (∀ item ∈ items, item ∉ q.lists.upNext) ∧ q.moveItems items before = (.ok (), q)) ∨
      ∃ target spot, q.spot before (q.resolve items) = .ok target ∧
        (q.take (q.resolve items) target.isManual).2.spot before [] = .ok spot ∧
        (∃ item ∈ items, item ∈ q.lists.upNext) ∧
        q.moveItems items before = (.ok (), q.moved items target spot) := by
  unfold moveItems
  cases hs : q.spot before (q.resolve items) with
  | error e =>
    obtain ⟨rfl, -⟩ := h.spot_error.mp hs
    exact Or.inl ⟨rfl, by simp only [hs]⟩
  | ok target =>
    right
    by_cases hempty : (q.resolve items).isEmpty = true
    · exact Or.inl ⟨target, rfl, h.resolve_isEmpty.mp hempty, by simp only [hs, hempty, if_true]⟩
    · obtain ⟨spot, hspot⟩ := @Placed.spot_take q h items target.isManual before target hs
      refine Or.inr ⟨target, spot, rfl, hspot, ?_, ?_⟩
      · rw [h.resolve_isEmpty] at hempty
        simpa only [not_forall, not_not, exists_prop] using hempty
      · simp only [hs, hempty, Bool.false_eq_true, if_false, hspot, moved]

/-- What a move puts back: the named items of Up Next. -/
theorem Placed.moved_items (h : q.Placed) (items : List ItemId) (target : Spot) :
    let t := q.take (q.resolve items) target.isManual
    itemsOf q.shuffle (rowsOf (if target.isManual then t.2.listSpans t.1 else t.1)) =
        q.lists.upNext.filter (· ∈ items) ∧
      q.Fits target.isManual
        (rowsOf (if target.isManual then t.2.listSpans t.1 else t.1)) := by
  intro t
  have hitems : itemsOf q.shuffle (rowsOf t.1) = _ := h.take_items items target.isManual
  cases target with
  | manual i =>
    have hok : ∀ s ∈ t.2.shuffle, s.Ok := h.shuffle_ok
    simp only [Spot.isManual, if_true] at *
    have hshuffle : t.2.shuffle = q.shuffle := rfl
    rw [rows_listSpans hok, hshuffle, itemsOf_listRows]
    exact ⟨hitems, listRows_keys _ _⟩
  | order i =>
    simp only [Spot.isManual, Bool.false_eq_true, if_false] at *
    refine ⟨hitems, ?_⟩
    simp only [Fits, Bool.false_eq_true, if_false]
    intro r hr
    have hr' : r ∈ rowsOf (q.take (q.resolve items) false).1 := hr
    rw [h.take_rows items false, List.mem_append] at hr'
    rcases hr' with hr' | hr'
    · exact h.manual_total r (List.mem_filter.mp hr').1
    · exact h.order_reads r (List.mem_of_mem_drop (List.mem_filter.mp hr').1)

/-- **A move is a list move.** -/
theorem Placed.moved_lists (h : q.Placed) {items : List ItemId} {before : Anchor}
    {target spot : Spot} (ht : q.spot before (q.resolve items) = .ok target)
    (hs : (q.take (q.resolve items) target.isManual).2.spot before [] = .ok spot) :
    q.lists.move items before = some (q.moved items target spot).lists := by
  have hput := (h.take_placed items target.isManual).put_lists hs
    (if target.isManual then
      (q.take (q.resolve items) target.isManual).2.listSpans
        (q.take (q.resolve items) target.isManual).1
      else (q.take (q.resolve items) target.isManual).1)
  have hshuffle : (q.take (q.resolve items) target.isManual).2.shuffle = q.shuffle := rfl
  rw [hshuffle, (h.moved_items items target).1, h.take_lists, ← spot_toManual h ht] at hput
  rw [Lists.move, hput]
  congr 1
  rw [spot_toManual h ht]
  cases spot <;> rfl

/-- The spot an anchor is found at again is in the same list. -/
theorem Placed.spot_take_isManual (h : q.Placed) {items : List ItemId} {before : Anchor}
    {target spot : Spot} (ht : q.spot before (q.resolve items) = .ok target)
    (hs : (q.take (q.resolve items) target.isManual).2.spot before [] = .ok spot) :
    spot.isManual = target.isManual := by
  have h2 := spot_toManual (h.take_placed items target.isManual) hs
  rw [h.take_lists] at h2
  rw [← h2, ← spot_toManual h ht]
  refine Lists.toManual_without ?_
  rintro item rfl hi
  rw [h.spot_error.mpr ⟨rfl, item, rfl, Or.inr hi⟩] at ht
  cases ht

theorem Valid.moved (h : q.Valid) {items : List ItemId} {before : Anchor} {target spot : Spot}
    (ht : q.spot before (q.resolve items) = .ok target)
    (hs : (q.take (q.resolve items) target.isManual).2.spot before [] = .ok spot) :
    Keeps q (q.moved items target spot) := by
  have hlists := h.placed.moved_lists ht hs
  obtain ⟨hitems, hfit⟩ := h.placed.moved_items items target
  have hsame := h.placed.spot_take_isManual ht hs
  have htake := h.placed.take_placed items target.isManual
  have hsound := h.placed.sound.move hlists
  let t := q.take (q.resolve items) target.isManual
  let back := if target.isManual then t.2.listSpans t.1 else t.1
  have hmoved : (q.moved items target spot).mentioned = (t.2.put spot back).mentioned := rfl
  have hplaced : (t.2.put spot back).Placed := by
    refine htake.put ?_ ?_
    · rw [hsame]
      exact hfit
    · have : (t.2.put spot back).lists = (q.moved items target spot).lists := rfl
      rw [this]
      exact hsound
  have hhist : (q.moved items target spot).history = q.history ∧
      (q.moved items target spot).nextPlay = q.nextPlay ∧
      (q.moved items target spot).sources = q.sources ∧
      (q.moved items target spot).copies = q.copies := by
    cases spot <;> exact ⟨rfl, rfl, rfl, rfl⟩
  -- a row put back plays an item that was in Up Next
  have hback : ∀ key pos, (View.key key, pos) ∈ rowsOf back → (View.key key, pos) ∈ q.mentioned := by
    intro key pos hr
    have hmem : (⟨key, pos⟩ : ItemId) ∈ itemsOf q.shuffle (rowsOf back) :=
      List.mem_filterMap.mpr ⟨_, hr, rfl⟩
    rw [show itemsOf q.shuffle (rowsOf back) = _ from hitems] at hmem
    exact h.placed.upNext_mentioned (List.mem_filter.mp hmem).1
  refine ⟨⟨hplaced.of_eq rfl rfl rfl rfl rfl, h.numbered.of_eq hhist.1 hhist.2.1, ?_, ?_⟩,
    .of_eq hhist.1 hhist.2.1⟩
  · refine h.grounded.mono hhist.2.2.1 hhist.2.2.2 ?_
    intro key pos hm
    rw [hmoved, mem_mentioned_put] at hm
    rcases hm with hm | hm
    · exact mem_mentioned_take h.placed hm
    · exact hback key pos hm
  · refine h.tidy.mono hhist.2.2.1 hhist.2.2.2 ?_
    rintro key ⟨pos, hm⟩
    have hitem : ∀ item : ItemId, item ∈ (q.moved items target spot).lists.upNext →
        item.row ∈ (q.moved items target spot).mentioned :=
      fun item hi => (hplaced.of_eq rfl rfl rfl rfl rfl :
        (q.moved items target spot).Placed).upNext_mentioned hi
    by_cases hkept : (View.key key, pos) ∈ t.2.mentioned
    · refine ⟨pos, ?_⟩
      rw [hmoved, mem_mentioned_put]
      exact Or.inl hkept
    · -- a row that was taken is put back, or its item is
      have hup : (⟨key, pos⟩ : ItemId) ∈ q.lists.upNext ∧ (⟨key, pos⟩ : ItemId) ∈ items := by
        rw [mem_mentioned] at hm hkept
        simp only [not_or] at hkept
        rcases hm with hm | hm | hm | hm | hm
        · exact absurd hm hkept.1
        · have h1 := hkept.2.1
          rw [(h.placed.take_manual_rows items target.isManual).1, List.mem_filter] at h1
          have hmem : (⟨key, pos⟩ : ItemId) ∈ q.lists.manual :=
            List.mem_filterMap.mpr ⟨_, hm, rfl⟩
          refine ⟨List.mem_append_left _ hmem, ?_⟩
          by_contra hno
          exact h1 ⟨hm, by simpa [rowTest] using hno⟩
        · have h1 := hkept.2.2.1
          have horder := (h.placed.take_order_rows items target.isManual).1
          change (View.key key, pos) ∉
            (q.order.removeRows ((q.takenRows (q.resolve items) target.isManual).1 ++
              (q.takenRows (q.resolve items) target.isManual).2)).2.rows at h1
          rw [horder, List.mem_filter] at h1
          have hdrop : q.Dropped items target.isManual ⟨key, pos⟩ := by
            by_contra hno
            exact h1 ⟨hm, by simpa [rowTest] using hno⟩
          refine ⟨?_, hdrop.1⟩
          rcases hdrop.2 with ha | ⟨-, hmm⟩
          · exact List.mem_append_right _ ha
          · exact List.mem_append_left _ hmm
        · exact absurd hm hkept.2.2.2.1
        · exact absurd hm hkept.2.2.2.2
      refine ⟨pos, hitem ⟨key, pos⟩ ?_⟩
      rcases Lists.insert_cases hlists with ⟨-, pre, post, hmn, heq⟩ | ⟨-, pre, post, hmn, heq⟩
      · rw [heq]
        simp only [Lists.upNext, List.mem_append]
        exact Or.inl (Or.inl (Or.inr (List.mem_filter.mpr ⟨hup.1, by simpa using hup.2⟩)))
      · rw [heq]
        simp only [Lists.upNext, List.mem_append]
        exact Or.inr (Or.inl (Or.inr (List.mem_filter.mpr ⟨hup.1, by simpa using hup.2⟩)))

theorem Valid.moveItems (h : q.Valid) (items : List ItemId) (before : Anchor) :
    Keeps q (q.moveItems items before).2 := by
  rcases h.placed.move_cases items before with ⟨-, he⟩ | ⟨target, -, -, he⟩ |
    ⟨target, spot, ht, hs, -, he⟩
  · exact he ▸ h.keeps
  · exact he ▸ h.keeps
  · exact he ▸ h.moved ht hs

end QueueState

end JewelCase.Queue
