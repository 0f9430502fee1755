import JewelCase.Queue.HeldRanges

/-!
# Walking back

Phase 1 of a rewind: the cursor goes back over the rows passed for as long as they are the item
playing and the newest plays, newest first.
-/
namespace JewelCase.Queue

set_option autoImplicit false

open Library
open Library.Lists

namespace QueueState

variable {q : QueueState}

/-- The rows before `row`, newest first. -/
def rowsBack (q : QueueState) (row : Nat) : List ItemId := (q.lists.order.take row).reverse

theorem rowsBack_drop (q : QueueState) (row n : Nat) (h : row ≤ q.lists.order.length) :
    (q.rowsBack row).drop n = q.rowsBack (row - n) := by
  rw [rowsBack, rowsBack, List.drop_reverse, List.length_take, Nat.min_eq_left h, List.take_take,
    Nat.min_eq_left (Nat.sub_le _ _)]

theorem rowsBack_pos {row : Nat} {it : ItemId} (hpos : 0 < row)
    (hit : q.lists.order[row - 1]? = some it) : q.rowsBack row = it :: q.rowsBack (row - 1) := by
  obtain ⟨n, rfl⟩ : ∃ n, row = n + 1 := ⟨row - 1, by omega⟩
  rw [Nat.add_sub_cancel] at hit ⊢
  rw [rowsBack, List.take_add_one, hit, List.reverse_append]
  rfl

/-- The positions of a view from `start`, newest first. -/
def itemsBack (key : String) (start len : Nat) : List ItemId :=
  ((List.range' start len).map fun pos => (⟨key, pos⟩ : ItemId)).reverse

theorem items_reverse (p : Piece) : p.items.reverse = itemsBack p.key p.start p.len := rfl

/-- Positions, newest first, are the newest ones and then the rest. -/
theorem itemsBack_split (key : String) (start : Nat) {len n : Nat} (h : n ≤ len) :
    itemsBack key start len = itemsBack key (start + (len - n)) n ++ itemsBack key start (len - n) := by
  have := range'_split (a := start) (b := start + (len - n)) (c := start + len) (by omega) (by omega)
    (fun pos => (⟨key, pos⟩ : ItemId))
  rw [show start + len - start = len by omega, show start + (len - n) - start = len - n by omega,
    show start + len - (start + (len - n)) = n by omega] at this
  rw [itemsBack, this, List.reverse_append]
  rfl

@[simp] theorem length_itemsBack (key : String) (start len : Nat) :
    (itemsBack key start len).length = len := by simp [itemsBack]

theorem itemsBack_drop (key : String) (start : Nat) {len n : Nat} (h : n ≤ len) :
    (itemsBack key start len).drop n = itemsBack key start (len - n) := by
  rw [itemsBack_split key start h, List.drop_left' (length_itemsBack ..)]

theorem itemsBack_succ (key : String) (start : Nat) {len : Nat} (h : 0 < len) :
    itemsBack key start len = ⟨key, start + len - 1⟩ :: itemsBack key start (len - 1) := by
  rw [itemsBack_split key start (show 1 ≤ len from h), show start + (len - 1) = start + len - 1 by
    omega]
  rfl

/-- Rows that play consecutive positions, newest first. -/
theorem rowsBack_items {row start n : Nat} {key : String} (hn : n ≤ row)
    (hget : ∀ j < n, q.lists.order[row - 1 - j]? = some ⟨key, start + n - 1 - j⟩) :
    q.rowsBack row = itemsBack key start n ++ q.rowsBack (row - n) := by
  induction n generalizing row with
  | zero => rfl
  | succ n ih =>
    have hrest := ih (by omega : n ≤ row - 1) (by
      intro j hj
      have := hget (j + 1) (by omega)
      rw [show row - 1 - 1 - j = row - 1 - (j + 1) by omega, this]
      congr 2
      omega)
    rw [rowsBack_pos (by omega) (hget 0 (Nat.succ_pos n)), hrest,
      itemsBack_succ key start (Nat.succ_pos n), show row - 1 - n = row - (n + 1) by omega]
    rfl

/-- The row of a context position and of those before it in its span. -/
theorem Readable.span_items (h : q.Readable) {row i offset : Nat} {span : Span} {key : String}
    (hloc : q.order.locate (row - 1) = some (i, offset)) (hspan : q.order.spans[i]? = some span)
    (hkey : span.view = .key key) {j : Nat} (hj : j ≤ offset) :
    q.lists.order[row - 1 - j]? = some ⟨key, span.start + (offset - j)⟩ := by
  obtain ⟨-, hidx, hlt⟩ := q.order.good.locate_eq_some.mp hloc
  rw [rowsOf_take_succ hspan, List.length_append, Stretch.length_rows, Span.len_eq] at hlt
  have hrow := rowsOf_getElem? hspan (by omega : offset - j < span.len)
  rw [← q.order_items]
  refine (h.order_reads.getElem? _).trans ?_
  rw [show row - 1 - j = (rowsOf (q.order.spans.take i)).length + (offset - j) by omega,
    SpanList.rows, hrow, hkey]
  rfl

/-- **Matching back** takes rows for as long as they are the positions asked for. -/
theorem Readable.matchBack_eq (h : q.Readable) (key : String) (start left row : Nat)
    (hrow : row ≤ q.order.len) :
    q.matchBack key start left row =
      (left - commonPrefix (itemsBack key start left) (q.rowsBack row),
        row - commonPrefix (itemsBack key start left) (q.rowsBack row)) := by
  induction row using Nat.strong_induction_on generalizing left with
  | _ row ih =>
    rw [matchBack]
    by_cases hpos : left > 0 ∧ row > 0
    · rw [dif_pos hpos]
      have hsome : ∃ i offset, q.order.locate (row - 1) = some (i, offset) := by
        cases hl : q.order.locate (row - 1) with
        | none =>
          have := q.order.good.locate_eq_none.mp hl
          rw [SpanList.len_eq, SpanList.rows] at hrow
          omega
        | some p => exact ⟨p.1, p.2, rfl⟩
      obtain ⟨i, offset, hloc⟩ := hsome
      obtain ⟨hi, hidx, hlt⟩ := q.order.good.locate_eq_some.mp hloc
      have hspan := List.getElem?_eq_getElem hi
      have hsplit := rowsOf_take_succ hspan
      generalize q.order.spans[i] = span at hspan hsplit
      rw [hsplit, List.length_append, Stretch.length_rows, Span.len_eq] at hlt
      simp only [hloc, hspan]
      have hfirst := itemsBack_succ key start hpos.1
      obtain ⟨it, hit⟩ : ∃ it, q.lists.order[row - 1]? = some it :=
        ⟨_, List.getElem?_eq_getElem (by rw [h.length_order]; omega)⟩
      have hzs := rowsBack_pos hpos.2 hit
      have hmiss : it ≠ ⟨key, start + left - 1⟩ →
          commonPrefix (itemsBack key start left) (q.rowsBack row) = 0 := by
        intro hne
        rw [hfirst, hzs, commonPrefix_cons, if_neg (fun he => hne he.symm)]
      cases hv : span.view with
      | shuffle =>
        rw [if_pos rfl, ← h.getElem?_order, hit]
        by_cases heq : it = ⟨key, start + left - 1⟩
        · rw [if_pos (by rw [heq]), ih (row - 1) (by omega) (left - 1) (by omega), hfirst, hzs,
            commonPrefix_cons, if_pos heq.symm]
          congr 1 <;> omega
        · rw [if_neg (by simpa using heq), hmiss heq, Nat.sub_zero, Nat.sub_zero]
      | key k =>
        rw [if_neg (by simp)]
        have hitem := h.span_items hloc hspan hv (Nat.zero_le offset)
        rw [Nat.sub_zero, hit, Nat.sub_zero, Option.some.injEq] at hitem
        by_cases hm : View.key k = View.key key ∧ span.start + offset = start + left - 1
        · obtain ⟨hk, hp⟩ := hm
          obtain rfl : k = key := by simpa using hk
          rw [if_pos ⟨rfl, hp⟩]
          have htaken : min (offset + 1) left ≤ row := by omega
          have hz : q.rowsBack row =
              itemsBack k (start + (left - min (offset + 1) left)) (min (offset + 1) left) ++
                q.rowsBack (row - min (offset + 1) left) := by
            refine rowsBack_items htaken fun j hj => ?_
            rw [h.span_items hloc hspan hv (by omega)]
            congr 2
            omega
          rw [ih (row - min (offset + 1) left) (by omega) (left - min (offset + 1) left) (by omega),
            hz, itemsBack_split k start (Nat.min_le_right (offset + 1) left),
            commonPrefix_append_same, length_itemsBack]
          congr 1 <;> omega
        · rw [if_neg hm, hmiss, Nat.sub_zero, Nat.sub_zero]
          rw [hitem]
          intro he
          refine hm ⟨?_, ?_⟩
          · rw [(ItemId.mk.inj he).1]
          · exact (ItemId.mk.inj he).2
    · rw [dif_neg hpos]
      have hzero : commonPrefix (itemsBack key start left) (q.rowsBack row) = 0 := by
        by_cases hl : left = 0
        · rw [hl]
          rfl
        · have : row = 0 := by omega
          rw [this]
          exact commonPrefix_nil_right _
      rw [hzero, Nat.sub_zero, Nat.sub_zero]

/-- **Walking back over pieces**, newest first. -/
theorem Readable.walkBack_eq (h : q.Readable) (pieces : List Piece) (row : Nat)
    (hrow : row ≤ q.order.len) :
    ∃ left, q.walkBack pieces row =
        (left, row - commonPrefix (newestFirst pieces) (q.rowsBack row)) ∧
      newestFirst left =
        (newestFirst pieces).drop (commonPrefix (newestFirst pieces) (q.rowsBack row)) := by
  induction pieces generalizing row with
  | nil => exact ⟨[], rfl, rfl⟩
  | cons piece pieces ih =>
    have hback : (itemsBack piece.key piece.start piece.len).length = piece.len := by simp
    have hle := commonPrefix_le_left (itemsBack piece.key piece.start piece.len) (q.rowsBack row)
    have hcons : newestFirst (piece :: pieces) =
        itemsBack piece.key piece.start piece.len ++ newestFirst pieces := rfl
    have hcp := commonPrefix_append (itemsBack piece.key piece.start piece.len)
      (newestFirst pieces) (q.rowsBack row)
    rw [hback] at hcp hle
    have hpiece : ∀ n (rest : List Piece),
        newestFirst ({ piece with len := n } :: rest) =
          itemsBack piece.key piece.start n ++ newestFirst rest := fun _ _ => rfl
    rw [walkBack, h.matchBack_eq _ _ _ _ hrow, hcons, hcp]
    simp only
    by_cases hpart : commonPrefix (itemsBack piece.key piece.start piece.len) (q.rowsBack row) <
        piece.len
    · rw [if_pos hpart, if_pos (by omega)]
      refine ⟨_, rfl, ?_⟩
      rw [hpiece, List.drop_append_of_le_length (by rw [hback]; omega), itemsBack_drop _ _ (by omega)]
    · have hall : commonPrefix (itemsBack piece.key piece.start piece.len) (q.rowsBack row) =
          piece.len := by omega
      rw [if_neg hpart, hall, if_neg (by omega)]
      obtain ⟨left, hl, hn⟩ := ih (row - piece.len) (by omega)
      rw [hl, rowsBack_drop q row piece.len (by rw [h.length_order]; exact hrow)]
      refine ⟨_, by rw [Nat.sub_sub], ?_⟩
      have hnone : ∀ n, (itemsBack piece.key piece.start piece.len).drop (piece.len + n) = [] :=
        fun n => List.drop_of_length_le (by rw [hback]; omega)
      rw [hpiece, Nat.sub_self, hn, List.drop_append, hback, Nat.add_sub_cancel_left, hnone]
      rfl

theorem newestFirst_filter (pieces : List Piece) :
    newestFirst (pieces.filter (·.len > 0)) = newestFirst pieces := by
  induction pieces with
  | nil => rfl
  | cons p pieces ih =>
    have hcons : ∀ ps : List Piece, newestFirst (p :: ps) = p.items.reverse ++ newestFirst ps :=
      fun _ => rfl
    by_cases hp : p.len > 0
    · rw [List.filter_cons_of_pos (by simpa using hp), hcons, hcons, ih]
    · rw [List.filter_cons_of_neg (by simpa using hp), hcons, ih, Piece.items,
        show p.len = 0 by omega]
      rfl

/-- How many rows a rewind walks the cursor back over, for the items put back newest first. -/
def walked (q : QueueState) (back : List ItemId) : Nat :=
  if q.lists.manual = [] then commonPrefix back q.lists.passed.reverse else 0

theorem commonPrefix_single (x : ItemId) (zs : List ItemId) :
    commonPrefix [x] zs = if zs.head? = some x then 1 else 0 := by
  cases zs with
  | nil => rfl
  | cons z zs =>
    rw [commonPrefix_cons, commonPrefix_nil_left]
    by_cases h : x = z <;> simp [h, eq_comm]

/-- **Phase 1**: the cursor walks back over the item playing and the newest plays for as long as
they are the rows passed, and the rest is left. -/
theorem Readable.phaseOne_spec (h : q.Readable) (heard : List Piece) :
    let back := q.current.toList ++ newestFirst heard.reverse
    let r := q.phaseOne heard
    r.1 = q.cursor - q.walked back ∧ r.2.1.toList = q.current.toList.drop (q.walked back) ∧
      newestFirst r.2.2.reverse =
        (newestFirst heard.reverse).drop (q.walked back - q.current.toList.length) ∧
      ∀ p ∈ r.2.2, 0 < p.len := by
  have hm : q.manual.isEmpty = true ↔ q.lists.manual = [] := by
    rw [SpanList.isEmpty_iff_len, ← SpanList.len_eq, ← h.length_manual, List.length_eq_zero_iff]
  have hcur : q.cursor ≤ q.order.len := by
    rw [SpanList.len_eq]
    exact h.cursor_le
  have hpassed : q.rowsBack q.cursor = q.lists.passed.reverse := by rw [rowsBack, h.passed_eq]
  have hkept : ∀ heard : List Piece, newestFirst (heard.filter (·.len > 0)).reverse =
      newestFirst heard.reverse := by
    intro heard
    rw [← List.filter_reverse, newestFirst_filter]
  have hpos : ∀ heard : List Piece, ∀ p ∈ heard.filter (·.len > 0), 0 < p.len := by
    intro heard p hp
    simpa using (List.mem_filter.mp hp).2
  intro back r
  simp only [back, r]
  -- walking over the plays alone, from a row
  have hwalk : ∀ row, row ≤ q.order.len → ∃ left,
      q.walkBack heard.reverse row =
        (left, row - commonPrefix (newestFirst heard.reverse) (q.rowsBack row)) ∧
      newestFirst (left.reverse.filter (·.len > 0)).reverse =
        (newestFirst heard.reverse).drop
          (commonPrefix (newestFirst heard.reverse) (q.rowsBack row)) := by
    intro row hrow
    obtain ⟨left, hl, hn⟩ := h.walkBack_eq heard.reverse row hrow
    exact ⟨left, hl, by rw [hkept, List.reverse_reverse, hn]⟩
  unfold phaseOne
  cases he : q.manual.isEmpty with
  | false =>
    have hne : q.lists.manual ≠ [] := fun hn => by
      rw [hm.mpr hn] at he
      cases he
    simp only [walked, if_neg hne, Bool.false_eq_true, if_false, Nat.sub_zero, List.drop_zero,
      Nat.zero_sub]
    exact ⟨trivial, trivial, hkept heard, hpos heard⟩
  | true =>
    have hnil := hm.mp he
    cases hc : q.current with
    | none =>
      obtain ⟨left, hl, hn⟩ := hwalk q.cursor hcur
      rw [hpassed] at hl hn
      simp only [walked, if_pos hnil, Option.toList_none, List.nil_append, if_true, hl,
        List.length_nil, Nat.sub_zero, List.drop_nil]
      exact ⟨trivial, trivial, hn, hpos _⟩
    | some old =>
      have hone := h.matchBack_eq old.key old.pos 1 q.cursor hcur
      have hsingle : itemsBack old.key old.pos 1 = [old] := rfl
      rw [hsingle, hpassed, commonPrefix_single] at hone
      have happ := commonPrefix_append [old] (newestFirst heard.reverse) q.lists.passed.reverse
      rw [commonPrefix_single] at happ
      simp only [Option.toList_some, hone, walked, if_pos hnil, happ, List.length_singleton]
      by_cases hhead : q.lists.passed.reverse.head? = some old
      · simp only [if_pos hhead]
        obtain ⟨left, hl, hn⟩ := hwalk (q.cursor - 1) (by omega)
        have hdrop := q.rowsBack_drop q.cursor 1 (by rw [h.length_order]; exact hcur)
        rw [hpassed] at hdrop
        rw [← hdrop] at hl hn
        simp only [Nat.lt_irrefl, if_false, if_true, hl]
        refine ⟨by rw [Nat.sub_sub], ?_, ?_, hpos _⟩
        · rw [List.drop_of_length_le (by simp)]
          rfl
        · rw [hn, Nat.add_sub_cancel_left]
      · simp only [if_neg hhead, Nat.zero_lt_one, if_true, Nat.sub_zero, Nat.one_ne_zero, if_false,
          Bool.false_eq_true, List.drop_zero, Nat.zero_sub]
        exact ⟨trivial, rfl, hkept heard, hpos heard⟩

end QueueState

end JewelCase.Queue

/-!
## What a rewind finds held

The interval map of phase 2 holds what Up Next will: the item playing unless it was walked over,
the Manual Queue, and the context from the row the cursor goes back to, shuffle rows included as
far as the plays cover them.
-/
namespace JewelCase.Queue

set_option autoImplicit false

open Library
open Library.Lists

/-! ### Spans as ranges -/

/-- The positions of a list or copy span. -/
def Span.range? (s : Span) : Option Range :=
  match s.view with
  | .key key => some ⟨key, s.start, s.start + s.len⟩
  | .shuffle => none

/-- The items of a range. -/
def Range.items (r : Range) : List ItemId :=
  (List.range' r.first (r.stop - r.first)).map fun pos => ⟨r.key, pos⟩

theorem Range.mem_items {r : Range} {it : ItemId} : it ∈ r.items ↔ r.Holds it := by
  obtain ⟨key, pos⟩ := it
  simp only [items, List.mem_map, List.mem_range'_1, ItemId.mk.injEq, Holds]
  constructor
  · rintro ⟨a, h, rfl, rfl⟩
    exact ⟨rfl, by omega, by omega⟩
  · rintro ⟨rfl, h1, h2⟩
    exact ⟨pos, by omega, rfl, rfl⟩

theorem span_ranges_items (spans : List Span) :
    (spans.filterMap Span.range?).flatMap Range.items = (rowsOf spans).filterMap keyItem := by
  induction spans with
  | nil => rfl
  | cons s spans ih =>
    rw [rowsOf_cons, List.filterMap_append, ← ih, Span.rows_eq, List.filterMap_map]
    cases hv : s.view with
    | key key =>
      have hr : s.range? = some ⟨key, s.start, s.start + s.len⟩ := by rw [Span.range?, hv]
      rw [List.filterMap_cons_some hr, List.flatMap_cons]
      congr 1
      rw [Range.items, Nat.add_sub_cancel_left, ← List.filterMap_eq_map]
      rfl
    | shuffle =>
      have hr : s.range? = none := by rw [Span.range?, hv]
      have hnone : (List.range' s.start s.len).filterMap
          (keyItem ∘ fun p => (View.shuffle, p)) = [] := by
        rw [List.filterMap_eq_nil_iff]
        intro p _
        rfl
      rw [List.filterMap_cons_none hr, hnone, List.nil_append]

/-- Spans whose items are distinct are apart as ranges. -/
theorem span_ranges_apart {spans : List Span} (h : ((rowsOf spans).filterMap keyItem).Nodup) :
    (spans.filterMap Span.range?).Pairwise Range.Apart := by
  rw [← span_ranges_items] at h
  refine (List.nodup_flatMap.mp h).2.imp fun hd it h1 h2 => ?_
  exact hd (Range.mem_items.2 h1) (Range.mem_items.2 h2)

theorem span_ranges_hold {spans : List Span} {it : ItemId} :
    (∃ r ∈ spans.filterMap Span.range?, r.Holds it) ↔ it.row ∈ rowsOf spans := by
  rw [← mem_keyItems, ← span_ranges_items, List.mem_flatMap]
  simp only [Range.mem_items]

theorem span_ranges_pos {spans : List Span} (h : ∀ s ∈ spans, 0 < s.len) :
    ∀ r ∈ spans.filterMap Span.range?, r.first < r.stop := by
  intro r hr
  obtain ⟨s, hs, he⟩ := List.mem_filterMap.mp hr
  have := h s hs
  unfold Span.range? at he
  split at he
  · obtain rfl := Option.some.inj he
    simp only
    omega
  · cases he

namespace QueueState

variable {q : QueueState}

/-- The ranges a rewind holds, in the order it inserts them. -/
def heldRanges (q : QueueState) (row : Nat) (ranges : List Range) (old : Option ItemId) :
    List Range :=
  q.manual.spans.filterMap Span.range? ++
    (q.order.slice row q.order.len).filterMap Span.range? ++ q.shuffleHeld row ranges ++
    (old.map fun old => (⟨old.key, old.pos, old.pos + 1⟩ : Range)).toList

theorem foldl_hold (spans : List Span) (held : Held) :
    spans.foldl (fun held span =>
      match span.view with
      | .key key => Held.insert (key, span.start) (span.start + span.len) held
      | .shuffle => held) held =
    (spans.filterMap Span.range?).foldl
      (fun held r => Held.insert (r.key, r.first) r.stop held) held := by
  induction spans generalizing held with
  | nil => rfl
  | cons s spans ih =>
    rw [List.foldl_cons, ih]
    cases hv : s.view with
    | key key =>
      have hr : s.range? = some ⟨key, s.start, s.start + s.len⟩ := by rw [Span.range?, hv]
      rw [List.filterMap_cons_some hr, List.foldl_cons]
    | shuffle =>
      have hr : s.range? = none := by rw [Span.range?, hv]
      rw [List.filterMap_cons_none hr]

theorem heldAt_eq (q : QueueState) (row : Nat) {ranges : List Range} (old : Option ItemId)
    (hpos : ∀ r ∈ q.shuffleHeld row ranges, r.first < r.stop) :
    q.heldAt row ranges old =
      (q.heldRanges row ranges old).foldl
        (fun held r => Held.insert (r.key, r.first) r.stop held) [] := by
  have hshuf : ∀ (rs : List Range) (held : Held), (∀ r ∈ rs, r.first < r.stop) →
      rs.foldl (fun held r => Held.insert (r.key, r.first) (r.first + (r.stop - r.first)) held) held =
        rs.foldl (fun held r => Held.insert (r.key, r.first) r.stop held) held := by
    intro rs held hp
    refine List.foldl_ext _ _ held fun held r hr => ?_
    have := hp r hr
    rw [show r.first + (r.stop - r.first) = r.stop by omega]
  rw [heldRanges, List.foldl_append, List.foldl_append, List.foldl_append, ← foldl_hold,
    ← foldl_hold, ← hshuf _ _ hpos]
  unfold heldAt
  cases old with
  | none => rfl
  | some old => rfl

/-- The context's items from a row on: those of list rows, and those the shuffle plays. -/
theorem Readable.mem_order_drop (h : q.Readable) (row : Nat) (it : ItemId) :
    it ∈ q.lists.order.drop row ↔ it.row ∈ q.order.rows.drop row ∨ q.ShuffledFrom row it := by
  have hitems : q.lists.order.drop row = itemsOf q.shuffle (q.order.rows.drop row) := by
    rw [← q.order_items]
    exact (h.order_reads.drop row).symm
  rw [hitems, itemsOf, List.mem_filterMap]
  constructor
  · rintro ⟨⟨v, p⟩, hr, hi⟩
    cases v with
    | key k =>
      obtain rfl : (⟨k, p⟩ : ItemId) = it := by simpa using hi
      exact Or.inl hr
    | shuffle =>
      obtain ⟨j, hj⟩ := List.mem_iff_getElem?.mp hr
      rw [List.getElem?_drop] at hj
      exact Or.inr ⟨row + j, p, Nat.le_add_right _ _, hj, hi⟩
  · rintro (hr | ⟨i, p, hle, hi, hp⟩)
    · exact ⟨_, hr, rowItem_row _ it⟩
    · refine ⟨(.shuffle, p), List.mem_iff_getElem?.mpr ⟨i - row, ?_⟩, hp⟩
      rw [List.getElem?_drop, show row + (i - row) = i by omega]
      exact hi

/-- **What is held**: among the items of the ranges asked for, the item left playing, the Manual
Queue and the context from the row on. -/
theorem Placed.heldAt_spec (h : q.Placed) {row : Nat} {ranges : List Range}
    {old : Option ItemId} (hap : ranges.Pairwise Range.Apart)
    (hnodup : (old.toList ++ q.lists.manual ++ q.lists.order.drop row).Nodup) :
    (q.heldAt row ranges old).Ok ∧ ∀ it, (∃ r ∈ ranges, r.Holds it) →
      ((q.heldAt row ranges old).Holds it ↔
        it ∈ old.toList ++ q.lists.manual ++ q.lists.order.drop row) := by
  obtain ⟨hspos, hsap, hshold⟩ := h.shuffleHeld_spec row hap
  have hslice : rowsOf (q.order.slice row q.order.len) = q.order.rows.drop row := by
    rw [SpanList.rows_slice, SpanList.len_eq, List.take_length]
  have hman : ∀ {it}, (∃ r ∈ q.manual.spans.filterMap Span.range?, r.Holds it) ↔
      it ∈ q.lists.manual := by
    intro it
    rw [span_ranges_hold, h.manual_items, mem_keyItems]
    rfl
  have hord : ∀ {it}, (∃ r ∈ (q.order.slice row q.order.len).filterMap Span.range?, r.Holds it) ↔
      it.row ∈ q.order.rows.drop row := by
    intro it
    rw [span_ranges_hold, hslice]
  have hold : ∀ {it}, (∃ r ∈ (old.map fun old => (⟨old.key, old.pos, old.pos + 1⟩ : Range)).toList,
      r.Holds it) ↔ it ∈ old.toList := by
    intro it
    obtain ⟨key, pos⟩ := it
    cases old with
    | none => simp
    | some old =>
      obtain ⟨k, p⟩ := old
      simp only [Option.map_some, Option.toList_some, List.mem_singleton, exists_eq_left,
        Range.Holds, ItemId.mk.injEq]
      constructor
      · rintro ⟨rfl, h1, h2⟩
        exact ⟨rfl, by omega⟩
      · rintro ⟨rfl, rfl⟩
        exact ⟨rfl, Nat.le_refl _, Nat.lt_succ_self _⟩
  -- an item is not both a list row and a shuffle row of the context
  have hone : ∀ {it}, it.row ∈ q.order.rows.drop row → ¬ q.ShuffledFrom row it := by
    rintro it hr ⟨i, p, hle, hi, hp⟩
    obtain ⟨j, hj⟩ := List.mem_iff_getElem?.mp hr
    rw [List.getElem?_drop] at hj
    have h1 : q.lists.order[row + j]? = some it := by
      rw [← q.order_items]
      refine (h.order_reads.getElem? _).trans ?_
      rw [hj]
      exact rowItem_row q.shuffle it
    have h2 : q.lists.order[i]? = some it := by
      rw [← q.order_items]
      refine (h.order_reads.getElem? _).trans ?_
      rw [hi]
      exact hp
    rw [index_unique h.sound.order_nodup h1 h2, hi] at hj
    simp [ItemId.row, ItemId.view] at hj
  have hdrop := fun it => h.mem_order_drop row it
  rw [List.append_assoc, List.nodup_append] at hnodup
  obtain ⟨-, hup, holdno⟩ := hnodup
  rw [List.nodup_append] at hup
  obtain ⟨-, hdn, hmo⟩ := hup
  have hkeysub : (q.order.rows.drop row).filterMap keyItem |>.Nodup := by
    have hrows : (q.order.rows.drop row).Nodup :=
      h.order_rows_nodup.sublist (List.drop_sublist _ _)
    refine List.Nodup.filterMap ?_ hrows
    intro a b it ha hb
    rw [Option.mem_def, keyItem_eq_some] at ha hb
    rw [ha, hb]
  rw [heldAt_eq q row old hspos]
  obtain ⟨hok, hholds⟩ := @Held.Ok.foldl_insert [] Held.ok_nil (q.heldRanges row ranges old)
    (by
      intro r hr
      simp only [heldRanges, List.mem_append] at hr
      rcases hr with ((hr | hr) | hr) | hr
      · exact span_ranges_pos q.manual.canonical.1 r hr
      · exact span_ranges_pos (SpanList.slice_pos _ _ _) r hr
      · exact hspos r hr
      · cases old with
        | none => cases hr
        | some old =>
          obtain rfl := List.mem_singleton.mp hr
          simp)
    (by
      have hcross : ∀ {as bs : List Range} (_ : ∀ it, (∃ r ∈ as, r.Holds it) →
          ¬ ∃ r ∈ bs, r.Holds it), ∀ a ∈ as, ∀ b ∈ bs, a.Apart b :=
        fun hno a ha b hb it h1 h2 => hno it ⟨a, ha, h1⟩ ⟨b, hb, h2⟩
      rw [heldRanges, List.pairwise_append, List.pairwise_append, List.pairwise_append]
      refine ⟨⟨⟨span_ranges_apart ?_, span_ranges_apart ?_, hcross ?_⟩, hsap, hcross ?_⟩, ?_,
        hcross ?_⟩
      · rw [show rowsOf q.manual.spans = q.manual.rows from rfl, ← h.manual_items]
        exact h.manual_nodup
      · rw [hslice]
        exact hkeysub
      · intro it h1 h2
        rw [hman] at h1
        rw [hord] at h2
        exact hmo it h1 it ((hdrop it).mpr (Or.inl h2)) rfl
      · rintro it ⟨r, hr, h1⟩ h2
        have h3 := ((hshold it).mp h2).2
        rcases List.mem_append.mp hr with hr | hr
        · exact hmo it (hman.mp ⟨r, hr, h1⟩) it ((hdrop it).mpr (Or.inr h3)) rfl
        · exact hone (hord.mp ⟨r, hr, h1⟩) h3
      · cases old <;> simp
      · rintro it ⟨r, hr, h1⟩ h2
        have h3 := hold.mp h2
        rw [List.mem_append, List.mem_append] at hr
        rcases hr with (hr | hr) | hr
        · exact holdno it h3 it (List.mem_append_left _ (hman.mp ⟨r, hr, h1⟩)) rfl
        · exact holdno it h3 it
            (List.mem_append_right _ ((hdrop it).mpr (Or.inl (hord.mp ⟨r, hr, h1⟩)))) rfl
        · exact holdno it h3 it
            (List.mem_append_right _ ((hdrop it).mpr (Or.inr ((hshold it).mp ⟨r, hr, h1⟩).2))) rfl)
    (by
      rintro r - it - ⟨e, he, -⟩
      cases he)
  refine ⟨hok, fun it hit => ?_⟩
  rw [hholds]
  simp only [heldRanges, List.mem_append, or_and_right, exists_or, hman, hord, hold, hshold,
    hdrop, hit, true_and]
  have hnil : ¬ Held.Holds [] it := by
    rintro ⟨e, he, -⟩
    cases he
  simp only [hnil, false_or]
  tauto

end QueueState

end JewelCase.Queue
