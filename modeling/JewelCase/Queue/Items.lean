import JewelCase.Library.Lists
import JewelCase.Queue.Model

/-!
# The queue as lists of items

What the span lists stand for: the items of the Manual Queue, of the passed part of the context
and of the rest, read through the shuffle. An item is at most once in Up Next and at most once
in the context, so looking an item up is finding its index.
-/
namespace JewelCase.Queue

set_option autoImplicit false

open Library (Stretch)
open Library.Lists

/-- The item a list or copy row plays. -/
def keyItem : Row → Option ItemId
  | (.key key, pos) => some ⟨key, pos⟩
  | (.shuffle, _) => none

/-- The row of a list or copy that plays an item. -/
def ItemId.row (item : ItemId) : Row := (item.view, item.pos)

@[simp] theorem keyItem_row (item : ItemId) : keyItem item.row = some item := rfl

theorem keyItem_eq_some {r : Row} {item : ItemId} : keyItem r = some item ↔ r = item.row := by
  obtain ⟨v, p⟩ := r
  cases v with
  | key k =>
    obtain ⟨key, pos⟩ := item
    simp [keyItem, ItemId.row, ItemId.view]
  | shuffle => simp [keyItem, ItemId.row, ItemId.view]

theorem ItemId.row_inj {a b : ItemId} (h : a.row = b.row) : a = b := by
  have := congrArg keyItem h
  simpa using this

/-- Rows that read lists and copies only. -/
def KeyRows (rows : List Row) : Prop := ∀ r ∈ rows, r.1 ≠ .shuffle

theorem keyItem_isSome {r : Row} (h : r.1 ≠ .shuffle) : (keyItem r).isSome := by
  obtain ⟨v, p⟩ := r
  cases v with
  | key k => rfl
  | shuffle => exact absurd rfl h

theorem KeyRows.total {rows : List Row} (h : KeyRows rows) : Defined keyItem rows :=
  fun r hr => keyItem_isSome (h r hr)

theorem KeyRows.sub {rows rows' : List Row} (h : KeyRows rows) (hs : ∀ r ∈ rows', r ∈ rows) :
    KeyRows rows' := fun r hr => h r (hs r hr)

theorem KeyRows.append {as bs : List Row} (ha : KeyRows as) (hb : KeyRows bs) :
    KeyRows (as ++ bs) := by
  intro r hr
  rcases List.mem_append.mp hr with h | h
  · exact ha r h
  · exact hb r h

/-- Rows that read lists and copies are determined by their items. -/
theorem KeyRows.rows_eq {rows : List Row} (h : KeyRows rows) :
    (rows.filterMap keyItem).map ItemId.row = rows := by
  induction rows with
  | nil => rfl
  | cons r rows ih =>
    obtain ⟨item, hi⟩ := Option.isSome_iff_exists.mp (keyItem_isSome (h r (by simp)))
    rw [List.filterMap_cons_some hi, List.map_cons,
      ih (fun r hr => h r (List.mem_cons_of_mem _ hr)), keyItem_eq_some.1 hi]

theorem mem_keyItems {rows : List Row} {item : ItemId} :
    item ∈ rows.filterMap keyItem ↔ item.row ∈ rows := by
  simp only [List.mem_filterMap, keyItem_eq_some]
  constructor
  · rintro ⟨r, hr, rfl⟩
    exact hr
  · intro h
    exact ⟨_, h, rfl⟩

theorem KeyRows.nodup {rows : List Row} (h : KeyRows rows) (hn : rows.Nodup) :
    (rows.filterMap keyItem).Nodup := by
  rw [← h.rows_eq] at hn
  exact hn.of_map _

namespace Shuffle

/-- The rows the base holds. -/
def baseItems (s : Shuffle) : List ItemId := s.base.rows.filterMap keyItem

/-- A base that reads lists and copies, each position once. -/
structure Ok (s : Shuffle) : Prop where
  keys : KeyRows s.base.rows
  nodup : s.base.rows.Nodup

theorem Ok.length {s : Shuffle} (h : s.Ok) : s.baseItems.length = s.base.len := by
  rw [baseItems, h.keys.total.length, SpanList.len_eq]

theorem Ok.items_nodup {s : Shuffle} (h : s.Ok) : s.baseItems.Nodup := h.keys.nodup h.nodup

/-- The item that shuffle position `p` plays. -/
def item (s : Shuffle) (p : Nat) : Option ItemId :=
  if p < s.base.len then s.baseItems[permute s.seed s.base.len p]? else none

theorem Ok.item_isSome {s : Shuffle} (h : s.Ok) {p : Nat} (hp : p < s.base.len) :
    ∃ item, s.item p = some item ∧ s.baseItems[permute s.seed s.base.len p]? = some item := by
  have hlt : permute s.seed s.base.len p < s.baseItems.length := by
    rw [h.length]
    exact permute_lt s.seed hp
  refine ⟨_, ?_, List.getElem?_eq_getElem hlt⟩
  rw [item, if_pos hp, List.getElem?_eq_getElem hlt]

/-- An item of the base is played by one shuffle position. -/
theorem Ok.item_eq_some {s : Shuffle} (h : s.Ok) {p b : Nat} {it : ItemId}
    (hb : s.baseItems[b]? = some it) :
    s.item p = some it ↔ p = unpermute s.seed s.base.len b := by
  have hbl : b < s.base.len := by
    rw [← h.length]
    exact (List.getElem?_eq_some_iff.mp hb).1
  constructor
  · intro hi
    rw [item] at hi
    split at hi
    · rename_i hp
      rw [← index_unique h.items_nodup hi hb, unpermute_permute s.seed hp]
    · cases hi
  · rintro rfl
    rw [item, if_pos (unpermute_lt s.seed hbl), permute_unpermute s.seed hbl, hb]

end Shuffle

/-- The item a row plays: its own, or for a shuffle row the one the shuffle gives it. -/
def rowItem (shuffle : Option Shuffle) : Row → Option ItemId
  | (.key key, pos) => some ⟨key, pos⟩
  | (.shuffle, pos) => shuffle.bind (·.item pos)

@[simp] theorem rowItem_key (shuffle : Option Shuffle) (key : String) (pos : Nat) :
    rowItem shuffle (.key key, pos) = some ⟨key, pos⟩ := rfl

theorem rowItem_row (shuffle : Option Shuffle) (item : ItemId) :
    rowItem shuffle item.row = some item := rfl

theorem rowItem_of_key {shuffle : Option Shuffle} {r : Row} (h : r.1 ≠ .shuffle) :
    rowItem shuffle r = keyItem r := by
  obtain ⟨v, p⟩ := r
  cases v with
  | key k => rfl
  | shuffle => exact absurd rfl h

theorem KeyRows.items {rows : List Row} (h : KeyRows rows) (shuffle : Option Shuffle) :
    rows.filterMap (rowItem shuffle) = rows.filterMap keyItem :=
  List.filterMap_congr fun r hr => rowItem_of_key (h r hr)

theorem KeyRows.total_rowItem {rows : List Row} (h : KeyRows rows) (shuffle : Option Shuffle) :
    Defined (rowItem shuffle) rows := fun r hr => by
  rw [rowItem_of_key (h r hr)]
  exact keyItem_isSome (h r hr)

/-- The items that rows play. -/
def itemsOf (shuffle : Option Shuffle) (rows : List Row) : List ItemId :=
  rows.filterMap (rowItem shuffle)

@[simp] theorem itemsOf_nil (shuffle : Option Shuffle) : itemsOf shuffle [] = [] := rfl

@[simp] theorem itemsOf_append (shuffle : Option Shuffle) (as bs : List Row) :
    itemsOf shuffle (as ++ bs) = itemsOf shuffle as ++ itemsOf shuffle bs :=
  List.filterMap_append

/-- The items of a shuffle in the order it plays them. -/
def Shuffle.lap (s : Shuffle) : List ItemId := (List.range' 0 s.base.len).filterMap s.item

/-- The rows of a whole shuffle. -/
theorem rows_lap (m : Nat) :
    (SpanList.fromSpans [⟨.shuffle, 0, m⟩]).rows =
      (List.range' 0 m).map fun p => (View.shuffle, p) := by
  rw [SpanList.rows_fromSpans, rowsOf_cons, rowsOf_nil, List.append_nil, Span.rows_eq]

theorem itemsOf_lap (s : Shuffle) :
    itemsOf (some s) ((List.range' 0 s.base.len).map fun p => (View.shuffle, p)) = s.lap := by
  rw [itemsOf, List.filterMap_map]
  rfl

theorem Shuffle.Ok.lap_defined {s : Shuffle} (h : s.Ok) :
    Defined (rowItem (some s)) ((List.range' 0 s.base.len).map fun p => (View.shuffle, p)) := by
  intro r hr
  obtain ⟨p, hp, rfl⟩ := List.mem_map.mp hr
  rw [List.mem_range'_1] at hp
  obtain ⟨item, hi, -⟩ := h.item_isSome (p := p) (by omega)
  simp [rowItem, hi]

theorem Shuffle.item_eq_some {s : Shuffle} {p : Nat} {it : ItemId} (h : s.item p = some it) :
    p < s.base.len ∧ s.baseItems[permute s.seed s.base.len p]? = some it := by
  rw [Shuffle.item] at h
  split at h
  · exact ⟨by assumption, h⟩
  · cases h

/-- Different shuffle positions play different items. -/
theorem Shuffle.Ok.item_inj {s : Shuffle} (h : s.Ok) {p p' : Nat} {it : ItemId}
    (hp : s.item p = some it) (hp' : s.item p' = some it) : p = p' := by
  obtain ⟨hlt, hb⟩ := Shuffle.item_eq_some hp
  rw [(h.item_eq_some hb).mp hp, (h.item_eq_some hb).mp hp']

/-- **A shuffle plays each item of its base once.** -/
theorem Shuffle.Ok.lap_perm {s : Shuffle} (h : s.Ok) : s.lap.Perm s.baseItems := by
  refine (List.perm_ext_iff_of_nodup ?_ h.items_nodup).mpr ?_
  · refine List.Nodup.filterMap ?_ (List.nodup_range' ..)
    intro p p' it hp hp'
    exact h.item_inj hp hp'
  · intro it
    rw [Shuffle.lap, List.mem_filterMap]
    constructor
    · rintro ⟨p, -, hp⟩
      exact List.mem_of_getElem? (Shuffle.item_eq_some hp).2
    · intro hit
      obtain ⟨b, hb⟩ := List.mem_iff_getElem?.mp hit
      have hlt := (List.getElem?_eq_some_iff.mp hb).1
      rw [h.length] at hlt
      refine ⟨_, ?_, (h.item_eq_some hb).mpr rfl⟩
      rw [List.mem_range'_1]
      have := unpermute_lt s.seed hlt
      omega

theorem itemsOf_take {shuffle : Option Shuffle} {rows : List Row}
    (h : Defined (rowItem shuffle) rows) (n : Nat) :
    itemsOf shuffle (rows.take n) = (itemsOf shuffle rows).take n := h.take n

theorem itemsOf_drop {shuffle : Option Shuffle} {rows : List Row}
    (h : Defined (rowItem shuffle) rows) (n : Nat) :
    itemsOf shuffle (rows.drop n) = (itemsOf shuffle rows).drop n := h.drop n

namespace QueueState

/-- The queue read as lists of items. -/
def lists (q : QueueState) : Lists where
  manual := itemsOf q.shuffle q.manual.rows
  passed := itemsOf q.shuffle (q.order.rows.take q.cursor)
  ahead := itemsOf q.shuffle (q.order.rows.drop q.cursor)
  current := q.current

/-- What every row reads can be read: the cursor is inside the context, only the context has
shuffle rows, and they are positions of the base. -/
structure Readable (q : QueueState) : Prop where
  cursor_le : q.cursor ≤ q.order.rows.length
  manual_keys : KeyRows q.manual.rows
  shuffle_ok : ∀ s ∈ q.shuffle, s.Ok
  order_reads : Defined (rowItem q.shuffle) q.order.rows

/-- Where rows and items may be. -/
structure Placed (q : QueueState) : Prop extends Readable q where
  sound : q.lists.Sound

theorem itemOf_eq (q : QueueState) (h : ∀ s ∈ q.shuffle, s.Ok) (r : Row) :
    q.itemOf r.1 r.2 = rowItem q.shuffle r := by
  obtain ⟨v, p⟩ := r
  cases v with
  | key k => rfl
  | shuffle =>
    cases hs : q.shuffle with
    | none => simp [itemOf, rowItem, hs]
    | some s =>
      have hok := h s hs
      simp only [itemOf, hs, rowItem, Option.bind_some, Shuffle.item]
      by_cases hp : p < s.base.len
      · rw [if_neg (by omega), if_pos hp, SpanList.get_eq, Shuffle.baseItems,
          hok.keys.total.getElem?]
        have hlt : permute s.seed s.base.len p < s.base.rows.length := by
          rw [← SpanList.len_eq]
          exact permute_lt s.seed hp
        have hkey := hok.keys _ (List.getElem_mem hlt)
        rw [List.getElem?_eq_getElem hlt]
        generalize s.base.rows[permute s.seed s.base.len p] = r at hkey
        obtain ⟨v, p'⟩ := r
        cases v with
        | key k => rfl
        | shuffle => exact absurd rfl hkey
      · rw [if_pos (by omega), if_neg hp]

theorem itemAt_eq (q : QueueState) (h : ∀ s ∈ q.shuffle, s.Ok) (l : SpanList) (i : Nat) :
    q.itemAt l i = l.rows[i]?.bind (rowItem q.shuffle) := by
  rw [itemAt, SpanList.get_eq]
  cases l.rows[i]? with
  | none => rfl
  | some r => exact q.itemOf_eq h r

theorem order_items (q : QueueState) :
    itemsOf q.shuffle q.order.rows = q.lists.order := by
  rw [Lists.order, lists, ← itemsOf_append, List.take_append_drop]

namespace Readable

variable {q : QueueState} (h : q.Readable)

include h

theorem manual_total : Defined (rowItem q.shuffle) q.manual.rows := h.manual_keys.total_rowItem _

theorem manual_items : q.lists.manual = q.manual.rows.filterMap keyItem := h.manual_keys.items _

theorem length_manual : q.lists.manual.length = q.manual.len := by
  rw [SpanList.len_eq]
  exact h.manual_total.length

theorem length_order : q.lists.order.length = q.order.len := by
  rw [← q.order_items, SpanList.len_eq]
  exact h.order_reads.length

theorem passed_eq : q.lists.passed = q.lists.order.take q.cursor := by
  rw [← q.order_items]
  exact h.order_reads.take _

theorem ahead_eq : q.lists.ahead = q.lists.order.drop q.cursor := by
  rw [← q.order_items]
  exact h.order_reads.drop _

theorem length_passed : q.lists.passed.length = q.cursor := by
  rw [h.passed_eq, List.length_take, h.length_order, SpanList.len_eq]
  exact Nat.min_eq_left h.cursor_le

theorem length_ahead : q.lists.ahead.length = q.order.len - q.cursor := by
  rw [h.ahead_eq, List.length_drop, h.length_order]

theorem length_upNext : q.lists.upNext.length = q.upNextLen := by
  rw [Lists.upNext, List.length_append, h.length_manual, h.length_ahead, upNextLen]

theorem getElem?_order (i : Nat) : q.lists.order[i]? = q.itemAt q.order i := by
  rw [← q.order_items, itemAt_eq q h.shuffle_ok]
  exact h.order_reads.getElem? i

theorem getElem?_manual (i : Nat) : q.lists.manual[i]? = q.itemAt q.manual i := by
  rw [itemAt_eq q h.shuffle_ok]
  exact h.manual_total.getElem? i

theorem getElem?_ahead (i : Nat) : q.lists.ahead[i]? = q.itemAt q.order (q.cursor + i) := by
  rw [h.ahead_eq, List.getElem?_drop, h.getElem?_order]

end Readable

/-! ### Looking items up -/

/-- A search for a list or copy position finds its row. -/
theorem find_row_iff {l : SpanList} (hn : l.rows.Nodup) {v : View} {p i : Nat} :
    l.find v p = some i ↔ l.rows[i]? = some (v, p) := by
  constructor
  · exact fun h => (SpanList.find_eq_some h).1
  · intro hi
    cases hf : l.find v p with
    | none => exact absurd (List.mem_of_getElem? hi) ((SpanList.find_eq_none l v p).mp hf)
    | some j => rw [index_unique hn hi (SpanList.find_eq_some hf).1]

variable {q : QueueState} (h : q.Placed)

include h

theorem Placed.order_rows_nodup : q.order.rows.Nodup := by
  apply h.order_reads.nodup
  have := h.sound.order_nodup
  rwa [← q.order_items] at this

theorem Placed.manual_nodup : q.lists.manual.Nodup :=
  (List.nodup_append.mp h.sound.upNext_nodup).1

theorem Placed.manual_rows_nodup : q.manual.rows.Nodup :=
  h.manual_total.nodup h.manual_nodup

theorem Placed.find_manual {item : ItemId} {i : Nat} :
    q.manual.find item.view item.pos = some i ↔ q.lists.manual[i]? = some item := by
  rw [find_row_iff h.manual_rows_nodup, h.manual_items, h.manual_keys.total.getElem?]
  simp only [Option.bind_eq_some_iff, keyItem_eq_some]
  constructor
  · intro hr
    exact ⟨_, hr, rfl⟩
  · rintro ⟨r, hr, rfl⟩
    exact hr

/-- **Where an item is in the context.** -/
theorem Placed.orderRowOf_iff {item : ItemId} {i : Nat} :
    q.orderRowOf item = some i ↔ q.lists.order[i]? = some item := by
  have hn := h.order_rows_nodup
  have hitems : q.lists.order[i]? = q.order.rows[i]?.bind (rowItem q.shuffle) := by
    rw [← q.order_items]
    exact h.order_reads.getElem? i
  have hnodup : q.lists.order.Nodup := h.sound.order_nodup
  have hread : ∀ {j : Nat} {r : Row}, q.order.rows[j]? = some r → rowItem q.shuffle r = some item →
      q.lists.order[j]? = some item := by
    intro j r hj hr
    rw [← q.order_items]
    refine (h.order_reads.getElem? j).trans ?_
    rw [hj]
    exact hr
  unfold orderRowOf
  cases hf : q.order.find item.view item.pos with
  | some j =>
    have hj := hread ((find_row_iff hn).mp hf) (rowItem_row q.shuffle item)
    simp only [Option.some.injEq]
    constructor
    · rintro rfl
      exact hj
    · intro hi
      exact index_unique hnodup hj hi
  | none =>
    have hno := (SpanList.find_eq_none _ _ _).mp hf
    have hcase : q.lists.order[i]? = some item ↔
        ∃ s p, q.shuffle = some s ∧ s.item p = some item ∧ q.order.rows[i]? = some (.shuffle, p) := by
      rw [hitems, Option.bind_eq_some_iff]
      constructor
      · rintro ⟨⟨v, p⟩, hr, hi⟩
        cases v with
        | key k =>
          obtain rfl : (⟨k, p⟩ : ItemId) = item := by simpa using hi
          exact absurd (List.mem_of_getElem? hr) hno
        | shuffle =>
          obtain ⟨s, hs, hp⟩ := Option.bind_eq_some_iff.mp hi
          exact ⟨s, p, hs, hp, hr⟩
      · rintro ⟨s, p, hs, hp, hr⟩
        exact ⟨_, hr, by simp [rowItem, hs, hp]⟩
    rw [hcase]
    cases hs : q.shuffle with
    | none => simp
    | some s =>
      have hok := h.shuffle_ok s hs
      simp only [Option.some.injEq, exists_and_left, exists_eq_left']
      cases hb : s.base.find item.view item.pos with
      | none =>
        have hnb := (SpanList.find_eq_none _ _ _).mp hb
        simp only [reduceCtorEq, false_iff, not_exists, not_and]
        intro p hp
        rw [Shuffle.item] at hp
        split at hp
        · exact absurd (mem_keyItems.1 (List.mem_of_getElem? hp)) hnb
        · cases hp
      | some b =>
        have hbase : s.baseItems[b]? = some item := by
          rw [Shuffle.baseItems, hok.keys.total.getElem?, (SpanList.find_eq_some hb).1]
          rfl
        simp only
        rw [find_row_iff hn]
        constructor
        · intro hr
          exact ⟨_, (hok.item_eq_some hbase).mpr rfl, hr⟩
        · rintro ⟨p, hp, hr⟩
          rwa [← (hok.item_eq_some hbase).mp hp]

/-- **Where an item is in Up Next.** -/
theorem Placed.findItem_iff {item : ItemId} {i : Nat} :
    q.findItem item = some i ↔ q.lists.upNext[i]? = some item := by
  have hlen := h.length_manual
  unfold findItem
  cases hm : q.manual.find item.view item.pos with
  | some j =>
    have hj := h.find_manual.mp hm
    have hjl := (List.getElem?_eq_some_iff.mp hj).1
    have hup : q.lists.upNext[j]? = some item := by
      rw [Lists.upNext, List.getElem?_append_left hjl, hj]
    simp only [Option.some.injEq]
    constructor
    · rintro rfl
      exact hup
    · intro hi
      exact index_unique h.sound.upNext_nodup hup hi
  | none =>
    have hno : item ∉ q.lists.manual := by
      intro hmem
      obtain ⟨j, hj⟩ := List.mem_iff_getElem?.mp hmem
      rw [h.find_manual.mpr hj] at hm
      cases hm
    have hsplit : q.lists.upNext[i]? = some item ↔
        q.manual.len ≤ i ∧ q.lists.order[q.cursor + (i - q.manual.len)]? = some item := by
      by_cases hi : i < q.lists.manual.length
      · rw [Lists.upNext, List.getElem?_append_left hi]
        constructor
        · intro hg
          exact absurd (List.mem_of_getElem? hg) hno
        · rintro ⟨hge, _⟩
          omega
      · rw [Lists.upNext, List.getElem?_append_right (by omega), h.ahead_eq, List.getElem?_drop,
          hlen]
        constructor
        · intro hg
          exact ⟨by omega, hg⟩
        · exact fun hg => hg.2
    rw [hsplit]
    cases ho : q.orderRowOf item with
    | none =>
      simp only [reduceCtorEq, false_iff, not_and]
      intro _ hg
      rw [h.orderRowOf_iff.mpr hg] at ho
      cases ho
    | some row =>
      have hrow := h.orderRowOf_iff.mp ho
      simp only [checkedSub, Option.map_eq_some_iff, Option.ite_none_right_eq_some,
        Option.some.injEq]
      constructor
      · rintro ⟨_, ⟨hle, rfl⟩, rfl⟩
        refine ⟨by omega, ?_⟩
        rwa [show q.cursor + (q.manual.len + (row - q.cursor) - q.manual.len) = row by omega]
      · rintro ⟨hle, hg⟩
        have := index_unique h.sound.order_nodup hrow hg
        exact ⟨row - q.cursor, ⟨by omega, rfl⟩, by omega⟩

theorem Placed.findItem_none {item : ItemId} :
    q.findItem item = none ↔ item ∉ q.lists.upNext := by
  rw [List.mem_iff_getElem?, Option.eq_none_iff_forall_ne_some, not_exists]
  exact forall_congr' fun i => not_congr h.findItem_iff

end QueueState

end JewelCase.Queue
