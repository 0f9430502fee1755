import JewelCase.Queue.Lookup

/-!
# Taking rows out and putting rows in

What `take`, `spot` and `put` do to the rows, and so to the lists of items: the steps that add,
remove and move are made of.
-/
namespace JewelCase.Queue

set_option autoImplicit false

open Library (Stretch)
open Library.Lists

/-! ### Ascending lists -/

/-- An ascending list is determined by its members. -/
theorem ascending_ext {xs ys : List Nat} (hx : xs.Pairwise (· < ·)) (hy : ys.Pairwise (· < ·))
    (h : ∀ i, i ∈ xs ↔ i ∈ ys) : xs = ys := by
  apply List.Perm.eq_of_pairwise _ hx hy
  · rw [List.perm_ext_iff_of_nodup (hx.imp Nat.ne_of_lt) (hy.imp Nat.ne_of_lt)]
    exact h
  · intro a b _ _ hab hba
    omega

/-- The indices of what is kept by index. -/
theorem map_snd_filter_zipIdx {α : Type} (xs : List α) (p : Nat → Bool) :
    ((xs.zipIdx.filter fun x => p x.2).map Prod.snd) = (List.range xs.length).filter p := by
  rw [List.range_eq_range', ← List.zipIdx_map_snd 0 xs, List.filter_map]
  rfl

namespace QueueState

variable {q : QueueState}

/-! ### Passed places -/

/-- The context rows of the passed places of the Manual Queue rows at `manual`. -/
theorem Placed.mem_passedRows (h : q.Placed) {manual : List Nat} {i : Nat} :
    i ∈ q.passedRows manual ↔ i < q.cursor ∧ ∃ j ∈ manual, ∃ item,
      q.lists.manual[j]? = some item ∧ q.lists.order[i]? = some item := by
  simp only [passedRows]
  rw [orderRowsOf_eq h.order_rows_nodup (ascending_sortItems _), List.mem_filter,
    List.mem_filterMap]
  simp only [List.mem_map, mem_sortItems, List.mem_filterMap, id_eq, decide_eq_true_eq]
  constructor
  · rintro ⟨⟨_, ⟨kp, ⟨item, ⟨j, hj, hat⟩, rfl⟩, hrow⟩, rfl⟩, hi⟩
    exact ⟨hi, j, hj, item, (h.getElem?_manual j).trans hat, h.orderRowOf_iff.mp hrow⟩
  · rintro ⟨hi, j, hj, item, hm, ho⟩
    refine ⟨⟨some i, ⟨item.keyPos, ⟨item, ⟨j, hj, ?_⟩, rfl⟩, h.orderRowOf_iff.mpr ho⟩, rfl⟩, hi⟩
    rw [← h.getElem?_manual, hm]

theorem Placed.passedRows_nodup (h : q.Placed) {manual : List Nat} (hn : manual.Nodup) :
    (q.passedRows manual).Nodup := by
  simp only [passedRows]
  rw [orderRowsOf_eq h.order_rows_nodup (ascending_sortItems _)]
  refine List.Nodup.filter _ ?_
  rw [List.filterMap_map]
  refine List.Nodup.filterMap ?_ ?_
  · -- different items have different rows
    intro a b i ha hb
    have h1 := h.orderRowOf_iff.mp (Option.mem_def.mp ha)
    have h2 := h.orderRowOf_iff.mp (Option.mem_def.mp hb)
    rw [h1, Option.some.injEq, ItemId.mk.injEq] at h2
    exact Prod.ext h2.1 h2.2
  · refine (List.perm_insertionSort _ _).nodup_iff.mpr ?_
    refine List.Nodup.map ?_ ?_
    · intro a b hab
      simp only [ItemId.keyPos, Prod.mk.injEq] at hab
      obtain ⟨ka, pa⟩ := a
      obtain ⟨kb, pb⟩ := b
      simpa using hab
    · refine List.Nodup.filterMap ?_ hn
      intro i j item hi hj
      rw [Option.mem_def, ← h.getElem?_manual] at hi hj
      exact index_unique h.manual_nodup hi hj

/-! ### Taking -/

/-- What a take drops from the context: named items ahead, and named Manual Queue items' passed
places unless they are kept. -/
def Dropped (q : QueueState) (items : List ItemId) (keepPassed : Bool) (item : ItemId) : Prop :=
  item ∈ items ∧ (item ∈ q.lists.ahead ∨ (keepPassed = false ∧ item ∈ q.lists.manual))

instance (q : QueueState) (items : List ItemId) (keepPassed : Bool) (item : ItemId) :
    Decidable (q.Dropped items keepPassed item) := inferInstanceAs (Decidable (_ ∧ _))

/-- Whether a row plays an item that passes a test. -/
def rowTest (shuffle : Option Shuffle) (p : ItemId → Bool) (r : Row) : Bool :=
  (rowItem shuffle r).all p

theorem itemsOf_filter (shuffle : Option Shuffle) (p : ItemId → Bool) (rows : List Row) :
    itemsOf shuffle (rows.filter (rowTest shuffle p)) = (itemsOf shuffle rows).filter p :=
  filterMap_filter_read _ _ _

theorem length_filter_rowTest {shuffle : Option Shuffle} {rows : List Row}
    (h : Defined (rowItem shuffle) rows) (p : ItemId → Bool) :
    (rows.filter (rowTest shuffle p)).length = ((itemsOf shuffle rows).filter p).length := by
  rw [← itemsOf_filter]
  exact ((h.sub fun r hr => (List.mem_filter.mp hr).1).length).symm

/-- The context rows a take removes. -/
def takenRows (q : QueueState) (indices : List Nat) (keepPassed : Bool) : List Nat × List Nat :=
  let n := partitionPoint (fun i => decide (i < q.manual.len)) indices
  (if keepPassed then [] else sortRows (q.passedRows (indices.take n)),
    (indices.drop n).map fun i => q.cursor + i - q.manual.len)

theorem take_eq (q : QueueState) (indices : List Nat) (keepPassed : Bool) :
    q.take indices keepPassed =
      let n := partitionPoint (fun i => decide (i < q.manual.len)) indices
      let rows := q.takenRows indices keepPassed
      ((q.manual.removeRows (indices.take n)).1 ++
          (q.order.removeRows (rows.1 ++ rows.2)).1.drop rows.1.length,
        { q with
          manual := (q.manual.removeRows (indices.take n)).2
          order := (q.order.removeRows (rows.1 ++ rows.2)).2
          cursor := q.cursor - rows.1.length }) := rfl

section Resolved

variable (h : q.Placed) (items : List ItemId) (keepPassed : Bool)

include h

/-- A resolved index in the Manual Queue is that of a named item there. -/
theorem Placed.mem_manual_indices {i : Nat} :
    i ∈ (q.resolve items).filter (fun i => decide (i < q.manual.len)) ↔
      ∃ item ∈ items, q.lists.manual[i]? = some item := by
  have hlen := h.length_manual
  rw [List.mem_filter, h.mem_resolve]
  constructor
  · rintro ⟨⟨item, hitem, hup⟩, hi⟩
    refine ⟨item, hitem, ?_⟩
    rwa [Lists.upNext, List.getElem?_append_left (by simpa [hlen] using hi)] at hup
  · rintro ⟨item, hitem, hm⟩
    have hi := (List.getElem?_eq_some_iff.mp hm).1
    refine ⟨⟨item, hitem, ?_⟩, by simpa [hlen] using hi⟩
    rw [Lists.upNext, List.getElem?_append_left hi, hm]

/-- A resolved index past the Manual Queue is that of a named item ahead in the context. -/
theorem Placed.mem_ahead_indices {i : Nat} :
    i ∈ (q.resolve items).filter (fun i => decide (q.manual.len ≤ i)) ↔
      q.manual.len ≤ i ∧ ∃ item ∈ items, q.lists.ahead[i - q.manual.len]? = some item := by
  have hlen := h.length_manual
  rw [List.mem_filter, h.mem_resolve, decide_eq_true_eq, and_comm]
  refine and_congr_right fun hi => ?_
  refine exists_congr fun item => and_congr_right fun _ => ?_
  rw [Lists.upNext, List.getElem?_append_right (by omega), hlen]

theorem Placed.mem_takenRows_fst {i : Nat} :
    i ∈ (q.takenRows (q.resolve items) keepPassed).1 ↔
      keepPassed = false ∧ i < q.cursor ∧
        ∃ item ∈ items, item ∈ q.lists.manual ∧ q.lists.order[i]? = some item := by
  cases keepPassed with
  | true => simp [takenRows]
  | false =>
    simp only [takenRows, Bool.false_eq_true, if_false, true_and]
    rw [mem_sortRows, take_partitionPoint, takeWhile_lt_eq_filter (q.resolve_sorted items),
      h.mem_passedRows]
    refine and_congr_right fun _ => ?_
    constructor
    · rintro ⟨j, hj, item, hm, ho⟩
      obtain ⟨item', hitem, hm'⟩ := (h.mem_manual_indices items).mp hj
      rw [hm, Option.some.injEq] at hm'
      exact ⟨item, hm' ▸ hitem, List.mem_of_getElem? hm, ho⟩
    · rintro ⟨item, hitem, hmem, ho⟩
      obtain ⟨j, hj⟩ := List.mem_iff_getElem?.mp hmem
      exact ⟨j, (h.mem_manual_indices items).mpr ⟨item, hitem, hj⟩, item, hj, ho⟩

theorem Placed.mem_takenRows_snd {i : Nat} :
    i ∈ (q.takenRows (q.resolve items) keepPassed).2 ↔
      q.cursor ≤ i ∧ ∃ item ∈ items, q.lists.order[i]? = some item := by
  simp only [takenRows]
  rw [drop_partitionPoint, dropWhile_lt_eq_filter (q.resolve_sorted items), List.mem_map]
  simp only [h.mem_ahead_indices, h.ahead_eq, List.getElem?_drop]
  constructor
  · rintro ⟨j, ⟨hj, item, hitem, ho⟩, rfl⟩
    refine ⟨by omega, item, hitem, ?_⟩
    rwa [show q.cursor + j - q.manual.len = q.cursor + (j - q.manual.len) by omega]
  · rintro ⟨hi, item, hitem, ho⟩
    refine ⟨q.manual.len + (i - q.cursor), ⟨by omega, item, hitem, ?_⟩, by omega⟩
    rwa [show q.cursor + (q.manual.len + (i - q.cursor) - q.manual.len) = i by omega]

theorem Placed.takenRows_pairwise :
    ((q.takenRows (q.resolve items) keepPassed).1 ++
      (q.takenRows (q.resolve items) keepPassed).2).Pairwise (· < ·) := by
  rw [List.pairwise_append]
  refine ⟨?_, ?_, ?_⟩
  · cases keepPassed with
    | true => exact List.Pairwise.nil
    | false =>
      simp only [takenRows, Bool.false_eq_true, if_false]
      have hn : (sortRows (q.passedRows ((q.resolve items).take
          (partitionPoint (fun i => decide (i < q.manual.len)) (q.resolve items))))).Nodup := by
        refine (List.perm_insertionSort _ _).nodup_iff.mpr (h.passedRows_nodup ?_)
        exact ((q.resolve_pairwise items).imp Nat.ne_of_lt).sublist (List.take_sublist _ _)
      exact ((sortRows_pairwise _).and hn).imp fun h => lt_of_le_of_ne h.1 h.2
  · simp only [takenRows]
    rw [drop_partitionPoint, dropWhile_lt_eq_filter (q.resolve_sorted items), List.pairwise_map]
    refine (List.Pairwise.filter _ (q.resolve_pairwise items)).imp_of_mem ?_
    intro a b ha hb hab
    have := (List.mem_filter.mp ha).2
    have := (List.mem_filter.mp hb).2
    simp only [decide_eq_true_eq] at *
    omega
  · intro i hi j hj
    have := ((h.mem_takenRows_fst items keepPassed).mp hi).2.1
    have := ((h.mem_takenRows_snd items keepPassed).mp hj).1
    omega

/-- The context rows taken are those that play a dropped item. -/
theorem Placed.mem_takenRows {i : Nat} {r : Row} (hr : q.order.rows[i]? = some r) :
    (i ∈ (q.takenRows (q.resolve items) keepPassed).1 ++
      (q.takenRows (q.resolve items) keepPassed).2) ↔
      rowTest q.shuffle (fun item => decide (q.Dropped items keepPassed item)) r = true := by
  have hlt := (List.getElem?_eq_some_iff.mp hr).1
  obtain ⟨item, hitem⟩ := Option.isSome_iff_exists.mp (h.order_reads r (List.mem_of_getElem? hr))
  have hord : q.lists.order[i]? = some item := by
    rw [← q.order_items]
    refine (h.order_reads.getElem? i).trans ?_
    rw [hr]
    exact hitem
  have hahead : item ∈ q.lists.ahead ↔ q.cursor ≤ i := by
    rw [h.ahead_eq, List.mem_iff_getElem?]
    simp only [List.getElem?_drop]
    constructor
    · rintro ⟨j, hj⟩
      have := index_unique h.sound.order_nodup hord hj
      omega
    · intro hi
      exact ⟨i - q.cursor, by rwa [Nat.add_sub_cancel' hi]⟩
  have hnot : item ∈ q.lists.ahead → item ∉ q.lists.manual := fun ha hm =>
    (List.nodup_append.mp h.sound.upNext_nodup).2.2 item hm item ha rfl
  rw [List.mem_append, h.mem_takenRows_fst, h.mem_takenRows_snd, rowTest, hitem,
    Option.all_some, decide_eq_true_eq, Dropped, hord]
  simp only [Option.some.injEq]
  constructor
  · rintro (⟨hk, -, item', hi, hm, rfl⟩ | ⟨hc, item', hi, rfl⟩)
    · exact ⟨hi, Or.inr ⟨hk, hm⟩⟩
    · exact ⟨hi, Or.inl (hahead.mpr hc)⟩
  · rintro ⟨hi, ha | ⟨hk, hm⟩⟩
    · exact Or.inr ⟨hahead.mp ha, item, hi, rfl⟩
    · refine Or.inl ⟨hk, ?_, item, hi, hm, rfl⟩
      by_contra hc
      exact hnot (hahead.mpr (by omega)) hm

/-- What a take leaves of the Manual Queue. -/
theorem Placed.take_manual_rows :
    (q.take (q.resolve items) keepPassed).2.manual.rows =
        q.manual.rows.filter (rowTest q.shuffle (fun item => decide (item ∉ items))) ∧
      (q.manual.removeRows ((q.resolve items).take
          (partitionPoint (fun i => decide (i < q.manual.len)) (q.resolve items)))).1 =
        (q.manual.rows.filter (rowTest q.shuffle (fun item => decide (item ∈ items)))).map
          SpanList.single := by
  have hind : (q.resolve items).take
      (partitionPoint (fun i => decide (i < q.manual.len)) (q.resolve items)) =
      (q.resolve items).filter (fun i => decide (i < q.manual.len)) := by
    rw [take_partitionPoint, takeWhile_lt_eq_filter (q.resolve_sorted items)]
  have hsorted := (q.resolve_pairwise items).filter (fun i => decide (i < q.manual.len))
  have hmem : ∀ i r, q.manual.rows[i]? = some r →
      (i ∈ (q.resolve items).filter (fun i => decide (i < q.manual.len)) ↔
        rowTest q.shuffle (fun item => decide (item ∈ items)) r = true) := by
    intro i r hr
    obtain ⟨item, hitem⟩ := Option.isSome_iff_exists.mp (h.manual_total r (List.mem_of_getElem? hr))
    have hm : q.lists.manual[i]? = some item := by
      refine (h.manual_total.getElem? i).trans ?_
      rw [hr]
      exact hitem
    rw [h.mem_manual_indices, rowTest, hitem, hm]
    simp
  have htest : ∀ r ∈ q.manual.rows, rowTest q.shuffle (fun item => decide (item ∉ items)) r =
      !rowTest q.shuffle (fun item => decide (item ∈ items)) r := by
    intro r hr
    obtain ⟨item, hitem⟩ := Option.isSome_iff_exists.mp (h.manual_total r hr)
    simp [rowTest, hitem]
  change (q.manual.removeRows ((q.resolve items).take _)).2.rows = _ ∧ _
  rw [hind]
  obtain ⟨hkept, hremoved⟩ := SpanList.removeRows_ok q.manual hsorted
  refine ⟨?_, ?_⟩
  · refine hkept.trans (zipIdx_filter (fun i => decide (i ∉ _)) _ _ 0 ?_)
    intro i r hr
    rw [htest r (List.mem_of_getElem? hr), Nat.zero_add, Bool.eq_iff_iff]
    simp only [decide_eq_true_eq, Bool.not_eq_true', ← Bool.not_eq_true]
    exact not_congr (hmem i r hr)
  · rw [hremoved, zipIdx_filter (fun i => decide (i ∈ _)) _ _ 0]
    intro i r hr
    rw [Nat.zero_add, Bool.eq_iff_iff]
    simpa using hmem i r hr

/-- What a take leaves of the context, and what it answers of it. -/
theorem Placed.take_order_rows :
    let rows := q.takenRows (q.resolve items) keepPassed
    (q.order.removeRows (rows.1 ++ rows.2)).2.rows =
        q.order.rows.filter
          (rowTest q.shuffle (fun item => !decide (q.Dropped items keepPassed item))) ∧
      (q.order.removeRows (rows.1 ++ rows.2)).1 =
        (q.order.rows.filter
          (rowTest q.shuffle (fun item => decide (q.Dropped items keepPassed item)))).map
            SpanList.single := by
  intro rows
  have hmem : ∀ i r, q.order.rows[i]? = some r → (i ∈ rows.1 ++ rows.2 ↔ _) :=
    fun i r hr => h.mem_takenRows items keepPassed hr
  obtain ⟨hkept, hremoved⟩ :=
    SpanList.removeRows_ok q.order (h.takenRows_pairwise items keepPassed)
  refine ⟨?_, ?_⟩
  · refine hkept.trans (zipIdx_filter (fun i => decide (i ∉ _)) _ _ 0 ?_)
    intro i r hr
    obtain ⟨item, hitem⟩ := Option.isSome_iff_exists.mp (h.order_reads r (List.mem_of_getElem? hr))
    have := hmem i r hr
    rw [rowTest, hitem] at this ⊢
    rw [Nat.zero_add, Bool.eq_iff_iff]
    simp only [Option.all_some, decide_eq_true_eq, Bool.not_eq_true', decide_eq_false_iff_not]
      at this ⊢
    exact not_congr this
  · rw [hremoved, zipIdx_filter (fun i => decide (i ∈ _)) _ _ 0]
    intro i r hr
    rw [Nat.zero_add, Bool.eq_iff_iff]
    simpa using hmem i r hr

/-- The passed places taken are the dropped items of the passed context. -/
theorem Placed.length_takenRows_fst :
    (q.takenRows (q.resolve items) keepPassed).1.length =
      (q.lists.passed.filter (fun item => decide (q.Dropped items keepPassed item))).length := by
  have hread : Defined (rowItem q.shuffle) (q.order.rows.take q.cursor) :=
    h.order_reads.sub fun r hr => List.mem_of_mem_take hr
  rw [lists, ← length_filter_rowTest hread]
  -- the rows taken before the cursor, in order, are the indices of the dropped passed rows
  have hidx : (q.takenRows (q.resolve items) keepPassed).1 =
      ((q.order.rows.take q.cursor).zipIdx.filter fun x =>
        decide (x.2 ∈ (q.takenRows (q.resolve items) keepPassed).1)).map Prod.snd := by
    rw [map_snd_filter_zipIdx _ (fun i => decide (i ∈ _))]
    refine ascending_ext ((List.pairwise_append.mp (h.takenRows_pairwise items keepPassed)).1)
      (List.Pairwise.filter _ List.pairwise_lt_range) ?_
    intro i
    rw [List.mem_filter, List.mem_range, List.length_take]
    simp only [decide_eq_true_eq]
    constructor
    · intro hi
      have := ((h.mem_takenRows_fst items keepPassed).mp hi).2.1
      have := h.cursor_le
      exact ⟨by omega, hi⟩
    · exact fun hi => hi.2
  rw [hidx, List.length_map]
  have hfilter := zipIdx_filter
    (fun i => decide (i ∈ (q.takenRows (q.resolve items) keepPassed).1))
    (rowTest q.shuffle (fun item => decide (q.Dropped items keepPassed item)))
    (q.order.rows.take q.cursor) 0 ?_
  · rw [← hfilter, List.length_map]
  · intro i r hr
    have hi : i < q.cursor := by
      have := (List.getElem?_eq_some_iff.mp hr).1
      rw [List.length_take] at this
      omega
    rw [List.getElem?_take_of_lt hi] at hr
    rw [Nat.zero_add, Bool.eq_iff_iff, ← h.mem_takenRows items keepPassed hr, List.mem_append]
    simp only [decide_eq_true_eq]
    constructor
    · exact Or.inl
    · rintro (hi' | hi')
      · exact hi'
      · have := ((h.mem_takenRows_snd items keepPassed).mp hi').1
        omega

/-- The rows of the context a take leaves, before and after the cursor. -/
theorem Placed.take_order_split :
    let t := (q.take (q.resolve items) keepPassed).2
    t.order.rows.take t.cursor = (q.order.rows.take q.cursor).filter
        (rowTest q.shuffle
          (fun item => keepPassed || decide (¬(item ∈ items ∧ item ∈ q.lists.manual)))) ∧
      t.order.rows.drop t.cursor = (q.order.rows.drop q.cursor).filter
        (rowTest q.shuffle (fun item => decide (item ∉ items))) ∧
      t.cursor ≤ t.order.rows.length := by
  intro t
  have hread : Defined (rowItem q.shuffle) (q.order.rows.take q.cursor) :=
    h.order_reads.sub fun r hr => List.mem_of_mem_take hr
  have hrows : t.order.rows = q.order.rows.filter
      (rowTest q.shuffle (fun item => !decide (q.Dropped items keepPassed item))) :=
    (h.take_order_rows items keepPassed).1
  have hcursor : t.cursor = q.cursor - (q.takenRows (q.resolve items) keepPassed).1.length := rfl
  have hpassed : (q.order.rows.take q.cursor).filter
      (rowTest q.shuffle (fun item => !decide (q.Dropped items keepPassed item))) =
      (q.order.rows.take q.cursor).filter (rowTest q.shuffle
        (fun item => keepPassed || decide (¬(item ∈ items ∧ item ∈ q.lists.manual)))) := by
    apply List.filter_congr
    intro r hr
    obtain ⟨item, hitem⟩ := Option.isSome_iff_exists.mp (hread r hr)
    have hmem : item ∈ q.lists.passed := List.mem_filterMap.mpr ⟨r, hr, hitem⟩
    have hna : item ∉ q.lists.ahead := fun ha =>
      (List.nodup_append.mp h.sound.order_nodup).2.2 item hmem item ha rfl
    simp only [rowTest, hitem, Option.all_some]
    rw [Bool.eq_iff_iff]
    simp only [Bool.not_eq_true', decide_eq_false_iff_not, Dropped, hna, false_or,
      Bool.or_eq_true, decide_eq_true_eq]
    cases keepPassed <;> simp
  have hahead : (q.order.rows.drop q.cursor).filter
      (rowTest q.shuffle (fun item => !decide (q.Dropped items keepPassed item))) =
      (q.order.rows.drop q.cursor).filter
        (rowTest q.shuffle (fun item => decide (item ∉ items))) := by
    apply List.filter_congr
    intro r hr
    obtain ⟨item, hitem⟩ :=
      Option.isSome_iff_exists.mp (h.order_reads r (List.mem_of_mem_drop hr))
    have hmem : item ∈ q.lists.ahead := List.mem_filterMap.mpr ⟨r, hr, hitem⟩
    simp only [rowTest, hitem, Option.all_some]
    rw [Bool.eq_iff_iff]
    simp only [Bool.not_eq_true', decide_eq_false_iff_not, Dropped, hmem, true_or, and_true,
      decide_eq_true_eq]
  have hsplit : t.order.rows = (q.order.rows.take q.cursor).filter
      (rowTest q.shuffle (fun item => !decide (q.Dropped items keepPassed item))) ++
      (q.order.rows.drop q.cursor).filter
        (rowTest q.shuffle (fun item => !decide (q.Dropped items keepPassed item))) := by
    rw [hrows, ← List.filter_append, List.take_append_drop]
  have hlen : ((q.order.rows.take q.cursor).filter
      (rowTest q.shuffle (fun item => !decide (q.Dropped items keepPassed item)))).length =
      t.cursor := by
    rw [length_filter_rowTest hread, hcursor, h.length_takenRows_fst]
    have htotal := List.length_eq_length_filter_add
      (l := q.lists.passed) (fun item => decide (q.Dropped items keepPassed item))
    rw [h.length_passed] at htotal
    change (q.lists.passed.filter _).length = _
    omega
  refine ⟨?_, ?_, ?_⟩
  · rw [hsplit, ← hlen, List.take_left, hpassed]
  · rw [hsplit, ← hlen, List.drop_left, hahead]
  · rw [hsplit, List.length_append, hlen]
    omega

/-- **Taking items out is taking them out of the lists.** -/
theorem Placed.take_lists :
    (q.take (q.resolve items) keepPassed).2.lists = q.lists.without items keepPassed := by
  obtain ⟨hpassed, hahead, -⟩ := h.take_order_split items keepPassed
  have hmanual := (h.take_manual_rows items keepPassed).1
  simp only [lists, Lists.without, hmanual]
  have hshuffle : (q.take (q.resolve items) keepPassed).2.shuffle = q.shuffle := rfl
  have hcurrent : (q.take (q.resolve items) keepPassed).2.current = q.current := rfl
  rw [hshuffle, hcurrent, hpassed, hahead, itemsOf_filter, itemsOf_filter, itemsOf_filter]
  rfl

theorem Placed.take_placed : (q.take (q.resolve items) keepPassed).2.Placed := by
  obtain ⟨-, -, hle⟩ := h.take_order_split items keepPassed
  have hmanual := (h.take_manual_rows items keepPassed).1
  have horder := (h.take_order_rows items keepPassed).1
  refine ⟨⟨hle, ?_, h.shuffle_ok, ?_⟩, ?_⟩
  · rw [hmanual]
    exact h.manual_keys.sub fun r hr => (List.mem_filter.mp hr).1
  · refine h.order_reads.sub fun r hr => ?_
    exact (List.mem_filter.mp (horder ▸ hr)).1
  · rw [h.take_lists]
    exact h.sound.without _ _

/-- The rows a take answers: the named items of Up Next, in queue order. -/
theorem Placed.take_rows :
    rowsOf (q.take (q.resolve items) keepPassed).1 =
      q.manual.rows.filter (rowTest q.shuffle (fun item => decide (item ∈ items))) ++
        (q.order.rows.drop q.cursor).filter
          (rowTest q.shuffle (fun item => decide (item ∈ items))) := by
  have hread : Defined (rowItem q.shuffle) (q.order.rows.take q.cursor) :=
    h.order_reads.sub fun r hr => List.mem_of_mem_take hr
  have hlen := h.length_takenRows_fst items keepPassed
  change _ = ((itemsOf q.shuffle (q.order.rows.take q.cursor)).filter _).length at hlen
  rw [← length_filter_rowTest hread] at hlen
  rw [take_eq]
  simp only [rowsOf_append]
  rw [(h.take_manual_rows items keepPassed).2, SpanList.rowsOf_map_single]
  congr 1
  rw [(h.take_order_rows items keepPassed).2, ← List.map_drop, SpanList.rowsOf_map_single, hlen]
  conv_lhs => rw [← List.take_append_drop q.cursor q.order.rows, List.filter_append]
  rw [List.take_append_drop, List.drop_left]
  apply List.filter_congr
  intro r hr
  obtain ⟨item, hitem⟩ := Option.isSome_iff_exists.mp (h.order_reads r (List.mem_of_mem_drop hr))
  have hmem : item ∈ q.lists.ahead := List.mem_filterMap.mpr ⟨r, hr, hitem⟩
  simp only [rowTest, hitem, Option.all_some]
  rw [Bool.eq_iff_iff]
  simp only [decide_eq_true_eq, Dropped, hmem, true_or, and_true]

theorem Placed.take_items :
    itemsOf q.shuffle (rowsOf (q.take (q.resolve items) keepPassed).1) =
      q.lists.upNext.filter (· ∈ items) := by
  rw [h.take_rows, itemsOf_append, itemsOf_filter, itemsOf_filter, Lists.upNext,
    List.filter_append]
  rfl

end Resolved

/-! ### Putting -/

/-- The rows before and from the one element that an item is. -/
theorem insertBefore_eq {list : List ItemId} (hn : list.Nodup) {item : ItemId} {i : Nat}
    (hi : list[i]? = some item) (items : List ItemId) :
    Lists.insertBefore item items list = list.take i ++ items ++ list.drop i := by
  have hbefore : list.takeWhile (· ≠ item) = list.take i := by
    induction list generalizing i with
    | nil => simp at hi
    | cons x xs ih =>
      rw [List.nodup_cons] at hn
      cases i with
      | zero =>
        obtain rfl : x = item := by simpa using hi
        simp
      | succ i =>
        have hx : x ≠ item := fun he => hn.1 (he ▸ List.mem_of_getElem? (by simpa using hi))
        rw [List.takeWhile_cons_of_pos (by simpa using hx), List.take_succ_cons,
          ih hn.2 (by simpa using hi)]
  have hafter : list.dropWhile (· ≠ item) = list.drop i := by
    have := List.takeWhile_append_dropWhile (p := (· ≠ item)) (l := list)
    rw [hbefore] at this
    exact List.append_cancel_left (this.trans (List.take_append_drop i list).symm)
  rw [Lists.insertBefore, hbefore, hafter]

theorem rows_splice_take {l : SpanList} {n i : Nat} (hi : n ≤ i) (hn : i ≤ l.rows.length)
    (spans : List Span) :
    (l.splice i spans).rows.take n = l.rows.take n ∧
      (l.splice i spans).rows.drop n =
        (l.rows.drop n).take (i - n) ++ rowsOf spans ++ (l.rows.drop n).drop (i - n) := by
  rw [SpanList.rows_splice]
  refine ⟨?_, ?_⟩
  · rw [List.append_assoc, List.take_append_of_le_length (by simp; omega), List.take_take,
      Nat.min_eq_left hi]
  · rw [List.append_assoc, List.drop_append_of_le_length (by simp; omega), List.drop_drop,
      Nat.add_sub_cancel' hi, List.append_assoc, List.drop_take]

/-- **An anchor points where the plain lists say.** -/
theorem Placed.put_lists (h : q.Placed) {a : Anchor} {moving : List Nat} {spot : Spot}
    (hs : q.spot a moving = .ok spot) (spans : List Span) :
    q.lists.insert (itemsOf q.shuffle (rowsOf spans)) a = some (q.put spot spans).lists := by
  have hml := h.length_manual
  cases a with
  | manualStart =>
    obtain rfl : Spot.manual 0 = spot := by simpa [QueueState.spot] using hs
    simp [Lists.insert, put, lists, SpanList.rows_splice]
  | manualEnd =>
    obtain rfl : Spot.manual q.manual.len = spot := by simpa [QueueState.spot] using hs
    simp [Lists.insert, put, lists, SpanList.rows_splice]
  | contextEnd =>
    obtain rfl : Spot.order q.order.len = spot := by simpa [QueueState.spot] using hs
    have hc := h.cursor_le
    obtain ⟨h1, h2⟩ := rows_splice_take (l := q.order) (i := q.order.len) (n := q.cursor)
      (by simpa using hc) (by simp) spans
    simp only [Lists.insert, put, lists, h1, h2, itemsOf_append]
    have hall : (q.order.rows.drop q.cursor).length ≤ q.order.len - q.cursor := by simp
    rw [List.take_of_length_le hall, List.drop_of_length_le hall, itemsOf_nil, List.append_nil]
  | before item =>
    simp only [QueueState.spot] at hs
    cases hf : q.findItem item with
    | none => simp [hf] at hs
    | some i =>
      have hup := h.findItem_iff.mp hf
      have hil := (List.getElem?_eq_some_iff.mp hup).1
      simp only [hf] at hs
      by_cases hmoving : i ∈ moving
      · simp [hmoving] at hs
      · rw [if_neg hmoving] at hs
        by_cases hi : i < q.manual.len
        · rw [if_pos hi] at hs
          obtain rfl : Spot.manual i = spot := by simpa using hs
          have hm : q.lists.manual[i]? = some item := by
            rwa [Lists.upNext, List.getElem?_append_left (by omega)] at hup
          rw [Lists.insert, if_pos (List.mem_of_getElem? hm), insertBefore_eq h.manual_nodup hm]
          simp only [put, lists, SpanList.rows_splice, itemsOf_append,
            itemsOf_take h.manual_total, itemsOf_drop h.manual_total]
        · rw [if_neg hi] at hs
          obtain rfl : Spot.order (q.cursor + (i - q.manual.len)) = spot := by simpa using hs
          have ha : q.lists.ahead[i - q.manual.len]? = some item := by
            rwa [Lists.upNext, List.getElem?_append_right (by omega), hml] at hup
          have hmem := List.mem_of_getElem? ha
          have hnm : item ∉ q.lists.manual := fun hm =>
            (List.nodup_append.mp h.sound.upNext_nodup).2.2 item hm item hmem rfl
          have hnodup := (List.nodup_append.mp h.sound.upNext_nodup).2.1
          have hbound := (List.getElem?_eq_some_iff.mp ha).1
          rw [h.length_ahead, SpanList.len_eq q.order] at hbound
          rw [Lists.insert, if_neg hnm, if_pos hmem, insertBefore_eq hnodup ha]
          have hread : Defined (rowItem q.shuffle) (q.order.rows.drop q.cursor) :=
            h.order_reads.sub fun r hr => List.mem_of_mem_drop hr
          obtain ⟨h1, h2⟩ := rows_splice_take (l := q.order) (n := q.cursor)
            (i := q.cursor + (i - q.manual.len)) (by omega) (by omega) spans
          simp only [put, lists, h1, h2, itemsOf_append, Nat.add_sub_cancel_left,
            itemsOf_take hread, itemsOf_drop hread]

/-- An anchor is gone exactly when its item is not in Up Next, or is one of those moving. -/
theorem Placed.spot_error (h : q.Placed) {a : Anchor} {items : List ItemId} {e : QueueError} :
    q.spot a (q.resolve items) = .error e ↔
      e = .anchorGone ∧ ∃ item, a = .before item ∧ (item ∉ q.lists.upNext ∨ item ∈ items) := by
  cases a with
  | manualStart => simp [QueueState.spot]
  | manualEnd => simp [QueueState.spot]
  | contextEnd => simp [QueueState.spot]
  | before item =>
    simp only [QueueState.spot, Anchor.before.injEq, exists_eq_left']
    cases hf : q.findItem item with
    | none =>
      have := h.findItem_none.mp hf
      simp [this, eq_comm]
    | some i =>
      have hup := h.findItem_iff.mp hf
      have hmem := List.mem_of_getElem? hup
      have hmoving : i ∈ q.resolve items ↔ item ∈ items := by
        rw [h.mem_resolve]
        constructor
        · rintro ⟨item', hi, hup'⟩
          rw [hup, Option.some.injEq] at hup'
          exact hup' ▸ hi
        · exact fun hi => ⟨item, hi, hup⟩
      simp only [hmoving, hmem, not_true_eq_false, false_or]
      by_cases hi : item ∈ items
      · simp [hi, eq_comm]
      · simp only [hi, if_false, and_false, iff_false]
        split <;> simp

theorem resolve_nil (q : QueueState) : q.resolve [] = [] := by
  have h1 : dedup (sortItems (([] : List ItemId).map ItemId.keyPos)) = [] := rfl
  simp only [resolve, h1, SpanList.findSorted]
  have h2 : ∀ spans : List (Span × Nat), spans.foldl
      (fun rows (x : Span × Nat) => sweepSpan q.manual [] rows x.1 x.2) [] = [] := by
    intro spans
    induction spans with
    | nil => rfl
    | cons x spans ih =>
      have : sweepSpan q.manual [] [] x.1 x.2 = [] := by
        unfold sweepSpan
        cases x.1.view <;> rfl
      rw [List.foldl_cons, this, ih]
  simp only [List.length_nil, List.replicate_zero]
  rw [h2]
  rfl

end QueueState

end JewelCase.Queue
