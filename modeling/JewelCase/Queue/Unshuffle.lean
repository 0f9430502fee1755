import JewelCase.Queue.BackEdits
import JewelCase.Queue.SortSpans

/-!
# Turning shuffle off

The rebuilt context is the natural order of the shuffled one, and the queue stays valid.
-/
namespace JewelCase.Queue

set_option autoImplicit false

open Library (Stretch)
open Library.Lists
open Library.Buckets

/-- The item of a base row, and its row. -/
theorem Shuffle.Ok.base_get {s : Shuffle} (hok : s.Ok) {b : Nat} {it : ItemId} :
    s.baseItems[b]? = some it ↔ s.base.rows[b]? = some it.row := by
  rw [Shuffle.baseItems, hok.keys.total.getElem?, Option.bind_eq_some_iff]
  simp only [keyItem_eq_some]
  constructor
  · rintro ⟨r, hr, rfl⟩
    exact hr
  · exact fun hb => ⟨_, hb, rfl⟩

namespace QueueState

variable {q : QueueState} {s : Shuffle}

/-- The context as a shuffled one. -/
def shuffled (q : QueueState) (s : Shuffle) : Shuffled where
  base := s.baseItems
  manual := q.lists.manual
  current := q.current
  passed := (q.order.rows.take q.cursor).map (placeOf s.seed s.base.len)
  ahead := (q.order.rows.drop q.cursor).map (placeOf s.seed s.base.len)

theorem shuffled_places (q : QueueState) (s : Shuffle) :
    (q.shuffled s).places = q.order.rows.map (placeOf s.seed s.base.len) := by
  rw [Shuffled.places, shuffled, ← List.map_append, List.take_append_drop]

/-- The context reads positions of the base only. -/
theorem Readable.shuffle_lt (h : q.Readable) (hs : q.shuffle = some s) {p : Nat}
    (hr : (View.shuffle, p) ∈ q.order.rows) : p < s.base.len := by
  have hread := h.order_reads _ hr
  rw [hs] at hread
  obtain ⟨it, hit⟩ := Option.isSome_iff_exists.mp hread
  exact (Shuffle.item_eq_some (s := s) (by simpa [rowItem] using hit)).1

/-- A place has the item its row plays. -/
theorem Readable.item_placeOf (h : q.Readable) (hs : q.shuffle = some s) {r : Row}
    (hr : r ∈ q.order.rows) :
    (q.shuffled s).item (placeOf s.seed s.base.len r) = rowItem q.shuffle r := by
  obtain ⟨v, p⟩ := r
  cases v with
  | key k => rfl
  | shuffle =>
    have hlt := h.shuffle_lt hs hr
    rw [hs]
    simp only [rowItem, Option.bind_some, Shuffle.item, if_pos hlt]
    rfl

theorem Readable.shuffled_items (h : q.Readable) (hs : q.shuffle = some s) :
    (q.shuffled s).places.filterMap (q.shuffled s).item = q.lists.order := by
  rw [shuffled_places, List.filterMap_map, ← order_items, itemsOf]
  exact List.filterMap_congr fun r hr => h.item_placeOf hs hr

/-- Which base rows the context reads, as places. -/
theorem Readable.base_mem (h : q.Readable) (hs : q.shuffle = some s) {b : Nat} {rows : List Row}
    (hsub : ∀ r ∈ rows, r ∈ q.order.rows) :
    .base b ∈ rows.map (placeOf s.seed s.base.len) ↔
      b < s.base.len ∧ (View.shuffle, unpermute s.seed s.base.len b) ∈ rows := by
  rw [List.mem_map]
  constructor
  · rintro ⟨⟨v, p⟩, hr, he⟩
    cases v with
    | key k => cases he
    | shuffle =>
      obtain rfl : permute s.seed s.base.len p = b := Place.base.inj he
      have hlt := h.shuffle_lt hs (hsub _ hr)
      exact ⟨permute_lt s.seed hlt, by rwa [unpermute_permute s.seed hlt]⟩
  · rintro ⟨hb, hr⟩
    exact ⟨_, hr, congrArg Place.base (permute_unpermute s.seed hb)⟩

theorem Placed.shuffled_sound (h : q.Placed) (hs : q.shuffle = some s) : (q.shuffled s).Sound := by
  have hok := h.shuffle_ok s hs
  refine ⟨hok.items_nodup, fun b hb => ?_, ?_, ?_⟩
  · rw [shuffled_places, h.base_mem hs fun _ hr => hr] at hb
    exact hok.length.symm ▸ hb.1
  · rw [shuffled_places, List.filterMap_map]
    -- only positions of the base are read, and those are permuted apart
    let f : Row → Option Nat := fun r =>
      if r.1 = .shuffle ∧ r.2 < s.base.len then some (permute s.seed s.base.len r.2) else none
    have hf : ∀ r ∈ q.order.rows, (Place.base? ∘ placeOf s.seed s.base.len) r = f r := by
      rintro ⟨v, p⟩ hr
      cases v with
      | key k => rfl
      | shuffle =>
        have hlt := h.shuffle_lt hs hr
        simp only [f, hlt, and_self, if_true]
        rfl
    rw [List.filterMap_congr hf]
    refine List.Nodup.filterMap ?_ h.order_rows_nodup
    rintro ⟨v, p⟩ ⟨v', p'⟩ b hr hr'
    simp only [f, Option.mem_def, Option.ite_none_right_eq_some, Option.some.injEq] at hr hr'
    obtain ⟨⟨rfl, hp⟩, hb⟩ := hr
    obtain ⟨⟨rfl, hp'⟩, hb'⟩ := hr'
    rw [← unpermute_permute s.seed hp, ← unpermute_permute s.seed hp', hb, hb']
  · intro p hp it hit
    obtain ⟨r, hr, rfl⟩ := List.mem_map.mp hp
    rw [Option.mem_def, h.item_placeOf hs (List.mem_of_mem_drop hr)] at hit
    have ha : it ∈ q.lists.ahead := by
      rw [h.ahead_eq, ← order_items, ← itemsOf_drop h.order_reads]
      exact List.mem_filterMap.mpr ⟨r, hr, hit⟩
    refine ⟨fun hm => ?_, fun hc => ?_⟩
    · exact (List.nodup_append.mp h.sound.upNext_nodup).2.2 it hm it ha rfl
    · exact h.sound.current_notin it hc (List.mem_append_right _ ha)

/-! ### The pivot -/

theorem maxByKey_concat {α : Type} (f : α → Nat) (xs : List α) (x : α) :
    maxByKey f (xs ++ [x]) =
      some ((maxByKey f xs).elim x fun b => if f b ≤ f x then x else b) := by
  unfold maxByKey
  rw [List.foldl_append, List.foldl_cons, List.foldl_nil]
  generalize xs.foldl _ none = best
  cases best with
  | none => rfl
  | some b => by_cases hle : f b ≤ f x <;> simp [hle]

theorem maxByKey_eq_none {α : Type} {f : α → Nat} {xs : List α} (h : maxByKey f xs = none) :
    xs = [] := by
  cases xs using List.reverseRecOn with
  | nil => rfl
  | append_singleton xs x =>
    rw [maxByKey_concat] at h
    cases h

theorem maxByKey_eq_some {α : Type} {f : α → Nat} {xs : List α} {b : α}
    (h : maxByKey f xs = some b) :
    b ∈ xs ∧ ∀ x ∈ xs, f x ≤ f b := by
  induction xs using List.reverseRecOn generalizing b with
  | nil => cases h
  | append_singleton xs x ih =>
    rw [maxByKey_concat, Option.some.injEq] at h
    cases hm : maxByKey f xs with
    | none =>
      rw [hm] at h
      obtain rfl : x = b := h
      rw [maxByKey_eq_none hm]
      simp
    | some c =>
      obtain ⟨hc, hmax⟩ := ih hm
      rw [hm, Option.elim_some] at h
      by_cases hle : f c ≤ f x
      · rw [if_pos hle] at h
        subst h
        refine ⟨by simp, fun y hy => ?_⟩
        rcases List.mem_append.mp hy with hy | hy
        · exact (hmax y hy).trans hle
        · obtain rfl := List.mem_singleton.mp hy
          exact Nat.le_refl _
      · rw [if_neg hle] at h
        subst h
        refine ⟨List.mem_append_left _ hc, fun y hy => ?_⟩
        rcases List.mem_append.mp hy with hy | hy
        · exact hmax y hy
        · obtain rfl := List.mem_singleton.mp hy
          omega

/-- The last element read, where nothing after it is. -/
theorem getLast?_filterMap {α β : Type} {f : α → Option β} {xs : List α} {i : Nat} {x : α} {y : β}
    (hx : xs[i]? = some x) (hy : f x = some y)
    (hafter : ∀ j x', i < j → xs[j]? = some x' → f x' = none) :
    (xs.filterMap f).getLast? = some y := by
  obtain ⟨hi, rfl⟩ := List.getElem?_eq_some_iff.mp hx
  have hsplit : xs = xs.take i ++ xs[i] :: xs.drop (i + 1) := by
    rw [← List.drop_eq_getElem_cons hi, List.take_append_drop]
  have hnone : (xs.drop (i + 1)).filterMap f = [] := by
    rw [List.filterMap_eq_nil_iff]
    intro z hz
    obtain ⟨j, hj⟩ := List.mem_iff_getElem?.mp hz
    rw [List.getElem?_drop] at hj
    exact hafter _ z (by omega) hj
  rw [hsplit, List.filterMap_append, List.filterMap_cons_some hy, hnone]
  simp

/-- The latest passed shuffle row, as the code finds it. -/
theorem Placed.latest_passed (h : q.Placed) :
    ((maxByKey (·.row) (q.shuffleRows.filter (·.row < q.cursor))).map fun r =>
      permute s.seed s.base.len (r.start + min (q.cursor - r.row) r.len - 1)) =
        ((q.shuffled s).passed.filterMap Place.base?).getLast? := by
  have hok := shuffleRows_ok h.order_rows_nodup
  have hplace : ∀ {r : Row} {b : Nat}, Place.base? (placeOf s.seed s.base.len r) = some b ↔
      r.1 = .shuffle ∧ permute s.seed s.base.len r.2 = b := by
    rintro ⟨v, p⟩ b
    cases v <;> simp [placeOf, Place.base?]
  simp only [shuffled, List.filterMap_map]
  cases hbest : maxByKey (fun r : ShuffleRow => r.row)
    (q.shuffleRows.filter (·.row < q.cursor)) with
  | none =>
    have hspec := maxByKey_eq_none hbest
    simp only [Option.map_none]
    symm
    rw [List.getLast?_eq_none_iff, List.filterMap_eq_nil_iff]
    rintro ⟨v, p⟩ hr
    by_contra hb
    obtain ⟨b, hb⟩ := Option.ne_none_iff_exists'.mp hb
    obtain ⟨rfl, -⟩ := hplace.mp hb
    obtain ⟨i, hi⟩ := List.mem_iff_getElem?.mp hr
    rw [List.getElem?_take, Option.ite_none_right_eq_some] at hi
    obtain ⟨hlt, hget⟩ := hi
    obtain ⟨r, hm, hp, rfl⟩ := (hok.reads i p).mp hget
    have : r ∈ q.shuffleRows.filter (·.row < q.cursor) :=
      List.mem_filter.mpr ⟨hm, by simpa using by omega⟩
    rw [hspec] at this
    cases this
  | some r =>
    rw [Option.map_some]
    symm
    obtain ⟨hm, hmax⟩ := maxByKey_eq_some hbest
    rw [List.mem_filter, decide_eq_true_eq] at hm
    have hpos := hok.pos r hm.1
    have hlast := hok.row hm.1 (j := min (q.cursor - r.row) r.len - 1) (by omega)
    refine getLast?_filterMap (i := r.row + (min (q.cursor - r.row) r.len - 1))
      (x := (.shuffle, r.start + (min (q.cursor - r.row) r.len - 1))) ?_ ?_ ?_
    · rw [List.getElem?_take_of_lt (by omega)]
      exact hlast
    · refine hplace.mpr ⟨rfl, ?_⟩
      congr 1
      simp only
      omega
    · rintro j ⟨v, p⟩ hj hget
      by_contra hb
      obtain ⟨b, hb⟩ := Option.ne_none_iff_exists'.mp hb
      obtain ⟨rfl, -⟩ := hplace.mp hb
      rw [List.getElem?_take, Option.ite_none_right_eq_some] at hget
      obtain ⟨hlt, hget⟩ := hget
      obtain ⟨r', hm', hp', rfl⟩ := (hok.reads j p).mp hget
      have hle := hmax r' (List.mem_filter.mpr ⟨hm', by simpa using by omega⟩)
      have hp := hp'.1
      have hp₂ := hp'.2
      by_cases he : r' = r
      · subst he
        omega
      · -- both spans would read the row where `r` starts
        have hrow := hok.row hm' (j := r.row - r'.row) (by omega)
        rw [show r'.row + (r.row - r'.row) = r.row + 0 by omega, hok.row hm.1 hpos,
          Option.some.injEq, Prod.mk.injEq] at hrow
        have : Std.Symm fun a b : ShuffleRow =>
            a.start + a.len ≤ b.start ∨ b.start + b.len ≤ a.start := ⟨fun _ _ h => h.symm⟩
        have hor : q.shuffleRows.Pairwise fun a b =>
            a.start + a.len ≤ b.start ∨ b.start + b.len ≤ a.start := hok.ascending.imp Or.inl
        rcases hor.forall hm' hm.1 he with hlt | hlt <;> omega

/-- **The pivot** is the one of the shuffled context. -/
theorem Placed.pivot_eq (h : q.Placed) (hs : q.shuffle = some s) :
    q.pivot s q.shuffleRows = (q.shuffled s).pivot := by
  have hok := h.shuffle_ok s hs
  unfold QueueState.pivot Shuffled.pivot
  rw [h.latest_passed]
  refine congrArg (Option.or · _) (Option.bind_congr fun c _ => ?_)
  simp only [shuffled]
  ext b
  rw [ItemId.view, find_row_iff hok.nodup, List.idxOf?_eq_some_iff]
  rw [show s.base.rows[b]? = some (.key c.key, c.pos) ↔ s.baseItems[b]? = some c from
    hok.base_get.symm]
  constructor
  · intro hb
    obtain ⟨hlt, rfl⟩ := List.getElem?_eq_some_iff.mp hb
    refine ⟨hlt, rfl, fun j hj he => ?_⟩
    have := (List.Nodup.getElem_inj_iff hok.items_nodup).mp he
    omega
  · rintro ⟨hlt, rfl, -⟩
    exact List.getElem?_eq_getElem hlt

theorem all_pivot (m : Shuffled) (b : Nat) : m.pivot.all (b > ·) = true ↔ m.split ≤ b := by
  unfold Shuffled.split
  cases m.pivot with
  | none => simp
  | some j => exact decide_eq_true_iff

/-! ### Two-place tracks -/

/-- The two-place track at offset `i` of an overlap, if there is one. -/
def twoPlaceAt (s : Shuffle) (rows : List ShuffleRow) (pivot : Option Nat) (view : View)
    (o : Overlap) (i : Nat) : Option (Nat × Span × Nat) :=
  match rowOfPosition rows (unpermute s.seed s.base.len (o.base + i)) with
  | none => none
  | some row =>
    if pivot.all (o.base + i > ·) then some (row, ⟨view, o.first + i, 1⟩, o.base + i) else none

/-- The two-place tracks of a span of the Manual Queue. -/
def twoPlaceSpan (s : Shuffle) (rows : List ShuffleRow) (pivot : Option Nat) (span : Span) :
    List (Nat × Span × Nat) :=
  match span.view with
  | .shuffle => []
  | .key key =>
    (baseOverlaps s.base key span.start (span.start + span.len)).flatMap fun o =>
      (List.range o.count).filterMap (twoPlaceAt s rows pivot span.view o)

theorem twoPlace_eq (q : QueueState) (s : Shuffle) (rows : List ShuffleRow)
    (pivot : Option Nat) :
    q.twoPlace s rows pivot = q.manual.spans.flatMap (twoPlaceSpan s rows pivot) := rfl

theorem twoPlaceAt_eq_some {rows : List ShuffleRow} {pivot : Option Nat} {view : View}
    {o : Overlap} {i : Nat} {t : Nat × Span × Nat} :
    twoPlaceAt s rows pivot view o i = some t ↔
      rowOfPosition rows (unpermute s.seed s.base.len (o.base + i)) = some t.1 ∧
        pivot.all (o.base + i > ·) = true ∧ t.2.1 = ⟨view, o.first + i, 1⟩ ∧
        t.2.2 = o.base + i := by
  obtain ⟨row, span, b⟩ := t
  unfold twoPlaceAt
  cases hrow : rowOfPosition rows (unpermute s.seed s.base.len (o.base + i)) with
  | none => simp
  | some r =>
    simp only [Option.ite_none_right_eq_some, Option.some.injEq, Prod.mk.injEq]
    constructor
    · rintro ⟨hall, rfl, rfl, rfl⟩
      exact ⟨rfl, hall, rfl, rfl⟩
    · rintro ⟨rfl, hall, rfl, rfl⟩
      exact ⟨hall, rfl, rfl, rfl⟩

theorem Placed.mem_twoPlaceSpan (h : q.Placed) {man : Span} {t : Nat × Span × Nat} :
    t ∈ twoPlaceSpan s q.shuffleRows (q.shuffled s).pivot man ↔
      ∃ it : ItemId, t.2.1 = playSpan it ∧ s.base.rows[t.2.2]? = some it.row ∧
        it.row ∈ Stretch.rows man ∧ q.ReadsBase s t.2.2 t.1 ∧ (q.shuffled s).split ≤ t.2.2 := by
  have hn := h.order_rows_nodup
  unfold twoPlaceSpan
  constructor
  · intro ht
    cases hv : man.view with
    | shuffle => simp [hv] at ht
    | key key =>
      simp only [hv, List.mem_flatMap, List.mem_filterMap, List.mem_range] at ht
      obtain ⟨o, ho, i, hi, ht⟩ := ht
      obtain ⟨hrow, hall, hspan, hb⟩ := twoPlaceAt_eq_some.1 ht
      obtain ⟨hbase, hlo, hhi⟩ := baseOverlap_get ho hi
      rw [← hb] at hrow hall
      exact ⟨⟨key, o.first + i⟩, hspan, hb ▸ hbase, Span.mem_rows.2 ⟨hv.symm, hlo, hhi⟩,
        (rowOfPosition_readsBase hn).mp hrow, (all_pivot _ _).mp hall⟩
  · rintro ⟨it, hspan, hbase, hrow, hreads, hsplit⟩
    obtain ⟨hv, hlo, hhi⟩ := Span.mem_rows.1 hrow
    obtain ⟨o, ho, i, hi, hb, hp⟩ := mem_baseOverlaps.2 ⟨hbase, hlo, hhi⟩
    rw [← hv]
    simp only [ItemId.view, List.mem_flatMap, List.mem_filterMap, List.mem_range]
    refine ⟨o, ho, i, hi, twoPlaceAt_eq_some.2 ⟨?_, ?_, ?_, hb.symm⟩⟩
    · rw [hb]
      exact (rowOfPosition_readsBase hn).mpr hreads
    · rw [hb]
      exact (all_pivot _ _).mpr hsplit
    · rw [hp]
      exact hspan

/-- **What the code takes for a two-place track.** -/
theorem Placed.mem_twoPlace (h : q.Placed) {t : Nat × Span × Nat} :
    t ∈ q.twoPlace s q.shuffleRows (q.shuffled s).pivot ↔
      ∃ it : ItemId, t.2.1 = playSpan it ∧ s.base.rows[t.2.2]? = some it.row ∧
        it.row ∈ q.manual.rows ∧ q.ReadsBase s t.2.2 t.1 ∧ (q.shuffled s).split ≤ t.2.2 := by
  rw [twoPlace_eq, List.mem_flatMap]
  simp only [h.mem_twoPlaceSpan]
  constructor
  · rintro ⟨man, hman, it, hspan, hbase, hrow, hrest⟩
    exact ⟨it, hspan, hbase, List.mem_flatMap.mpr ⟨man, hman, hrow⟩, hrest⟩
  · rintro ⟨it, hspan, hbase, hrow, hrest⟩
    obtain ⟨man, hman, hrow⟩ := List.mem_flatMap.mp hrow
    exact ⟨man, hman, it, hspan, hbase, hrow, hrest⟩

/-- No base row is taken twice. -/
theorem Placed.twoPlace_nodup (h : q.Placed) :
    ((q.twoPlace s q.shuffleRows (q.shuffled s).pivot).map (·.2.2)).Nodup := by
  have hman : (rowsOf q.manual.spans).Nodup := h.manual_rows_nodup
  rw [twoPlace_eq, List.map_flatMap, List.nodup_flatMap]
  refine ⟨fun man _ => ?_, (List.nodup_flatMap.mp hman).2.imp ?_⟩
  · unfold twoPlaceSpan
    cases hv : man.view with
    | shuffle => simp
    | key key =>
      simp only [List.map_flatMap]
      obtain ⟨-, hap⟩ := overlapsFrom_apart key man.start (man.start + man.len) s.base.spans 0
      rw [List.nodup_flatMap]
      refine ⟨fun o _ => ?_, hap.imp ?_⟩
      · rw [List.map_filterMap]
        refine List.Nodup.filterMap ?_ List.nodup_range
        intro i i' b hb hb'
        simp only [Option.mem_def, Option.map_eq_some_iff] at hb hb'
        obtain ⟨t, ht, rfl⟩ := hb
        obtain ⟨t', ht', he⟩ := hb'
        have h1 := (twoPlaceAt_eq_some.1 ht).2.2.2
        have h2 := (twoPlaceAt_eq_some.1 ht').2.2.2
        omega
      · have hin : ∀ {o : Overlap} {b : Nat}, b ∈ ((List.range o.count).filterMap
            (twoPlaceAt s q.shuffleRows (q.shuffled s).pivot (.key key) o)).map (·.2.2) →
              o.base ≤ b ∧ b < o.base + o.count := by
          intro o b hb
          obtain ⟨t, ht, rfl⟩ := List.mem_map.mp hb
          obtain ⟨i, hi, ht⟩ := List.mem_filterMap.mp ht
          rw [List.mem_range] at hi
          have := (twoPlaceAt_eq_some.1 ht).2.2.2
          omega
        intro o o' hlt b hb hb'
        have h1 := hin hb
        have h2 := hin hb'
        omega
  · intro man man' hd b hb hb'
    obtain ⟨t, ht, rfl⟩ := List.mem_map.mp hb
    obtain ⟨t', ht', he⟩ := List.mem_map.mp hb'
    obtain ⟨it, -, hbase, hrow, -⟩ := h.mem_twoPlaceSpan.mp ht
    obtain ⟨it', -, hbase', hrow', -⟩ := h.mem_twoPlaceSpan.mp ht'
    rw [he, hbase, Option.some.injEq] at hbase'
    exact hd hrow (hbase' ▸ hrow')

/-- Which base rows are two-place tracks. -/
theorem Placed.twoPlace_iff (h : q.Placed) (hs : q.shuffle = some s) {b : Nat} :
    (∃ t ∈ q.twoPlace s q.shuffleRows (q.shuffled s).pivot, t.2.2 = b) ↔
      (q.shuffled s).TwoPlace b := by
  have hok := h.shuffle_ok s hs
  have hpassed : ∀ b, .base b ∈ (q.shuffled s).passed ↔
      b < s.base.len ∧ (View.shuffle, unpermute s.seed s.base.len b) ∈ q.order.rows.take q.cursor :=
    fun b => h.base_mem hs fun r hr => List.mem_of_mem_take hr
  unfold Shuffled.TwoPlace
  rw [hpassed]
  constructor
  · rintro ⟨t, ht, rfl⟩
    obtain ⟨it, -, hbase, hman, hreads, hsplit⟩ := h.mem_twoPlace.mp ht
    have hget := hok.base_get.mpr hbase
    have hm : it ∈ q.lists.manual := by
      rw [h.manual_items]
      exact mem_keyItems.2 hman
    have hlt : t.2.2 < s.base.len := by
      rw [← hok.length]
      exact (List.getElem?_eq_some_iff.mp hget).1
    -- an item of the Manual Queue that the context reads has been passed
    have hitem : rowItem q.shuffle (.shuffle, unpermute s.seed s.base.len t.2.2) = some it := by
      rw [hs]
      exact (hok.item_eq_some hget).mpr rfl
    have hp := h.sound.passed_of_manual hm (by
      rw [← order_items]
      exact List.mem_filterMap.mpr ⟨_, List.mem_of_getElem? hreads, hitem⟩)
    rw [h.passed_eq, ← order_items, ← itemsOf_take h.order_reads] at hp
    obtain ⟨r, hr, hri⟩ := List.mem_filterMap.mp hp
    have hsame : r = (.shuffle, unpermute s.seed s.base.len t.2.2) := by
      obtain ⟨i, hi⟩ := List.mem_iff_getElem?.mp (List.mem_of_mem_take hr)
      have h1 : q.lists.order[i]? = some it := by
        rw [← order_items]
        refine (h.order_reads.getElem? i).trans ?_
        rw [hi]
        exact hri
      have h2 : q.lists.order[t.1]? = some it := by
        rw [← order_items]
        refine (h.order_reads.getElem? t.1).trans ?_
        rw [hreads]
        exact hitem
      rw [index_unique h.sound.order_nodup h1 h2, hreads, Option.some.injEq] at hi
      exact hi.symm
    exact ⟨⟨hlt, hsame ▸ hr⟩, hsplit, it, hget, hm⟩
  · rintro ⟨⟨hlt, hr⟩, hsplit, it, hget, hman⟩
    obtain ⟨i, hi⟩ := List.mem_iff_getElem?.mp (List.mem_of_mem_take hr)
    refine ⟨(i, playSpan it, b), h.mem_twoPlace.mpr ⟨it, rfl, hok.base_get.mp hget, ?_, hi, hsplit⟩,
      rfl⟩
    have hman' : it ∈ q.lists.manual := hman
    rw [h.manual_items] at hman'
    exact mem_keyItems.1 hman'

/-- **The base rows left out** are those not at their natural place. -/
theorem Placed.baseRow_natural (h : q.Placed) (hs : q.shuffle = some s) (b : Nat) :
    (baseRow s.base (sortRows (goneRows q.shuffleRows s.seed s.base.len ++
      (q.twoPlace s q.shuffleRows (q.shuffled s).pivot).map (·.2.2))) b).filterMap keyItem =
        (q.shuffled s).natural b := by
  have hok := h.shuffle_ok s hs
  have hitem : s.base.rows[b]?.toList.filterMap keyItem = (q.shuffled s).base[b]?.toList := by
    change _ = s.baseItems[b]?.toList
    rw [Shuffle.baseItems, hok.keys.total.getElem?]
    cases hb : s.base.rows[b]? with
    | none => rfl
    | some r =>
      obtain ⟨it, hit⟩ := Option.isSome_iff_exists.mp (hok.keys.total r (List.mem_of_getElem? hb))
      simp [hit]
  unfold baseRow Shuffled.natural
  by_cases hlt : b < s.base.len
  · have hout : b ∈ sortRows (goneRows q.shuffleRows s.seed s.base.len ++
        (q.twoPlace s q.shuffleRows (q.shuffled s).pivot).map (·.2.2)) ↔
          ¬(.base b ∈ (q.shuffled s).places ∧ ¬ (q.shuffled s).TwoPlace b) := by
      rw [mem_sortRows, List.mem_append, h.mem_goneRows h.order_rows_nodup hs, List.mem_map,
        h.twoPlace_iff hs, shuffled_places, h.base_mem hs fun _ hr => hr]
      have hreads : (∀ i, ¬ q.ReadsBase s b i) ↔
          (View.shuffle, unpermute s.seed s.base.len b) ∉ q.order.rows := by
        rw [List.mem_iff_getElem?, not_exists]
        rfl
      rw [hreads]
      tauto
    by_cases hin : .base b ∈ (q.shuffled s).places ∧ ¬ (q.shuffled s).TwoPlace b
    · rw [if_pos hin, if_neg (fun hm => hout.mp hm hin), hitem]
    · rw [if_neg hin, if_pos (hout.mpr hin)]
      rfl
  · have hnone : s.base.rows[b]? = none := List.getElem?_eq_none (by
      rw [← SpanList.len_eq]
      omega)
    have hbase : (q.shuffled s).base[b]? = none := by
      refine List.getElem?_eq_none ?_
      rw [shuffled, hok.length]
      omega
    rw [hnone, hbase]
    split <;> split <;> rfl

/-! ### Passed additions -/

/-- The row a passed context row puts after the natural rows, if any. -/
def extraRow (q : QueueState) (s : Shuffle) (r : Row) : Option Row :=
  match placeOf s.seed s.base.len r with
  | .added _ => some r
  | .base b => if (q.shuffled s).TwoPlace b then s.base.rows[b]? else none

theorem extraRow_key {r : Row} (hr : isKey r = true) : q.extraRow s r = some r := by
  obtain ⟨v, p⟩ := r
  cases v with
  | key k => rfl
  | shuffle => simp [isKey] at hr

theorem Placed.extraRow_item (h : q.Placed) (hs : q.shuffle = some s) (r : Row) :
    (q.extraRow s r).toList.filterMap keyItem =
      (q.shuffled s).extra (placeOf s.seed s.base.len r) := by
  have hok := h.shuffle_ok s hs
  obtain ⟨v, p⟩ := r
  cases v with
  | key k => rfl
  | shuffle =>
    unfold extraRow Shuffled.extra
    simp only [placeOf]
    by_cases htwo : (q.shuffled s).TwoPlace (permute s.seed s.base.len p)
    · rw [if_pos htwo, if_pos htwo]
      change _ = s.baseItems[permute s.seed s.base.len p]?.toList
      rw [Shuffle.baseItems, hok.keys.total.getElem?]
      cases hb : s.base.rows[permute s.seed s.base.len p]? with
      | none => rfl
      | some r =>
        obtain ⟨it, hit⟩ := Option.isSome_iff_exists.mp (hok.keys.total r (List.mem_of_getElem? hb))
        simp [hit]
    · rw [if_neg htwo, if_neg htwo]
      rfl

theorem mem_dropWhile {α : Type} {p : α → Bool} {xs : List α} {x : α} (hx : x ∈ xs)
    (hp : p x = false) : x ∈ xs.dropWhile p := by
  rw [← List.takeWhile_append_dropWhile (p := p) (l := xs), List.mem_append] at hx
  rcases hx with hx | hx
  · have := List.all_eq_true.mp List.all_takeWhile x hx
    rw [hp] at this
    cases this
  · exact hx

theorem map_fst_dropWhile (p : Row → Bool) (xs : List (Row × Nat)) :
    (xs.dropWhile (p ·.1)).map (·.1) = (xs.map (·.1)).dropWhile p := by
  rw [List.dropWhile_map]
  rfl

/-- The passed rows from the first that the shuffle placed, each with its place. -/
def passedFrom (q : QueueState) : List (Row × Nat) :=
  ((q.order.rows.take q.cursor).zipIdx 0).dropWhile (isKey ·.1)

theorem passedFrom_sublist (q : QueueState) :
    q.passedFrom.Sublist ((q.order.rows.take q.cursor).zipIdx 0) :=
  List.dropWhile_sublist _

theorem passedFrom_sorted (q : QueueState) : q.passedFrom.Pairwise fun a b => a.2 < b.2 := by
  refine List.Pairwise.sublist q.passedFrom_sublist ?_
  have hplaces := List.pairwise_lt_range' (s := 0) (n := (q.order.rows.take q.cursor).length)
  rw [← List.zipIdx_map_snd, List.pairwise_map] at hplaces
  exact hplaces

theorem passedFrom_get {r : Row} {i : Nat} (hm : (r, i) ∈ q.passedFrom) :
    i < q.cursor ∧ q.order.rows[i]? = some r := by
  have hget := List.mk_mem_zipIdx_iff_le_and_getElem?_sub.mp (q.passedFrom_sublist.subset hm)
  rw [Nat.sub_zero, List.getElem?_take, Option.ite_none_right_eq_some] at hget
  exact hget.2

/-- The two-place tracks as entries: each one's row in the context, where its base row is read. -/
theorem Placed.mem_indexed_twoPlace (h : q.Placed) (hs : q.shuffle = some s) {r : Row} {i : Nat} :
    (r, i) ∈ indexed ((q.twoPlace s q.shuffleRows (q.shuffled s).pivot).map fun t => (t.1, t.2.1)) ↔
      ∃ b, (q.shuffled s).TwoPlace b ∧ s.base.rows[b]? = some r ∧ q.ReadsBase s b i := by
  rw [indexed, List.flatMap_map, List.mem_flatMap]
  constructor
  · rintro ⟨t, ht, hr⟩
    obtain ⟨it, hspan, hbase, -, hreads, -⟩ := h.mem_twoPlace.mp ht
    rw [hspan, rows_playSpan, List.zipIdx_singleton, List.mem_singleton, Prod.mk.injEq] at hr
    obtain ⟨rfl, rfl⟩ := hr
    exact ⟨t.2.2, (h.twoPlace_iff hs).mp ⟨t, ht, rfl⟩, hbase, hreads⟩
  · rintro ⟨b, htp, hbase, hreads⟩
    obtain ⟨t, ht, rfl⟩ := (h.twoPlace_iff hs).mpr htp
    obtain ⟨it, hspan, hbase', -, hreads', -⟩ := h.mem_twoPlace.mp ht
    refine ⟨t, ht, ?_⟩
    rw [hspan, rows_playSpan, List.zipIdx_singleton, List.mem_singleton, Prod.mk.injEq]
    rw [hbase, Option.some.injEq] at hbase'
    exact ⟨hbase', hreads.unique h.order_rows_nodup hreads'⟩

theorem Placed.twoPlace_passed (h : q.Placed) (hs : q.shuffle = some s) {b i : Nat}
    (htwo : (q.shuffled s).TwoPlace b) (hreads : q.ReadsBase s b i) : i < q.cursor := by
  have hm := (h.base_mem hs fun r hr => List.mem_of_mem_take hr).mp htwo.1
  obtain ⟨j, hj⟩ := List.mem_iff_getElem?.mp hm.2
  rw [List.getElem?_take, Option.ite_none_right_eq_some] at hj
  rw [hreads.unique h.order_rows_nodup hj.2]
  exact hj.1

/-- No two-place track is read at another's place. -/
theorem Placed.nodup_indexed_twoPlace (h : q.Placed) :
    ((indexed ((q.twoPlace s q.shuffleRows (q.shuffled s).pivot).map fun t =>
      (t.1, t.2.1))).map (·.2)).Nodup := by
  rw [indexed, List.flatMap_map, List.map_flatMap]
  have hone : ∀ t ∈ q.twoPlace s q.shuffleRows (q.shuffled s).pivot,
      ((Stretch.rows t.2.1).zipIdx t.1).map (·.2) = [t.1] := by
    intro t ht
    obtain ⟨it, hspan, -⟩ := h.mem_twoPlace.mp ht
    rw [hspan, rows_playSpan]
    rfl
  rw [List.flatMap_congr hone, ← List.map_eq_flatMap, List.nodup_iff_pairwise_ne, List.pairwise_map]
  have hn := h.twoPlace_nodup (s := s)
  rw [List.nodup_iff_pairwise_ne, List.pairwise_map] at hn
  refine hn.imp_of_mem ?_
  intro t t' ht ht' hne he
  obtain ⟨_, -, hbase, -, hreads, -⟩ := h.mem_twoPlace.mp ht
  obtain ⟨_, -, hbase', -, hreads', -⟩ := h.mem_twoPlace.mp ht'
  have hlt : ∀ {b : Nat} {r : Row}, s.base.rows[b]? = some r → b < s.base.len := by
    intro b r hb
    rw [SpanList.len_eq]
    exact (List.getElem?_eq_some_iff.mp hb).1
  rw [ReadsBase] at hreads hreads'
  rw [← he, hreads, Option.some.injEq, Prod.mk.injEq] at hreads'
  refine hne ?_
  rw [← permute_unpermute s.seed (hlt hbase), hreads'.2, permute_unpermute s.seed (hlt hbase')]

section
variable {passed : List (Nat × Span)}

/-- What is put back of the passed additions, row by row. -/
theorem Placed.mem_indexed_passed (h : q.Placed) (hs : q.shuffle = some s)
    (hidx : indexed passed = q.passedFrom.filter (isKey ·.1)) (x : Row × Nat) :
    x ∈ indexed (passed ++
        (q.twoPlace s q.shuffleRows (q.shuffled s).pivot).map fun t => (t.1, t.2.1)) ↔
      x ∈ q.passedFrom.filterMap fun x => (q.extraRow s x.1).map (·, x.2) := by
  obtain ⟨r, i⟩ := x
  rw [indexed, List.flatMap_append, ← indexed, ← indexed, List.mem_append, hidx, List.mem_filter,
    h.mem_indexed_twoPlace hs, List.mem_filterMap]
  constructor
  · rintro (⟨hm, hk⟩ | ⟨b, htp, hbase, hreads⟩)
    · exact ⟨(r, i), hm, by simp only [extraRow_key hk, Option.map_some]⟩
    · have hi := h.twoPlace_passed hs htp hreads
      refine ⟨((.shuffle, unpermute s.seed s.base.len b), i), mem_dropWhile ?_ rfl, ?_⟩
      · refine List.mk_mem_zipIdx_iff_le_and_getElem?_sub.mpr ⟨Nat.zero_le _, ?_⟩
        rw [Nat.sub_zero, List.getElem?_take_of_lt hi]
        exact hreads
      · have hb : permute s.seed s.base.len (unpermute s.seed s.base.len b) = b :=
          permute_unpermute s.seed ((h.base_mem hs fun r hr => List.mem_of_mem_take hr).mp htp.1).1
        simp only [extraRow, placeOf, hb, if_pos htp, hbase, Option.map_some]
  · rintro ⟨⟨⟨v, p⟩, j⟩, hm, he⟩
    rw [Option.map_eq_some_iff] at he
    obtain ⟨r', hr', he⟩ := he
    obtain ⟨rfl, rfl⟩ := Prod.mk.inj he
    cases v with
    | key k =>
      have hk : isKey (View.key k, p) = true := by simp [isKey]
      rw [extraRow_key hk, Option.some.injEq] at hr'
      exact Or.inl ⟨hr' ▸ hm, hr' ▸ hk⟩
    | shuffle =>
      right
      simp only [extraRow, placeOf, Option.ite_none_right_eq_some] at hr'
      refine ⟨permute s.seed s.base.len p, hr'.1, hr'.2, ?_⟩
      have hget := (passedFrom_get hm).2
      rw [ReadsBase, unpermute_permute s.seed (h.shuffle_lt hs (List.mem_of_getElem? hget))]
      exact hget

/-- No row is put back twice: an addition is read as its own key, a two-place track as the
shuffle's. -/
theorem Placed.nodup_indexed_passed (h : q.Placed) (hs : q.shuffle = some s)
    (hidx : indexed passed = q.passedFrom.filter (isKey ·.1)) :
    ((indexed (passed ++ (q.twoPlace s q.shuffleRows (q.shuffled s).pivot).map fun t =>
      (t.1, t.2.1))).map (·.2)).Nodup := by
  rw [indexed, List.flatMap_append, ← indexed, ← indexed, List.map_append, List.nodup_append]
  refine ⟨?_, h.nodup_indexed_twoPlace, ?_⟩
  · rw [hidx, List.nodup_iff_pairwise_ne, List.pairwise_map]
    exact (q.passedFrom_sorted.filter _).imp fun hlt => Nat.ne_of_lt hlt
  · intro i hi j hj hij
    obtain ⟨⟨r, i'⟩, hr, rfl⟩ := List.mem_map.mp hi
    obtain ⟨⟨r', j'⟩, hr', rfl⟩ := List.mem_map.mp hj
    simp only at hij
    subst hij
    rw [hidx, List.mem_filter] at hr
    obtain ⟨b, -, -, hreads⟩ := (h.mem_indexed_twoPlace hs).mp hr'
    have hget := (passedFrom_get hr.1).2
    rw [hreads, Option.some.injEq] at hget
    rw [← hget] at hr
    simp [isKey] at hr

/-- **The passed additions**, put back in the order passed. -/
theorem Placed.rows_passed (h : q.Placed) (hs : q.shuffle = some s)
    (hidx : indexed passed = q.passedFrom.filter (isKey ·.1))
    (hpos : ∀ e ∈ passed, 0 < e.2.len) :
    rowsOf ((sortByFst (passed ++
      (q.twoPlace s q.shuffleRows (q.shuffled s).pivot).map fun t => (t.1, t.2.1))).map (·.2)) =
        ((q.order.rows.take q.cursor).dropWhile isKey).filterMap (q.extraRow s) := by
  have hmem := h.mem_indexed_passed hs hidx
  have hnodup := h.nodup_indexed_passed hs hidx
  have hspans : ∀ e ∈ passed ++ (q.twoPlace s q.shuffleRows (q.shuffled s).pivot).map
      (fun t => (t.1, t.2.1)), 0 < e.2.len := by
    intro e he
    rcases List.mem_append.mp he with he | he
    · exact hpos e he
    · obtain ⟨t, ht, rfl⟩ := List.mem_map.mp he
      obtain ⟨it, hspan, -⟩ := h.mem_twoPlace.mp ht
      rw [hspan]
      exact Nat.one_pos
  generalize passed ++ (q.twoPlace s q.shuffleRows (q.shuffled s).pivot).map
    (fun t => (t.1, t.2.1)) = entries at hmem hnodup hspans ⊢
  have htarget : (q.passedFrom.filterMap fun x => (q.extraRow s x.1).map (·, x.2)).Pairwise
      fun a b => a.2 < b.2 := by
    refine List.Pairwise.filterMap _ ?_ q.passedFrom_sorted
    intro a a' hlt x hx x' hx'
    obtain ⟨r, -, rfl⟩ := Option.map_eq_some_iff.mp hx
    obtain ⟨r', -, rfl⟩ := Option.map_eq_some_iff.mp hx'
    exact hlt
  have hpermS : (sortByFst entries).Perm entries := List.perm_insertionSort _ _
  have hperm : (indexed (sortByFst entries)).Perm (indexed entries) := hpermS.flatMap_right _
  have hlt : (indexed (sortByFst entries)).Pairwise fun a b => a.2 < b.2 :=
    indexed_ascending (sorted_insertionSort (·.1) entries)
      (fun e he => hspans e (hpermS.mem_iff.mp he)) ((hperm.map _).nodup_iff.mpr hnodup)
  have htn : ∀ {xs : List (Row × Nat)}, (xs.Pairwise fun a b => a.2 < b.2) → xs.Nodup := by
    intro xs hx
    exact hx.imp fun hlt he => absurd (congrArg Prod.snd he) (Nat.ne_of_lt hlt)
  have heq : indexed (sortByFst entries) =
      q.passedFrom.filterMap fun x => (q.extraRow s x.1).map (·, x.2) := by
    refine List.Perm.eq_of_pairwise ?_ hlt htarget
      ((List.perm_ext_iff_of_nodup (htn hlt) (htn htarget)).mpr fun x =>
        (hperm.mem_iff).trans (hmem x))
    intro a b _ _ hab hba
    omega
  have hmap : (q.order.rows.take q.cursor).dropWhile isKey = q.passedFrom.map (·.1) := by
    rw [passedFrom, map_fst_dropWhile, List.zipIdx_map_fst]
  rw [rows_of_indexed, heq, List.map_filterMap, hmap, List.filterMap_map]
  refine List.filterMap_congr fun x _ => ?_
  simp only [Function.comp, Option.map_map]
  cases q.extraRow s x.1 <;> rfl

end

/-! ### The rebuilt context -/

theorem length_rowsOf (spans : List Span) : (rowsOf spans).length = (spans.map (·.len)).sum := by
  induction spans with
  | nil => rfl
  | cons s ss ih => rw [length_rowsOf_cons, ih, List.map_cons, List.sum_cons]

/-- The rows before the new cursor. -/
theorem Placed.rows_before (h : q.Placed) (hs : q.shuffle = some s) :
    let rows := q.shuffleRows
    let sorted := sortSpans s.seed s.base.len q.cursor q.order.spans 0 false
    let m := q.shuffled s
    let twoPlace := q.twoPlace s rows m.pivot
    let leftOut := sortRows (goneRows rows s.seed s.base.len ++ twoPlace.map (·.2.2))
    let passed := sortByFst (sorted.passed ++ twoPlace.map fun t => (t.1, t.2.1))
    let before := sorted.head.map (·.2) ++ baseWithout s.base leftOut 0 m.split ++
      passed.map (·.2)
    KeyRows (rowsOf before) ∧ (rowsOf before).filterMap keyItem = m.naturalPassed := by
  intro rows sorted m twoPlace leftOut passed before
  have hok := h.shuffle_ok s hs
  obtain ⟨hhead, hpassed, hpos, -, -⟩ := sortSpans_ok s.seed s.base.len m.split q.cursor
    q.order.spans 0 false q.order.canonical.1
  simp only [Bool.false_eq_true, if_false, Nat.sub_zero, Bool.not_false, Bool.true_and] at hhead hpassed
  have hrows := h.rows_passed hs hpassed hpos
  have hbase := rows_baseWithout s.base (sortRows_pairwise (goneRows rows s.seed s.base.len ++
    twoPlace.map (·.2.2))) 0 m.split
  have hbefore : rowsOf before = (q.order.rows.take q.cursor).takeWhile isKey ++
      (List.range' 0 m.split).flatMap (baseRow s.base leftOut) ++
        ((q.order.rows.take q.cursor).dropWhile isKey).filterMap (q.extraRow s) := by
    simp only [before, rowsOf_append]
    rw [hhead, hbase, hrows]
    rfl
  have hbaseKeys : ∀ {b : Nat} {r : Row}, s.base.rows[b]? = some r → r.1 ≠ .shuffle :=
    fun hb => hok.keys _ (List.mem_of_getElem? hb)
  refine ⟨?_, ?_⟩
  · rw [hbefore]
    refine KeyRows.append (KeyRows.append ?_ ?_) ?_
    · intro r hr
      simpa [isKey] using List.all_eq_true.mp List.all_takeWhile r hr
    · intro r hr
      obtain ⟨b, -, hb⟩ := List.mem_flatMap.mp hr
      unfold baseRow at hb
      split at hb
      · cases hb
      · exact hbaseKeys (Option.mem_toList.mp hb)
    · intro r hr
      obtain ⟨⟨v, p⟩, -, he⟩ := List.mem_filterMap.mp hr
      cases v with
      | key k =>
        rw [extraRow_key (by simp [isKey]), Option.some.injEq] at he
        rw [← he]
        simp
      | shuffle =>
        simp only [extraRow, placeOf, Option.ite_none_right_eq_some] at he
        exact hbaseKeys he.2
  · rw [hbefore, List.filterMap_append, List.filterMap_append, Shuffled.naturalPassed]
    refine congrArg₂ _ (congrArg₂ _ ?_ ?_) ?_
    · have hcomp : Shuffled.isAdded ∘ placeOf s.seed s.base.len = isKey :=
        funext fun r => isAdded_placeOf s.seed s.base.len r
      change _ = ((((q.order.rows.take q.cursor).map (placeOf s.seed s.base.len)).takeWhile
        Shuffled.isAdded).filterMap Place.added?)
      rw [List.takeWhile_map, hcomp, List.filterMap_map]
      refine List.filterMap_congr ?_
      rintro ⟨v, p⟩ -
      cases v <;> rfl
    · rw [List.filterMap_flatMap]
      refine List.flatMap_congr fun b _ => ?_
      exact h.baseRow_natural hs b
    · have hcomp : Shuffled.isAdded ∘ placeOf s.seed s.base.len = isKey :=
        funext fun r => isAdded_placeOf s.seed s.base.len r
      change _ = ((((q.order.rows.take q.cursor).map (placeOf s.seed s.base.len)).dropWhile
        Shuffled.isAdded).flatMap m.extra)
      have htoList : ∀ xs : List Row, xs.filterMap (q.extraRow s) =
          xs.flatMap fun r => (q.extraRow s r).toList := List.filterMap_eq_flatMap_toList _
      rw [List.dropWhile_map, hcomp, List.flatMap_map, htoList, List.filterMap_flatMap]
      refine List.flatMap_congr fun r _ => ?_
      exact h.extraRow_item hs r

/-- The rows from the new cursor on. -/
theorem Placed.rows_upNext (h : q.Placed) (hs : q.shuffle = some s) :
    let rows := q.shuffleRows
    let sorted := sortSpans s.seed s.base.len q.cursor q.order.spans 0 false
    let m := q.shuffled s
    let leftOut := sortRows (goneRows rows s.seed s.base.len ++
      (q.twoPlace s rows m.pivot).map (·.2.2))
    let a := anchorAhead m.split sorted.ahead.reverse none
    let spans := weave s.base leftOut m.split (sortByFst a.1.reverse) ++ a.2.reverse
    KeyRows (rowsOf spans) ∧ (rowsOf spans).filterMap keyItem = m.naturalAhead := by
  intro rows sorted m leftOut a spans
  have hok := h.shuffle_ok s hs
  have hsound := h.shuffled_sound hs
  obtain ⟨-, -, -, -, hahead⟩ := sortSpans_ok s.seed s.base.len m.split q.cursor
    q.order.spans 0 false q.order.canonical.1
  obtain ⟨ha, hl⟩ := anchorAhead_reverse m.split sorted.ahead
  simp only [Bool.false_or, Nat.sub_zero] at hahead
  have hadds : addedItems (aheadAdds m.split sorted.ahead) = m.aheadAnchors := by
    rw [Shuffled.aheadAnchors]
    refine hahead.trans ?_
    congr 1
    change _ = ((q.order.rows.take q.cursor).map (placeOf s.seed s.base.len)).any
      (!Shuffled.isAdded ·)
    rw [List.any_map]
    congr 1
    funext r
    simp [isAdded_placeOf]
  have hview : ∀ x ∈ aheadAdds m.split sorted.ahead, x.2.view ≠ .shuffle ∧ 0 < x.2.len := by
    intro x hx
    obtain ⟨head, hm⟩ := mem_aheadAdds hx
    exact sortSpans_views _ _ _ _ _ _ hm
  have hlen : m.base.length = s.base.len := hok.length
  have hbound : ∀ x ∈ anchoredSpans (aheadAdds m.split sorted.ahead),
      m.split ≤ x.1 ∧ x.1 ≤ s.base.len := by
    rintro ⟨anchor, span⟩ hx
    obtain ⟨⟨o, span'⟩, hm, he⟩ := List.mem_filterMap.mp hx
    obtain ⟨anchor', rfl, he⟩ := Option.map_eq_some_iff.mp he
    obtain ⟨rfl, rfl⟩ := Prod.mk.inj he
    obtain ⟨hv, hpos⟩ := hview _ hm
    -- the span has an item, which has the span's anchor
    have hrow : (span'.view, span'.start) ∈ Stretch.rows span' :=
      Span.mem_rows.2 ⟨rfl, Nat.le_refl _, by simp only at hpos; omega⟩
    obtain ⟨it, hit⟩ := Option.isSome_iff_exists.mp (keyItem_isSome (r := (span'.view, span'.start)) hv)
    have hitem : (some anchor', it) ∈ m.aheadAnchors := by
      rw [← hadds]
      exact List.mem_flatMap.mpr ⟨_, hm, List.mem_map.mpr
        ⟨it, List.mem_filterMap.mpr ⟨_, hrow, hit⟩, rfl⟩⟩
    have := Shuffled.mem_anchors (Shuffled.split_le hsound)
      (fun b hb => hsound.rows b (List.mem_append_right _ hb)) hitem
    rwa [hlen] at this
  have hsort : (sortByFst (anchoredSpans (aheadAdds m.split sorted.ahead))).Perm
      (anchoredSpans (aheadAdds m.split sorted.ahead)) := List.perm_insertionSort _ _
  have hweave : rowsOf (weave s.base leftOut m.split
      (sortByFst (anchoredSpans (aheadAdds m.split sorted.ahead)))) =
      (List.range' m.split (s.base.len + 1 - m.split)).flatMap fun b =>
        rowsOf ((bucket (·.1)
          (sortByFst (anchoredSpans (aheadAdds m.split sorted.ahead))) b).map (·.2)) ++
            baseRow s.base leftOut b :=
    rows_weave s.base (sortRows_pairwise _) (sorted_insertionSort (fun x : Nat × Span => x.1) _)
      (fun x hx => hbound x (hsort.mem_iff.mp hx)) (hlen ▸ Shuffled.split_le hsound)
  have hbucket : ∀ b, bucket (fun x : Nat × Span => x.1)
      (sortByFst (anchoredSpans (aheadAdds m.split sorted.ahead))) b =
        bucket (·.1) (anchoredSpans (aheadAdds m.split sorted.ahead)) b :=
    fun b => bucket_insertionSort (fun x : Nat × Span => x.1) _ b
  simp only [hbucket] at hweave
  have hspans : rowsOf spans = ((List.range' m.split (s.base.len + 1 - m.split)).flatMap fun b =>
      rowsOf ((bucket (·.1) (anchoredSpans (aheadAdds m.split sorted.ahead)) b).map (·.2)) ++
        baseRow s.base leftOut b) ++
      rowsOf (((aheadAdds m.split sorted.ahead).filter (·.1 = none)).map (·.2)) := by
    simp only [spans, rowsOf_append, a, ha, hl]
    exact congrArg (· ++ _) hweave
  have hkeys : ∀ xs : List Span, (∀ x ∈ xs, x.view ≠ .shuffle) → KeyRows (rowsOf xs) := by
    intro xs hxs r hr
    obtain ⟨x, hx, hr⟩ := List.mem_flatMap.mp hr
    obtain ⟨hv, -⟩ := (Span.mem_rows (v := r.1) (p := r.2)).mp hr
    rw [hv]
    exact hxs x hx
  refine ⟨?_, ?_⟩
  · rw [hspans]
    refine KeyRows.append ?_ (hkeys _ fun x hx => ?_)
    · intro r hr
      obtain ⟨b, -, hr⟩ := List.mem_flatMap.mp hr
      rcases List.mem_append.mp hr with hr | hr
      · refine hkeys _ (fun x hx => ?_) r hr
        obtain ⟨y, hy, rfl⟩ := List.mem_map.mp hx
        obtain ⟨⟨o, span'⟩, hm, he⟩ := List.mem_filterMap.mp (List.mem_of_mem_filter hy)
        obtain ⟨anchor', rfl, rfl⟩ := Option.map_eq_some_iff.mp he
        exact (hview _ hm).1
      · unfold baseRow at hr
        split at hr
        · cases hr
        · exact hok.keys _ (List.mem_of_getElem? (Option.mem_toList.mp hr))
    · obtain ⟨y, hy, rfl⟩ := List.mem_map.mp hx
      exact (hview _ (List.mem_of_mem_filter hy)).1
  · rw [hspans, List.filterMap_append, Shuffled.naturalAhead, List.filterMap_flatMap,
      rows_last_anchored, hadds, hlen]
    congr 1
    refine List.flatMap_congr fun b _ => ?_
    rw [List.filterMap_append, rows_bucket_anchored, hadds, h.baseRow_natural hs b]

/-- What an unshuffle makes of the queue, before clean-up. -/
structure Unshuffled (q q' : QueueState) (m : Shuffled) : Prop where
  frame : q' = { q with order := q'.order, cursor := q'.cursor, shuffle := none }
  readable : q'.Readable
  keys : KeyRows q'.order.rows
  cursor : q'.cursor = m.naturalPassed.length
  lists : q'.lists = ⟨q.lists.manual, m.naturalPassed, m.naturalAhead, q.current⟩

/-- **Unshuffle** puts the context in its natural order. -/
theorem Placed.unshuffled (h : q.Placed) (hs : q.shuffle = some s) :
    ∃ q', Unshuffled q q' (q.shuffled s) ∧ q.unshuffle = q'.cleanUp := by
  obtain ⟨hbk, hbi⟩ := h.rows_before hs
  obtain ⟨huk, hui⟩ := h.rows_upNext hs
  have hsplit : (q.pivot s q.shuffleRows).elim 0 (· + 1) = (q.shuffled s).split := by
    rw [h.pivot_eq hs]
    rfl
  unfold QueueState.unshuffle
  simp only [hs, hsplit]
  rw [h.pivot_eq hs]
  generalize hb : (sortSpans s.seed s.base.len q.cursor q.order.spans 0 false).head.map (·.2) ++
    baseWithout s.base (sortRows (goneRows q.shuffleRows s.seed s.base.len ++
      (q.twoPlace s q.shuffleRows (q.shuffled s).pivot).map (·.2.2))) 0 (q.shuffled s).split ++
    (sortByFst ((sortSpans s.seed s.base.len q.cursor q.order.spans 0 false).passed ++
      (q.twoPlace s q.shuffleRows (q.shuffled s).pivot).map fun t => (t.1, t.2.1))).map (·.2) =
      before
  generalize hu : weave s.base (sortRows (goneRows q.shuffleRows s.seed s.base.len ++
      (q.twoPlace s q.shuffleRows (q.shuffled s).pivot).map (·.2.2))) (q.shuffled s).split
    (sortByFst (anchorAhead (q.shuffled s).split (sortSpans s.seed s.base.len q.cursor q.order.spans
      0 false).ahead.reverse none).1.reverse) ++
    (anchorAhead (q.shuffled s).split (sortSpans s.seed s.base.len q.cursor q.order.spans
      0 false).ahead.reverse none).2.reverse = upNext
  rw [hb] at hbk hbi
  rw [hu] at huk hui
  refine ⟨_, ?_, rfl⟩
  -- the rows of the new context, and where its cursor is
  have hrows : (SpanList.fromSpans (before ++ (SpanList.fromSpans upNext).spans)).rows =
      rowsOf before ++ rowsOf upNext := by
    rw [SpanList.rows_fromSpans, rowsOf_append]
    congr 1
    exact SpanList.rows_fromSpans _
  have hcur : (before.map (·.len)).sum = (rowsOf before).length := (length_rowsOf before).symm
  have hkeys : KeyRows (SpanList.fromSpans (before ++ (SpanList.fromSpans upNext).spans)).rows := by
    rw [hrows]
    exact hbk.append huk
  refine ⟨rfl, ⟨?_, h.manual_keys, by simp, hkeys.total_rowItem _⟩, hkeys, ?_, ?_⟩
  · simp only [hrows, hcur, List.length_append]
    omega
  · simp only [hcur, ← hbi]
    exact hbk.total.length.symm
  · simp only [lists, hrows, hcur, List.take_left, List.drop_left]
    have hitems : ∀ {rows : List Row} (shuffle : Option Shuffle), KeyRows rows →
        itemsOf shuffle rows = rows.filterMap keyItem := fun shuffle hk => hk.items shuffle
    rw [hitems none hbk, hitems none huk, hitems none h.manual_keys,
      hitems q.shuffle h.manual_keys, hbi, hui]

/-- The rebuilt context holds the items of the old one. -/
theorem Unshuffled.perm (h : q.Placed) (hs : q.shuffle = some s) {q' : QueueState}
    (hu : Unshuffled q q' (q.shuffled s)) : q'.lists.order.Perm q.lists.order := by
  rw [hu.lists, ← h.shuffled_items hs]
  exact (h.shuffled_sound hs).natural_perm

theorem Valid.unshuffle (h : q.Valid) : Keeps q q.unshuffle := by
  cases hs : q.shuffle with
  | none =>
    rw [QueueState.unshuffle, hs]
    exact h.keeps
  | some s =>
    obtain ⟨q', hu, he⟩ := h.placed.unshuffled hs
    have hframe := hu.frame
    have hh : q'.history = q.history := by rw [hframe]
    have hn : q'.nextPlay = q.nextPlay := by rw [hframe]
    have hsound : q'.lists.Sound := by
      rw [hu.lists]
      exact (h.placed.shuffled_sound hs).natural_lists h.placed.sound rfl rfl
        (h.placed.shuffled_items hs).symm
    rw [he]
    refine keeps_cleanUp ⟨hu.readable, hsound⟩ (h.numbered.of_eq hh hn) ?_ (.of_eq hh hn)
    refine h.grounded.mono (by rw [hframe]) (by rw [hframe]) fun key pos hm => ?_
    have hbase : q'.baseRows = [] := by rw [hframe]; rfl
    have hman : q'.manual = q.manual := by rw [hframe]
    have hcurr : q'.current = q.current := by rw [hframe]
    have hplay : q'.playRows = q.playRows := by rw [playRows, playRows, plays, plays, hh]
    rw [mem_mentioned, hbase, hman, hcurr, hplay] at hm
    rcases hm with hm | hm | hm | hm | hm
    · exact mem_mentioned.2 (Or.inl hm)
    · exact mem_mentioned.2 (Or.inr (Or.inl hm))
    · -- a row of the new context is an item of the old one
      have hit : (⟨key, pos⟩ : ItemId) ∈ q'.lists.order := by
        rw [← order_items]
        exact List.mem_filterMap.mpr ⟨_, hm, rfl⟩
      exact order_mentioned ((hu.perm h.placed hs).mem_iff.mp hit)
    · cases hm
    · exact mem_mentioned.2 (Or.inr (Or.inr (Or.inr (Or.inr hm))))

end QueueState

end JewelCase.Queue
