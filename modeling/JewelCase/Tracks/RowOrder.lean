import JewelCase.Library.Picks
import JewelCase.Tracks.HeldOrder

/-!
# One order of the rows

`sort_rows` compares two positions by whether the rows have a value, then by the field's keys, and
last by the positions. Each link is an order, and a link that a direction reverses is still one, so
the positions have one order. The links that a direction leaves alone, unknown rows last and the
position, are what a descending order does not reverse.
-/
namespace JewelCase.Tracks

set_option autoImplicit false

open Library.Ranking
open Page (Value)

/-! ### Links of the chain -/

/-- What a linear order decides is a comparator. -/
theorem transCmp_of_decides {α β : Type} [LinearOrder β] {c : α → α → Ordering} {f : α → β}
    (h : ∀ a b, Decides (c a b) (f a) (f b)) : Std.TransCmp c where
  eq_swap := by
    intro a b
    cases hc : c b a with
    | lt => exact (h a b).gt.mpr ((h b a).lt.mp hc)
    | eq => exact (h a b).eq.mpr ((h b a).eq.mp hc).symm
    | gt => exact (h a b).lt.mpr ((h b a).gt.mp hc)
  isLE_trans := by
    intro a b d hab hbd
    have hle : ∀ x y, (c x y).isLE ↔ f x ≤ f y := by
      intro x y
      exact Ordering.isLE_iff_ne_gt.trans ((not_congr (h x y).gt).trans not_lt)
    rw [hle] at hab hbd ⊢
    exact hab.trans hbd

theorem transCmp_cmp {α : Type} [LinearOrder α] : Std.TransCmp (cmp : α → α → Ordering) :=
  transCmp_of_decides (f := id) fun _ _ => ⟨cmp_lt, cmp_eq⟩

instance : Std.TransCmp (cmp : Key → Key → Ordering) := transCmp_of_decides decides_key

instance : Std.TransCmp cmpOption := transCmp_of_decides decides_text

instance : Std.TransCmp (cmp : Nat → Nat → Ordering) := transCmp_cmp

instance : Std.TransCmp (cmp : String → String → Ordering) := transCmp_cmp

instance : Std.TransCmp (cmp : Bool → Bool → Ordering) := transCmp_cmp

/-- A comparator of keys compares what has the keys. -/
instance transCmp_on {α β : Type} (f : α → β) {c : β → β → Ordering} [Std.TransCmp c] :
    Std.TransCmp fun a b => c (f a) (f b) where
  eq_swap := by
    intro a b
    exact (Std.OrientedCmp.eq_swap : c (f a) (f b) = _)
  isLE_trans := by
    intro a b d hab hbd
    exact (Std.TransCmp.isLE_trans hab hbd : (c (f a) (f d)).isLE = true)

instance (field : SortField) : Std.TransCmp fun a b : SortRow => a.lead b field := by
  cases field
  · exact inferInstanceAs (Std.TransCmp fun a b : SortRow => cmp a.titleKey b.titleKey)
  · exact inferInstanceAs (Std.TransCmp fun a b : SortRow => cmp a.artistKey b.artistKey)
  · exact inferInstanceAs (Std.TransCmp fun a b : SortRow => cmp a.albumKey b.albumKey)
  · exact inferInstanceAs (Std.TransCmp fun a b : SortRow => cmpOption a.releaseDate b.releaseDate)
  · exact inferInstanceAs (Std.TransCmp fun a b : SortRow => cmp a.added b.added)
  · exact inferInstanceAs (Std.TransCmp fun a b : SortRow => cmp a.durationUs b.durationUs)

/-- A link that breaks the ties of another. -/
theorem transCmp_then {α : Type} {c d : α → α → Ordering} (hc : Std.TransCmp c)
    (hd : Std.TransCmp d) : Std.TransCmp fun a b => (c a b).then (d a b) :=
  inferInstanceAs (Std.TransCmp (compareLex c d))

theorem transCmp_albumOrder : Std.TransCmp SortRow.albumOrder := by
  unfold SortRow.albumOrder
  repeat' apply transCmp_then
  all_goals infer_instance

theorem transCmp_rest (field : SortField) :
    Std.TransCmp fun a b : SortRow => a.rest b field := by
  have hid : Std.TransCmp fun a b : SortRow => cmp a.id b.id := inferInstance
  have htitle : Std.TransCmp fun a b : SortRow => cmp a.titleKey b.titleKey := inferInstance
  cases field
  · exact hid
  · exact transCmp_then htitle hid
  · exact transCmp_albumOrder
  · exact transCmp_albumOrder
  · exact hid
  · exact hid

/-- The keys of two rows compare, and then their IDs. -/
def SortRow.chain (row other : SortRow) (field : SortField) : Ordering :=
  (row.lead other field).then (row.rest other field)

theorem transCmp_chain (field : SortField) :
    Std.TransCmp fun a b : SortRow => a.chain b field :=
  transCmp_then inferInstance (transCmp_rest field)

/-- The chain as a direction reads it. -/
def SortRow.directed (descending : Bool) (row other : SortRow) (field : SortField) : Ordering :=
  if descending then (row.chain other field).swap else row.chain other field

theorem transCmp_directed (field : SortField) (descending : Bool) :
    Std.TransCmp fun a b : SortRow => a.directed descending b field := by
  have hchain := transCmp_chain field
  cases descending
  · exact hchain
  · have hswap : (fun a b : SortRow => a.directed true b field) = fun a b => b.chain a field :=
      funext fun a => funext fun b => (hchain.eq_swap (a := b) (b := a)).symm
    rw [hswap]
    infer_instance

theorem compareAt_eq (field : SortField) (descending : Bool) (a b : SortRow × Nat) :
    compareAt field descending a b =
      (cmp (a.1.unknown field) (b.1.unknown field)).then
        ((a.1.directed descending b.1 field).then (cmp a.2 b.2)) := by
  unfold compareAt SortRow.directed SortRow.chain
  by_cases h : a.1.unknown field = b.1.unknown field
  · simp [h, cmp_self]
  · have hne : cmp (a.1.unknown field) (b.1.unknown field) ≠ .eq := fun he => h (cmp_eq.1 he)
    simp only [ne_eq, h, not_false_eq_true, if_true]
    cases hc : cmp (a.1.unknown field) (b.1.unknown field) with
    | lt => rfl
    | eq => exact absurd hc hne
    | gt => rfl

instance (field : SortField) (descending : Bool) :
    Std.TransCmp (compareAt field descending) := by
  have heq : compareAt field descending = fun a b : SortRow × Nat =>
      (cmp (a.1.unknown field) (b.1.unknown field)).then
        ((a.1.directed descending b.1 field).then (cmp a.2 b.2)) :=
    funext fun a => funext fun b => compareAt_eq field descending a b
  have hdirected := transCmp_directed field descending
  have hrows := transCmp_on (Prod.fst : SortRow × Nat → SortRow)
    (c := fun a b : SortRow => a.directed descending b field)
  rw [heq]
  exact transCmp_then inferInstance (transCmp_then hrows inferInstance)

/-- Only a position compares as itself. -/
theorem compareAt_ties {field : SortField} {descending : Bool} (a b : SortRow × Nat)
    (h : compareAt field descending a b = .eq) : a.2 = b.2 := by
  rw [compareAt_eq, Ordering.then_eq_eq, Ordering.then_eq_eq] at h
  exact cmp_eq.1 h.2.2

/-! ### Ties -/

/-- Two rows on one album in one place: a missing disc stands as 0, and a missing number as the
greatest `u32`. -/
def SortRow.SamePlace (x y : SortRow) : Prop :=
  x.albumKey = y.albumKey ∧ x.albumId = y.albumId ∧ x.disc.getD 0 = y.disc.getD 0 ∧
    x.number.getD 4294967295 = y.number.getD 4294967295

/-- Two rows with equal IDs and equal keys, as far as `field`'s order reads keys. -/
def SortRow.Ties (x y : SortRow) (field : SortField) : Prop :=
  x.id = y.id ∧
    match field with
    | .title => x.titleKey = y.titleKey
    | .artist => x.artistKey = y.artistKey ∧ x.titleKey = y.titleKey
    | .album => x.SamePlace y
    | .year => x.releaseDate = y.releaseDate ∧ x.SamePlace y
    | .added => x.added = y.added
    | .duration => x.durationUs = y.durationUs

theorem cmpOption_eq {a b : Option String} : cmpOption a b = .eq ↔ a = b := by
  rw [(decides_text a b).eq, textOrNull_eq]

theorem albumOrder_eq {x y : SortRow} : x.albumOrder y = .eq ↔ x.SamePlace y ∧ x.id = y.id := by
  simp only [SortRow.albumOrder, SortRow.SamePlace, Ordering.then_eq_eq, cmp_eq, and_assoc]

/-- The chain ties just the rows it reads alike. -/
theorem chain_eq {x y : SortRow} {field : SortField} :
    x.chain y field = .eq ↔ x.Ties y field := by
  unfold SortRow.chain SortRow.Ties
  rw [Ordering.then_eq_eq]
  cases field <;> simp only [SortRow.lead, SortRow.rest, Ordering.then_eq_eq, cmp_eq, cmpOption_eq,
    albumOrder_eq, SortRow.SamePlace] <;> tauto

theorem ties_unknown {x y : SortRow} {field : SortField} (h : x.Ties y field) :
    x.unknown field = y.unknown field := by
  obtain ⟨-, h⟩ := h
  cases field with
  | title => rw [SortRow.unknown, SortRow.unknown, (h : x.titleKey = y.titleKey)]
  | artist => rw [SortRow.unknown, SortRow.unknown, h.1]
  | album => rw [SortRow.unknown, SortRow.unknown, h.1]
  | year => rw [SortRow.unknown, SortRow.unknown, h.1]
  | added => rfl
  | duration => rfl

/-! ### The order -/

variable {rows : List SortRow} {field : SortField} {descending : Bool} {p q : Nat} {x y : SortRow}

theorem sortRows_rank : sortRows rows field descending = rank (compareAt field descending) rows :=
  rfl

theorem lists_rows (hx : rows[p]? = some x) (hy : rows[q]? = some y) :
    Lists (sortRows rows field descending) p q ↔
      compareAt field descending (x, p) (y, q) = .lt := by
  have hp := (List.getElem?_eq_some_iff.mp hx).1
  have hq := (List.getElem?_eq_some_iff.mp hy).1
  rw [sortRows_rank, lists_iff compareAt_ties hp hq, precedes_iff hx hy]

/-- A row with no value for the field is after all that have one. -/
theorem unknown_last (hx : rows[p]? = some x) (hy : rows[q]? = some y)
    (hknown : x.unknown field = false) (hunknown : y.unknown field = true) :
    Lists (sortRows rows field descending) p q := by
  rw [lists_rows hx hy, compareAt_eq, Ordering.then_eq_lt]
  simp only [hknown, hunknown]
  exact .inl (by decide)

/-- Rows that tie keep their order. -/
theorem ties_keep (hx : rows[p]? = some x) (hy : rows[q]? = some y) (hties : x.Ties y field) :
    Lists (sortRows rows field descending) p q ↔ p < q := by
  have hchain := chain_eq.2 hties
  have hdirected : x.directed descending y field = .eq := by
    unfold SortRow.directed
    rw [hchain]
    cases descending <;> rfl
  rw [lists_rows hx hy, compareAt_eq]
  simp only [ties_unknown hties, cmp_self, hdirected, Ordering.eq_then, cmp_lt]

/-- Rows that do not tie are in the other order in the other direction. -/
theorem reversed (hx : rows[p]? = some x) (hy : rows[q]? = some y)
    (hsame : x.unknown field = y.unknown field) (hties : ¬ x.Ties y field) :
    Lists (sortRows rows field true) p q ↔ Lists (sortRows rows field false) q p := by
  have hne : x.chain y field ≠ .eq := fun h => hties (chain_eq.1 h)
  have hswap : y.chain x field = (x.chain y field).swap := (transCmp_chain field).eq_swap
  rw [lists_rows hx hy, lists_rows hy hx, compareAt_eq, compareAt_eq]
  simp only [hsame, cmp_self, Ordering.eq_then, SortRow.directed, hswap, if_true]
  cases hc : x.chain y field with
  | lt => simp
  | eq => exact absurd hc hne
  | gt => simp

/-- **Track rows have one order.** Their comparator is a strict total order of the positions, and
`sort_rows` gives the one permutation of them that it orders. In either direction the rows with no
value for the field are after all others. Among the rows with a value, and among those without,
descending is ascending reversed, but that rows that tie keep their order in both. -/
theorem sortRows_order (rows : List SortRow) (field : SortField) (descending : Bool) :
    ((∀ p, ¬ Precedes (compareAt field descending) rows p p) ∧
      (∀ p q r, Precedes (compareAt field descending) rows p q →
        Precedes (compareAt field descending) rows q r →
          Precedes (compareAt field descending) rows p r) ∧
      ∀ p q, p < rows.length → q < rows.length → p ≠ q →
        Precedes (compareAt field descending) rows p q ∨
          Precedes (compareAt field descending) rows q p) ∧
    (∀ l : List Nat, l = sortRows rows field descending ↔
      l.Perm (List.range rows.length) ∧
        l.Pairwise (Precedes (compareAt field descending) rows)) ∧
    ∀ p q x y, rows[p]? = some x → rows[q]? = some y →
      (x.unknown field = false → y.unknown field = true →
        Lists (sortRows rows field descending) p q) ∧
      (x.unknown field = y.unknown field → ¬ x.Ties y field →
        (Lists (sortRows rows field true) p q ↔ Lists (sortRows rows field false) q p)) ∧
      (x.Ties y field → (Lists (sortRows rows field descending) p q ↔ p < q)) := by
  refine ⟨⟨fun p => precedes_irrefl, fun p q r => precedes_trans, ?_⟩, ?_, ?_⟩
  · exact fun p q => precedes_total compareAt_ties
  · exact fun l => eq_rank_iff compareAt_ties
  · intro p q x y hx hy
    exact ⟨unknown_last hx hy, reversed hx hy, ties_keep hx hy⟩

end JewelCase.Tracks
