import JewelCase.Library.Pages
import JewelCase.Page.Keyset

/-!
# The parts of a list

What each query of a page reads: the rows of its part, in order, beyond the cursor if the cursor is
in it. The known part's own condition may be left out next to a cursor, since a row it would rule
out is not beyond one.
-/
namespace JewelCase.Page

set_option autoImplicit false

open Library.Pages

variable {ρ : Type}

/-! ### The rows -/

/-- The last column of a sort. -/
def ListSort.last (sort : ListSort ρ) : ρ → Value := sort.rest.getLastD sort.first

/-- The rows that pass the filter. -/
def Source.kept (source : Source ρ) : List ρ :=
  source.rows.filter fun row => decide (source.filter row = some true)

/-- What a sort asks of the rows it lists. -/
structure ListSort.Fits (sort : ListSort ρ) (rows : List ρ) : Prop where
  unique : rows.Pairwise fun a b => (sort.last a).sortKey ≠ (sort.last b).sortKey
  rest : ∀ row ∈ rows, ∀ column ∈ sort.rest, column row ≠ .null
  never : sort.unknown = .never → ∀ row ∈ rows, sort.first row ≠ .null
  empty : sort.unknown = .empty → ∀ row ∈ rows, ∃ bytes, sort.first row = .blob bytes

/-- The part a row is in. -/
def ListSort.part (sort : ListSort ρ) (row : ρ) : Part := sort.partOf (sort.first row)

/-- Whether `a` comes before `b` in a part. -/
def ListSort.Lt (sort : ListSort ρ) (order : Order) (part : Part) (a b : ρ) : Prop :=
  order.Lt (keyOf (sort.columnsOf part) a) (keyOf (sort.columnsOf part) b)

instance (sort : ListSort ρ) (order : Order) (part : Part) : DecidableRel (sort.Lt order part) :=
  fun a b => inferInstanceAs (Decidable (order.Lt (keyOf (sort.columnsOf part) a)
    (keyOf (sort.columnsOf part) b)))

variable {source : Source ρ} {sort : ListSort ρ} {order : Order} {part : Part} {rows : List ρ}
  {row c : ρ}

theorem ListSort.lt_asymm (a b : ρ) (h : sort.Lt order part a b) : ¬ sort.Lt order part b a :=
  Order.lt_asymm order h

theorem partOf_never (h : sort.unknown = .never) (v : Value) : sort.partOf v = .known := by
  unfold ListSort.partOf
  rw [h]

theorem partOf_null (h : sort.unknown = .null) (v : Value) :
    sort.partOf v = .unknown ↔ v = .null := by
  unfold ListSort.partOf
  rw [h]
  cases v <;> simp

theorem partOf_empty (h : sort.unknown = .empty) (v : Value) :
    sort.partOf v = .unknown ↔ v = .blob [] := by
  unfold ListSort.partOf
  rw [h]
  cases v with
  | blob bytes => cases bytes <;> simp
  | null => simp
  | integer i => simp
  | real bits => simp
  | text t => simp

theorem part_known : part ≠ .unknown ↔ part = .known := by cases part <;> simp

/-- The rows of a part differ in what orders it. -/
theorem ListSort.Fits.keys_ne (h : sort.Fits rows) :
    rows.Pairwise fun a b => sort.part a = part → sort.part b = part →
      keyOf (sort.columnsOf part) a ≠ keyOf (sort.columnsOf part) b := by
  refine h.unique.imp_of_mem ?_
  intro a b ha hb hne hpa hpb he
  apply hne
  have hcol : ∀ column ∈ sort.columnsOf part, (column a).sortKey = (column b).sortKey :=
    List.map_inj_left.mp he
  have hlast : sort.last ∈ sort.columnsOf part ∨ sort.rest = [] ∧ part = .unknown := by
    rw [ListSort.last]
    cases hr : sort.rest.getLast? with
    | none =>
      rw [List.getLast?_eq_none_iff] at hr
      cases part with
      | known => exact .inl (by simp [hr, ListSort.columnsOf, ListSort.columns])
      | unknown => exact .inr ⟨hr, rfl⟩
    | some last =>
      have hm := List.mem_of_getLast? hr
      rw [List.getLastD_eq_getLast?, hr, Option.getD_some]
      cases part with
      | known => exact .inl (List.mem_cons_of_mem _ hm)
      | unknown => exact .inl hm
  obtain hmem | ⟨hrest, rfl⟩ := hlast
  · exact hcol _ hmem
  · -- one column only, which is unknown in both
    have hfirst : sort.last = sort.first := by rw [ListSort.last, hrest]; rfl
    rw [hfirst]
    cases hu : sort.unknown with
    | never =>
      rw [ListSort.part, partOf_never hu] at hpa
      cases hpa
    | null => rw [(partOf_null hu _).mp hpa, (partOf_null hu _).mp hpb]
    | empty => rw [(partOf_empty hu _).mp hpa, (partOf_empty hu _).mp hpb]

/-! ### What a query reads -/

/-- The rows of a part, in order. -/
def listed (source : Source ρ) (sort : ListSort ρ) (order : Order) (part : Part) : List ρ :=
  (source.kept.filter fun row => decide (sort.part row = part)).insertionSort fun a b =>
    ¬ sort.Lt order part b a

theorem listed_perm :
    (listed source sort order part).Perm
      (source.kept.filter fun row => decide (sort.part row = part)) :=
  List.perm_insertionSort _ _

theorem mem_listed : row ∈ listed source sort order part ↔
    row ∈ source.kept ∧ sort.part row = part := by
  rw [listed_perm.mem_iff, List.mem_filter, decide_eq_true_eq]

/-- Rows of different keys are sorted strictly. -/
theorem sorted_strict (hne : rows.Pairwise fun a b =>
    keyOf (sort.columnsOf part) a ≠ keyOf (sort.columnsOf part) b) :
    (rows.insertionSort fun a b => ¬ sort.Lt order part b a).Pairwise (sort.Lt order part) := by
  have htotal : Std.Total fun a b : ρ => ¬ sort.Lt order part b a := by
    constructor
    intro a b
    by_cases hab : sort.Lt order part b a
    · exact .inr (sort.lt_asymm _ _ hab)
    · exact .inl hab
  have htrans : IsTrans ρ fun a b : ρ => ¬ sort.Lt order part b a := by
    constructor
    intro a b c hab hbc
    unfold ListSort.Lt at *
    cases order with
    | asc => exact not_lt_of_ge ((le_of_not_gt hab).trans (le_of_not_gt hbc))
    | desc => exact not_lt_of_ge ((le_of_not_gt hbc).trans (le_of_not_gt hab))
  have hsorted := List.pairwise_insertionSort (fun a b : ρ => ¬ sort.Lt order part b a) rows
  have hne' : (rows.insertionSort fun a b => ¬ sort.Lt order part b a).Pairwise fun a b =>
      keyOf (sort.columnsOf part) a ≠ keyOf (sort.columnsOf part) b := by
    refine ((List.perm_insertionSort _ rows).pairwise_iff ?_).mpr hne
    intro a b h
    exact h.symm
  refine (hsorted.and hne').imp ?_
  intro a b h
  exact (order.lt_of_ne h.2).resolve_right h.1

theorem listed_sorted (h : sort.Fits source.kept) :
    (listed source sort order part).Pairwise (sort.Lt order part) := by
  apply sorted_strict
  have hne := (@ListSort.Fits.keys_ne _ sort part _ h).filter fun row =>
    decide (sort.part row = part)
  refine hne.imp_of_mem ?_
  intro a b ha hb hne
  exact hne (of_decide_eq_true (List.mem_filter.mp ha).2)
    (of_decide_eq_true (List.mem_filter.mp hb).2)

/-- A query gives the first of the rows it selects, in order. -/
theorem run_eq {query : Query ρ} (horder : query.order = order)
    (hby : query.orderBy = sort.columnsOf part) (hs : rows.Pairwise (sort.Lt order part))
    (hp : rows.Perm (source.rows.filter query.selects)) :
    query.run source.rows = rows.take query.limit := by
  have hne : (source.rows.filter query.selects).Pairwise fun a b =>
      keyOf (sort.columnsOf part) a ≠ keyOf (sort.columnsOf part) b := by
    refine (hp.pairwise_iff ?_).mp (hs.imp ?_)
    · intro a b h
      exact h.symm
    · intro a b hlt he
      rw [ListSort.Lt, he] at hlt
      exact order.lt_asymm hlt hlt
  have hsorted := @sorted_strict _ sort order part _ hne
  have hperm := (List.perm_insertionSort (fun a b => ¬ sort.Lt order part b a)
    (source.rows.filter query.selects)).trans hp.symm
  rw [Query.run, horder, hby]
  congr 1
  exact sorted_unique sort.lt_asymm hperm hsorted hs

/-! ### Conditions -/

@[simp] theorem holds_filter (holds : ρ → Option Bool) (row : ρ) :
    (Condition.filter holds).holds row = holds row := rfl

@[simp] theorem holds_beyond (columns : List (ρ → Value)) (order : Order) (values : List Value)
    (row : ρ) : (Condition.beyond columns order values).holds row =
      rowBeyond order (columns.map fun column => column row) values := rfl

/-- The part's condition picks the part's rows. -/
theorem condition_holds (h : sort.Fits source.kept) (hrow : row ∈ source.kept)
    (hpart : sort.unknown = .never → part = .known) :
    (∀ condition ∈ sort.condition part, condition.holds row = some true) ↔
      sort.part row = part := by
  cases hu : sort.unknown with
  | never =>
    rw [hpart hu, ListSort.part, partOf_never hu]
    simp [ListSort.condition, hu]
  | null =>
    cases part with
    | known =>
      rw [← part_known, ListSort.part, ne_eq, partOf_null hu]
      simp [ListSort.condition, hu, Condition.holds]
    | unknown =>
      rw [ListSort.part, partOf_null hu]
      simp [ListSort.condition, hu, Condition.holds]
  | empty =>
    obtain ⟨bytes, hb⟩ := h.empty hu row hrow
    have hlt := @empty_lt bytes
    cases part with
    | known =>
      rw [← part_known, ListSort.part, ne_eq, partOf_empty hu, hb]
      have hiff : Order.asc.Lt [(Value.blob []).sortKey] [(Value.blob bytes).sortKey] ↔
          bytes ≠ [] := by
        rw [Order.cons_lt, ← hlt]
        simp [Order.Lt]
      have hbeyond := @rowBeyond_some .asc [.blob bytes] [.blob []] rfl (by simp) (by simp)
      simp only [List.map_cons, List.map_nil, hiff] at hbeyond
      simp [ListSort.condition, hu, Condition.holds, hb, hbeyond]
    | unknown =>
      rw [ListSort.part, partOf_empty hu, hb]
      simp only [ListSort.condition, hu, Option.mem_def, Option.some.injEq, forall_eq',
        Condition.holds, hb, reduceCtorEq, if_false, decide_eq_true_eq, Value.blob.injEq]
      constructor
      · intro he
        by_contra hne
        exact absurd (hlt.mpr hne) (by rw [he]; exact lt_irrefl _)
      · intro he
        rw [he]

/-- The values a part's cursor has. -/
def valuesOf (columns : List (ρ → Value)) (row : ρ) : List Value :=
  columns.map fun column => column row

theorem valuesOf_keys (columns : List (ρ → Value)) (row : ρ) :
    (valuesOf columns row).map Value.sortKey = keyOf columns row := by
  rw [valuesOf, List.map_map]
  rfl

theorem ListSort.Fits.rest_some (h : sort.Fits source.kept) (hrow : row ∈ source.kept) :
    Value.null ∉ valuesOf sort.rest row := by
  intro hin
  obtain ⟨column, hc, he⟩ := List.mem_map.mp hin
  exact h.rest row hrow column hc he

/-- A row of the known part has no `NULL` to sort by. -/
theorem ListSort.Fits.known_some (h : sort.Fits source.kept) (hrow : row ∈ source.kept)
    (hpart : sort.part row = .known) : sort.first row ≠ .null := by
  intro he
  cases hu : sort.unknown with
  | never => exact h.never hu row hrow he
  | null =>
    rw [ListSort.part, (partOf_null hu _).mpr he] at hpart
    cases hpart
  | empty =>
    obtain ⟨bytes, hb⟩ := h.empty hu row hrow
    rw [he] at hb
    cases hb

/-- Beyond a row of a part, without `NULL`, are the rows after it. -/
theorem beyond_iff (h : sort.Fits source.kept) (hc : c ∈ source.kept) (hrow : row ∈ source.kept)
    (hcp : sort.part c = part) (hrp : part = .known → sort.first row ≠ .null) :
    rowBeyond order (valuesOf (sort.columnsOf part) row) (valuesOf (sort.columnsOf part) c) =
      some true ↔ sort.Lt order part c row := by
  have hsome : ∀ r ∈ source.kept, (part = .known → sort.first r ≠ .null) →
      Value.null ∉ valuesOf (sort.columnsOf part) r := by
    intro r hr hfirst hin
    cases part with
    | known =>
      obtain he | hin := List.mem_cons.mp hin
      · exact hfirst rfl he.symm
      · exact h.rest_some hr hin
    | unknown => exact h.rest_some hr hin
  have hcfirst : part = .known → sort.first c ≠ .null := by
    intro hk
    exact h.known_some hc (hcp.trans hk)
  rw [rowBeyond_some order (by simp [valuesOf]) (hsome row hrow hrp) (hsome c hc hcfirst),
    valuesOf_keys, valuesOf_keys, Option.some.injEq, decide_eq_true_eq]
  exact Iff.rfl

/-- **A cursor's condition, with the part's or without it where it is implied, picks the rows of the
part after the cursor's.** -/
theorem cursor_holds (h : sort.Fits source.kept) (hc : c ∈ source.kept) (hrow : row ∈ source.kept)
    (hcp : sort.part c = part) (hpart : sort.unknown = .never → part = .known)
    {implied : Bool} (himplied : implied = true → part = .known ∧
      ¬ (sort.unknown = .empty ∧ order = .desc)) :
    ((∀ condition ∈ if implied then none else sort.condition part,
        condition.holds row = some true) ∧
      rowBeyond order (valuesOf (sort.columnsOf part) row) (valuesOf (sort.columnsOf part) c) =
        some true) ↔ sort.part row = part ∧ sort.Lt order part c row := by
  cases implied with
  | false =>
    rw [if_neg (by decide), condition_holds h hrow hpart]
    refine and_congr_right fun hp => beyond_iff h hc hrow hcp ?_
    intro hk
    exact h.known_some hrow (hp.trans hk)
  | true =>
    obtain ⟨rfl, hno⟩ := himplied rfl
    rw [if_pos rfl]
    simp only [Option.mem_def, reduceCtorEq, false_imp_iff, implies_true, true_and]
    by_cases hnull : sort.first row = .null
    · -- a NULL is beyond no value
      have hunknown : sort.part row ≠ .known := fun hk => h.known_some hrow hk hnull
      refine iff_of_false ?_ fun hp => hunknown hp.1
      have hvalues : valuesOf (sort.columnsOf .known) row = .null :: valuesOf sort.rest row := by
        rw [← hnull]
        rfl
      rw [hvalues]
      exact rowBeyond_null _ _ _
    · rw [beyond_iff h hc hrow hcp fun _ => hnull, iff_and_self]
      intro hlt
      by_contra hp
      rw [← part_known, not_not, ListSort.part] at hp
      cases hu : sort.unknown with
      | never =>
        rw [partOf_never hu] at hp
        cases hp
      | null => exact hnull ((partOf_null hu _).mp hp)
      | empty =>
        -- the empty key comes before the cursor's, ascending
        have hasc : order = .asc := by
          cases order with
          | asc => rfl
          | desc => exact absurd ⟨hu, rfl⟩ hno
        obtain ⟨bytes, hb⟩ := h.empty hu c hc
        have hne : bytes ≠ [] := by
          intro he
          rw [he, ← partOf_empty hu] at hb
          rw [ListSort.part, hb] at hcp
          cases hcp
        subst hasc
        have hbefore : sort.Lt .asc .known row c := by
          refine Order.asc.cons_lt.mpr (.inl ?_)
          change (sort.first row).sortKey < (sort.first c).sortKey
          rw [(partOf_empty hu _).mp hp, hb]
          exact empty_lt.2 hne
        exact sort.lt_asymm _ _ hbefore hlt

/-! ### The queries of a page -/

theorem startOf_values (c : ρ) : sort.startOf (some (sort.values c)) = sort.part c := rfl

theorem selects_iff {query : Query ρ} :
    query.selects row = true ↔ ∀ condition ∈ query.conditions, condition.holds row = some true := by
  simp [Query.selects]

/-- The rows a query selects are those of the filter that its other conditions hold of. -/
theorem filter_selects {query : Query ρ} {conditions : List (Condition ρ)} {p : ρ → Bool}
    (hq : query.conditions = .filter source.filter :: conditions)
    (hp : ∀ row ∈ source.kept,
      (∀ condition ∈ conditions, condition.holds row = some true) ↔ p row = true) :
    source.rows.filter query.selects = source.kept.filter p := by
  rw [Source.kept, List.filter_filter]
  apply List.filter_congr
  intro row hrow
  rw [Bool.eq_iff_iff, selects_iff, hq, List.forall_mem_cons, holds_filter, Bool.and_eq_true,
    decide_eq_true_eq, and_comm (a := p row = true)]
  refine and_congr_right fun hf => hp row ?_
  exact List.mem_filter.mpr ⟨hrow, decide_eq_true hf⟩

/-- A query for a part with no cursor in it reads the part from the top. -/
theorem query_top (h : sort.Fits source.kept) (hpart : sort.unknown = .never → part = .known)
    {after : Option (List Value)} (hafter : after.filter (fun _ =>
      decide (sort.startOf after = part)) = none) (limit : Nat) :
    (partQuery source sort order after part limit).run source.rows =
      (listed source sort order part).take limit := by
  refine @run_eq _ source sort order part _ _ rfl rfl (listed_sorted h) ?_
  have hq : (partQuery source sort order after part limit).conditions =
      .filter source.filter :: (sort.condition part).toList := by
    simp [partQuery, hafter]
  rw [filter_selects hq]
  · exact listed_perm
  · intro row hrow
    rw [decide_eq_true_eq, ← condition_holds h hrow hpart]
    simp only [Option.mem_toList, Option.mem_def]

/-- A query for the part its cursor is in reads what is after the cursor. -/
theorem query_after (h : sort.Fits source.kept) (hpart : sort.unknown = .never → part = .known)
    (hc : c ∈ source.kept) (hcp : sort.part c = part) (limit : Nat) :
    (partQuery source sort order (some (sort.values c)) part limit).run source.rows =
      ((listed source sort order part).filter fun row => decide (sort.Lt order part c row)).take
        limit := by
  refine @run_eq _ source sort order part _ _ rfl rfl ((listed_sorted h).filter _) ?_
  have hcursor : Option.filter (fun _ => decide (sort.startOf (some (sort.values c)) = part))
      (some (sort.values c)) = some (sort.values c) := by
    rw [startOf_values, hcp]
    simp
  have hvalues : (if part = .unknown then (sort.values c).tail else sort.values c) =
      valuesOf (sort.columnsOf part) c := by
    cases part <;> rfl
  obtain ⟨implied, himplied, hq⟩ : ∃ implied : Bool,
      (implied = true → part = .known ∧ ¬ (sort.unknown = .empty ∧ order = .desc)) ∧
      (partQuery source sort order (some (sort.values c)) part limit).conditions =
        .filter source.filter :: ((if implied then none else sort.condition part).toList ++
          [.beyond (sort.columnsOf part) order (valuesOf (sort.columnsOf part) c)]) := by
    refine ⟨decide (part = .known) && !(decide (sort.unknown = .empty) && decide (order = .desc)),
      by grind, ?_⟩
    simp only [partQuery, hcursor, Option.isSome_some, Bool.true_and, Option.map_some, hvalues,
      Option.toList_some]
  rw [filter_selects hq]
  · exact (listed_perm.filter _).trans (List.Perm.of_eq (List.filter_filter ..))
  · intro row hrow
    rw [List.forall_mem_append, List.forall_mem_singleton, holds_beyond, Bool.and_eq_true,
      decide_eq_true_eq, decide_eq_true_eq, and_comm (a := sort.Lt order part c row),
      ← cursor_holds h hc hrow hcp hpart himplied]
    simp only [Option.mem_toList, Option.mem_def]
    exact Iff.rfl

end JewelCase.Page
