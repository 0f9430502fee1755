import JewelCase.Page.Parts

/-!
# The pages are the list, cut

A list is its known part and then its unknown part, each in order. The page after a row is what is
left of the list after it, so following the pages reads the whole list, each row once.
-/
namespace JewelCase.Page

set_option autoImplicit false

open Library.Pages

variable {ρ τ : Type} {source : Source ρ} {sort : ListSort ρ} {order : Order} {c : ρ}

/-! ### The whole list -/

/-- Whether a row comes before another in a list: rows of unknown first column after all others,
and in each part by its columns. -/
def ListSort.Before (sort : ListSort ρ) (order : Order) (a b : ρ) : Prop :=
  match sort.part a, sort.part b with
  | .known, .unknown => True
  | .unknown, .known => False
  | .known, .known => order.Lt (keyOf sort.columns a) (keyOf sort.columns b)
  | .unknown, .unknown => order.Lt (keyOf sort.rest a) (keyOf sort.rest b)

instance (sort : ListSort ρ) (order : Order) : DecidableRel (sort.Before order) := fun a b => by
  unfold ListSort.Before
  split <;> infer_instance

/-- The whole list, in order. -/
def whole (source : Source ρ) (sort : ListSort ρ) (order : Order) : List ρ :=
  (parts sort none).flatMap (listed source sort order)

theorem ListSort.before_asymm (a b : ρ) (h : sort.Before order a b) : ¬ sort.Before order b a := by
  unfold ListSort.Before at *
  cases ha : sort.part a <;> cases hb : sort.part b <;> simp only [ha, hb] at h ⊢
  · exact order.lt_asymm h
  · exact not_false
  · exact order.lt_asymm h

theorem before_same {part : Part} {a b : ρ} (ha : sort.part a = part) (hb : sort.part b = part) :
    sort.Before order a b ↔ sort.Lt order part a b := by
  unfold ListSort.Before ListSort.Lt
  rw [ha, hb]
  cases part <;> exact Iff.rfl

theorem before_cross {a b : ρ} (ha : sort.part a = .known) (hb : sort.part b = .unknown) :
    sort.Before order a b := by
  unfold ListSort.Before
  rw [ha, hb]
  trivial

theorem listed_never (h : sort.unknown = .never) : listed source sort order .unknown = [] := by
  rw [List.eq_nil_iff_forall_not_mem]
  intro row hrow
  have hp := (mem_listed.1 hrow).2
  rw [ListSort.part, partOf_never h] at hp
  cases hp

theorem whole_eq (source : Source ρ) (sort : ListSort ρ) (order : Order) :
    whole source sort order =
      listed source sort order .known ++ listed source sort order .unknown := by
  cases hu : sort.unknown with
  | never => simp [whole, parts, hu, listed_never hu]
  | null => simp [whole, parts, hu, ListSort.startOf]
  | empty => simp [whole, parts, hu, ListSort.startOf]

theorem whole_perm : (whole source sort order).Perm source.kept := by
  rw [whole_eq]
  have h := List.filter_append_perm (fun row => decide (sort.part row = .known)) source.kept
  refine ((listed_perm.append listed_perm).trans (List.Perm.of_eq ?_)).trans h
  congr 1
  apply List.filter_congr
  intro row _
  cases sort.part row <;> rfl

theorem whole_sorted (h : sort.Fits source.kept) :
    (whole source sort order).Pairwise (sort.Before order) := by
  rw [whole_eq, List.pairwise_append]
  have hpart : ∀ part, (listed source sort order part).Pairwise (sort.Before order) := by
    intro part
    refine (listed_sorted h).imp_of_mem ?_
    intro a b ha hb hlt
    exact (before_same (mem_listed.1 ha).2 (mem_listed.1 hb).2).mpr hlt
  refine ⟨hpart .known, hpart .unknown, ?_⟩
  intro a ha b hb
  exact before_cross (mem_listed.1 ha).2 (mem_listed.1 hb).2

/-! ### A page -/

/-- Where each part's query gives the first of some rows, a page's queries give the first of all of
them. -/
theorem readParts_eq {request : Request ρ} {ps : List Part} {rowsOf : Part → List ρ}
    (hq : ∀ part ∈ ps, ∀ limit,
      (partQuery source request.sort request.order request.after part limit).run source.rows =
        (rowsOf part).take limit) (left : Nat) :
    readParts source request left ps =
      ((ps.flatMap rowsOf).take left, left - (ps.flatMap rowsOf).length) := by
  induction ps generalizing left with
  | nil => simp [readParts]
  | cons part ps ih =>
    have hrest := ih fun part' hp => hq part' (List.mem_cons_of_mem _ hp)
    rw [readParts]
    by_cases hl : left = 0
    · simp [hl]
    · have hsub : left - ((rowsOf part).take left).length = left - (rowsOf part).length := by
        rw [List.length_take]
        omega
      rw [if_neg hl, hq part List.mem_cons_self]
      simp only [hsub, hrest, List.flatMap_cons, List.take_append, List.length_append, Nat.sub_sub]

/-- What is left of the list after a page's start. -/
def Left (source : Source ρ) (sort : ListSort ρ) (order : Order) (after : Option (List Value))
    (left : List ρ) : Prop :=
  ∃ before, whole source sort order = before ++ left ∧ after = before.getLast?.map sort.values

/-- From a row of the known part the whole list is left to read, and from one of the unknown part
that part. -/
theorem parts_after (c : ρ) :
    sort.part c = .known ∧ parts sort (some (sort.values c)) = parts sort none ∨
      sort.part c = .unknown ∧ parts sort (some (sort.values c)) = [.unknown] := by
  cases hp : sort.part c with
  | known =>
    refine .inl ⟨rfl, ?_⟩
    unfold parts
    rw [startOf_values, hp]
    rfl
  | unknown =>
    refine .inr ⟨rfl, ?_⟩
    cases hu : sort.unknown with
    | never =>
      rw [ListSort.part, partOf_never hu] at hp
      cases hp
    | null => simp [parts, startOf_values, hp, hu]
    | empty => simp [parts, startOf_values, hp, hu]

/-- The rows left of a part, after a row of the list. -/
theorem query_left (h : sort.Fits source.kept) (hc : c ∈ source.kept) {part : Part}
    (hpart : part ∈ parts sort (some (sort.values c))) (limit : Nat) :
    (partQuery source sort order (some (sort.values c)) part limit).run source.rows =
      ((listed source sort order part).filter fun r => decide (sort.Before order c r)).take
        limit := by
  have hnever : sort.unknown = .never → part = .known := by
    intro hu
    simpa [parts, hu] using hpart
  by_cases hp : sort.part c = part
  · rw [query_after h hnever hc hp]
    congr 1
    apply List.filter_congr
    intro r hr
    rw [decide_eq_decide]
    exact (before_same hp (mem_listed.1 hr).2).symm
  · -- the cursor is in the known part, and this is the other
    have htop : Option.filter (fun _ => decide (sort.startOf (some (sort.values c)) = part))
        (some (sort.values c)) = none := by
      rw [startOf_values]
      simp [hp]
    rw [query_top h hnever htop]
    congr 1
    symm
    rw [List.filter_eq_self]
    intro r hr
    refine decide_eq_true ?_
    obtain ⟨hk, -⟩ | ⟨hu, hparts⟩ := @parts_after _ sort c
    · refine before_cross hk ?_
      rw [(mem_listed.1 hr).2]
      cases part with
      | known => exact absurd hk hp
      | unknown => rfl
    · rw [hparts, List.mem_singleton] at hpart
      exact absurd (hu.trans hpart.symm) hp

/-- **The queries of a page read what is left of the list.** -/
theorem queries_left (h : sort.Fits source.kept) {after : Option (List Value)} {left : List ρ}
    (hleft : Left source sort order after left) :
    ∃ rowsOf : Part → List ρ, (parts sort after).flatMap rowsOf = left ∧
      ∀ part ∈ parts sort after, ∀ limit,
        (partQuery source sort order after part limit).run source.rows =
          (rowsOf part).take limit := by
  obtain ⟨before, hwhole, rfl⟩ := hleft
  cases hlast : before.getLast? with
  | none =>
    rw [List.getLast?_eq_none_iff] at hlast
    subst hlast
    refine ⟨listed source sort order, hwhole, ?_⟩
    intro part hp limit
    refine query_top h ?_ rfl limit
    intro hu
    simpa [parts, hu] using hp
  | some c =>
    have hc : c ∈ source.kept := by
      rw [← (@whole_perm _ source sort order).mem_iff, hwhole]
      exact List.mem_append_left _ (List.mem_of_getLast? hlast)
    have hafter : left = (whole source sort order).filter fun r =>
        decide (sort.Before order c r) := by
      have hsorted := @whole_sorted _ source sort order h
      rw [hwhole] at hsorted ⊢
      exact (filter_after sort.before_asymm hlast hsorted).symm
    refine ⟨fun part => (listed source sort order part).filter fun r =>
      decide (sort.Before order c r), ?_, fun part hp limit => query_left h hc hp limit⟩
    rw [Option.map_some, hafter]
    obtain ⟨-, hparts⟩ | ⟨hu, hparts⟩ := @parts_after _ sort c
    · rw [hparts, whole, List.filter_flatMap]
    · have hnone : ((listed source sort order .known).filter fun r =>
          decide (sort.Before order c r)) = [] := by
        rw [List.filter_eq_nil_iff]
        intro r hr hlt
        rw [decide_eq_true_eq] at hlt
        exact sort.before_asymm _ _ hlt (before_cross (mem_listed.1 hr).2 hu)
      rw [hparts, whole_eq, List.filter_append, hnone, List.nil_append, List.flatMap_singleton]

/-- A page is the first of what is left, with a cursor at its last row unless nothing is left after
it. -/
theorem fetch_eq (h : sort.Fits source.kept) {after : Option (List Value)} {left : List ρ}
    (hleft : Left source sort order after left) (limit : Nat) (map : ρ → τ) :
    fetch source ⟨sort, order, after, limit⟩ map =
      if left.length ≤ limit then (left.map map, none)
      else ((left.take limit).map map, (left.take limit).getLast?.map fun row =>
        ⟨sort.name order, sort.values row⟩) := by
  obtain ⟨rowsOf, hflat, hq⟩ := queries_left h hleft
  rw [fetch, @readParts_eq _ source ⟨sort, order, after, limit⟩ _ rowsOf hq]
  simp only [hflat]
  by_cases hle : left.length ≤ limit
  · rw [if_neg (by omega), if_pos hle, List.take_of_length_le (by omega)]
  · have hlast : (left.take (limit + 1)).dropLast = left.take limit := by
      rw [List.dropLast_eq_take, List.take_take, List.length_take]
      congr 1
      omega
    rw [if_pos (by omega), if_neg hle, hlast]

/-! ### The pages -/

/-- The list read at once is the first rows of each part, up to the greatest `u32`. -/
theorem ids_eq (h : sort.Fits source.kept) :
    ids source sort order = ((parts sort none).flatMap fun part =>
      (listed source sort order part).take 4294967295).map source.idOf := by
  rw [ids, List.map_flatMap]
  apply List.flatMap_congr
  intro part hp
  rw [query_top h ?_ rfl]
  intro hu
  simpa [parts, hu] using hp

/-- The list read at once is the whole list when neither part is longer than its limit. -/
theorem ids_whole (h : sort.Fits source.kept) :
    ids source sort order = (whole source sort order).map source.idOf ↔
      ∀ part, (source.kept.filter fun row => decide (sort.part row = part)).length ≤
        4294967295 := by
  have hlen : ∀ part, (listed source sort order part).length =
      (source.kept.filter fun row => decide (sort.part row = part)).length :=
    fun part => listed_perm.length_eq
  have htake : (parts sort none).flatMap (fun part =>
      (listed source sort order part).take 4294967295) =
        (listed source sort order .known).take 4294967295 ++
          (listed source sort order .unknown).take 4294967295 := by
    cases hu : sort.unknown with
    | never => simp [parts, hu, listed_never hu]
    | null => simp [parts, hu, ListSort.startOf]
    | empty => simp [parts, hu, ListSort.startOf]
  rw [ids_eq h, htake, whole_eq]
  constructor
  · intro he part
    have hl := congrArg List.length he
    simp only [List.length_map, List.length_append, List.length_take, hlen] at hl
    cases part <;> omega
  · intro hle
    have hk := hle .known
    have hu := hle .unknown
    rw [← hlen] at hk hu
    rw [List.take_of_length_le hk, List.take_of_length_le hu]

/-- A cursor that a page gave is read back. -/
theorem after_cursor (row : ρ) :
    sort.after (some ⟨sort.name order, sort.values row⟩) order = .ok (some (sort.values row)) := by
  simp [ListSort.after, Cursor.decode, ListSort.values, Except.map]

/-- The cursor at a row. -/
def ListSort.cursor (sort : ListSort ρ) (order : Order) (row : ρ) : Cursor :=
  ⟨sort.name order, sort.values row⟩

/-- The items left to read from a cursor on. -/
def ItemsLeft (source : Source ρ) (sort : ListSort ρ) (order : Order) (map : ρ → τ)
    (cursor : Option Cursor) (items : List τ) : Prop :=
  ∃ before left, whole source sort order = before ++ left ∧ items = left.map map ∧
    cursor = before.getLast?.map (sort.cursor order)

theorem page_eq (h : sort.Fits source.kept) {before left : List ρ}
    (hw : whole source sort order = before ++ left) (limit : Nat) (map : ρ → τ) :
    page source sort order limit map (before.getLast?.map (sort.cursor order)) =
      .ok (if left.length ≤ limit then (left.map map, none)
        else ((left.take limit).map map, (left.take limit).getLast?.map (sort.cursor order))) := by
  have hafter : sort.after (before.getLast?.map (sort.cursor order)) order =
      .ok (before.getLast?.map sort.values) := by
    cases before.getLast? with
    | none => rfl
    | some row => exact after_cursor row
  rw [page, hafter]
  exact congrArg Except.ok (fetch_eq h ⟨before, hw, rfl⟩ limit map)

/-- **Following the pages reads the whole list.** -/
theorem pages_whole (h : sort.Fits source.kept) {limit : Nat} (hl : 1 ≤ limit) (map : ρ → τ) :
    ∃ pages, Followed (page source sort order limit map) none pages ∧
      Cut limit ((whole source sort order).map map) pages := by
  have hstart : ItemsLeft source sort order map none ((whole source sort order).map map) :=
    ⟨[], _, rfl, rfl, rfl⟩
  refine followed_cut hl ?_ ?_ hstart
  · intro cursor items hitems hle
    obtain ⟨before, left, hw, rfl, rfl⟩ := hitems
    rw [List.length_map] at hle
    rw [page_eq h hw, if_pos hle]
  · intro cursor items hitems hlt
    obtain ⟨before, left, hw, rfl, rfl⟩ := hitems
    rw [List.length_map] at hlt
    have hne : left.take limit ≠ [] := by
      rw [ne_eq, ← List.length_eq_zero_iff, List.length_take]
      omega
    obtain ⟨row, hrow⟩ := Option.ne_none_iff_exists'.mp (mt List.getLast?_eq_none_iff.mp hne)
    refine ⟨sort.cursor order row, ?_, before ++ left.take limit, left.drop limit, ?_, ?_, ?_⟩
    · rw [page_eq h hw, if_neg (by omega), hrow, List.map_take]
      rfl
    · rw [List.append_assoc, List.take_append_drop, hw]
    · rw [List.map_drop]
    · rw [List.getLast?_append, hrow]
      rfl

/-- The pages are the list read at once exactly when that reads all of it. -/
theorem pages_ids (h : sort.Fits source.kept) {limit : Nat} (hl : 1 ≤ limit) :
    (∃ pages, Followed (page source sort order limit source.idOf) none pages ∧
      Cut limit (ids source sort order) pages) ↔
      ∀ part, (source.kept.filter fun row => decide (sort.part row = part)).length ≤
        4294967295 := by
  rw [← @ids_whole _ source sort order h]
  obtain ⟨pages, hf, hc⟩ := @pages_whole _ _ source sort order h limit hl source.idOf
  constructor
  · rintro ⟨pages', hf', hc'⟩
    rw [← hc'.flatten, hf'.unique hf, hc.flatten]
  · intro he
    rw [he]
    exact ⟨pages, hf, hc⟩

/-- **Keyset paging is the sorted list cut into pages.** Following the cursors from the first page
reads, of the rows that pass the filter, those of known first column and then the others, each in
the sort's order, each row once, in full pages and a last one. It is the list read at once exactly
when neither part has more rows than that reads of one. -/
theorem pages_cut (source : Source ρ) (sort : ListSort ρ) (order : Order) (limit : Nat)
    (hl : 1 ≤ limit) (h : sort.Fits source.kept) :
    (∀ (τ : Type) (map : ρ → τ), ∃ (list : List ρ) (pages : List (List τ)), list.Perm source.kept ∧
      list.Pairwise (sort.Before order) ∧
      Followed (page source sort order limit map) none pages ∧ Cut limit (list.map map) pages) ∧
    ((∃ pages, Followed (page source sort order limit source.idOf) none pages ∧
        Cut limit (ids source sort order) pages) ↔
      ∀ part, (source.kept.filter fun row => decide (sort.part row = part)).length ≤
        4294967295) := by
  refine ⟨?_, pages_ids h hl⟩
  intro τ map
  obtain ⟨pages, hf, hc⟩ := @pages_whole _ _ source sort order h limit hl map
  exact ⟨whole source sort order, pages, whole_perm, whole_sorted h, hf, hc⟩

/-- Three albums, one without a date, the latest first, two to a page. -/
theorem pages_cut_of_three :
    let source : Source (Value × Int) :=
      ⟨[(.null, 1), (.text "1969", 2), (.text "1971", 3)], fun _ => some true, Prod.snd⟩
    let sort : ListSort (Value × Int) :=
      ⟨"albums.releaseDate", Prod.fst, [fun row => .integer row.2], .null⟩
    ids source sort .desc = [3, 2, 1] ∧
      ∃ pages, Followed (page source sort .desc 2 source.idOf) none pages ∧
        Cut 2 (ids source sort .desc) pages := by
  intro source sort
  have hfit : sort.Fits source.kept :=
    ⟨by decide, by decide, by decide, by intro h; cases h⟩
  refine ⟨by decide, (pages_cut source sort .desc 2 (by decide) hfit).2.mpr ?_⟩
  intro part
  refine (List.length_filter_le _ _).trans ?_
  decide

/-- The tracks `0` to `n`, all added at once. -/
def addedAtOnce (n : Nat) : Source Nat := ⟨List.range n, fun _ => some true, fun track => track⟩

def byDateAdded : ListSort Nat :=
  ⟨"tracks.dateAdded", fun _ => .integer 0, [fun track => .integer track], .never⟩

theorem addedAtOnce_kept (n : Nat) : (addedAtOnce n).kept = List.range n := by
  simp [addedAtOnce, Source.kept]

theorem addedAtOnce_fits (n : Nat) : byDateAdded.Fits (addedAtOnce n).kept := by
  rw [addedAtOnce_kept]
  refine ⟨?_, by simp [byDateAdded], by simp [byDateAdded], by simp [byDateAdded]⟩
  refine List.nodup_range.imp ?_
  intro a b hne
  simpa [byDateAdded, ListSort.last, Value.sortKey] using hne

/-- A track more than the greatest `u32`, and the list read at once lacks it. -/
theorem ids_lack_one :
    ¬ ∃ pages, Followed (page (addedAtOnce 4294967296) byDateAdded .asc 100
        (addedAtOnce 4294967296).idOf) none pages ∧
      Cut 100 (ids (addedAtOnce 4294967296) byDateAdded .asc) pages := by
  rw [pages_ids (addedAtOnce_fits _) (by decide)]
  intro h
  have hall : ((addedAtOnce 4294967296).kept.filter fun row =>
      decide (byDateAdded.part row = .known)).length = 4294967296 := by
    have hself : (List.range 4294967296).filter (fun row =>
        decide (byDateAdded.part row = .known)) = List.range 4294967296 := by
      rw [List.filter_eq_self]
      intro row _
      rfl
    rw [addedAtOnce_kept, hself, List.length_range]
  have hk := h .known
  rw [hall] at hk
  omega

end JewelCase.Page
