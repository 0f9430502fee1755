import JewelCase.Filters.Groups
import JewelCase.Page.Parts

/-!
# Every plan reads the same rows

Whichever group leads, and whether one does, a row is read when it matches every group: the lead
reads the rows that match it and the checks hold of those that match the others. So a list's rows
depend only on what the library holds and the filter names.
-/
namespace JewelCase.Filters

set_option autoImplicit false

open Library

variable {ρ : Type} {contents : Contents ρ} {library : Int} {filter : TagFilter} {owner : Int}

/-! ### What a filter asks -/

/-- The tags a filter names are all the library's. -/
def Known (contents : Contents ρ) (library : Int) (filter : TagFilter) : Prop :=
  ∀ named ∈ filter.all ++ filter.any,
    ∃ tag ∈ contents.tags, tag.library = library ∧ named = some tag.id

/-- The row `owner` carries every tag of `tagAll`, and of each type that `tagAny` names one of its
tags. -/
structure Tagged (contents : Contents ρ) (filter : TagFilter) (owner : Int) : Prop where
  all : ∀ id, some id ∈ filter.all → Carries contents.links owner id
  any : ∀ tag ∈ contents.tags, some tag.id ∈ filter.any →
    ∃ other ∈ contents.tags, other.type = tag.type ∧ some other.id ∈ filter.any ∧
      Carries contents.links owner other.id

/-- The groups that a filter is read into. -/
structure Grouping (contents : Contents ρ) (library : Int) (filter : TagFilter)
    (groups : List Group) : Prop where
  nonempty : groups ≠ []
  ids : ∀ group ∈ groups, group.ids ≠ []
  tags : ∀ group ∈ groups, ∀ id ∈ group.ids, ∃ tag ∈ contents.tags, tag.library = library ∧ tag.id = id
  rows : ∀ owner, (∀ group ∈ groups, group.Matches contents.links owner) ↔
    Tagged contents filter owner
  one : ∀ group ∈ groups, ∀ id, group.ids = [id] →
    ∃ tag ∈ contents.tags, tag.library = library ∧ tag.id = id ∧ group.size = tag.count

theorem read_unfiltered (h : filter.isEmpty = true) :
    Tags.read contents library filter = .unfiltered := by
  rw [Tags.read, if_pos h]

theorem collect_mem {α : Type} {options : List (Option α)} {values : List α}
    (h : collect options = some values) {option : Option α} (hm : option ∈ options) :
    ∃ value ∈ values, option = some value := by
  induction options generalizing values with
  | nil => cases hm
  | cons first options ih =>
    cases first with
    | none => cases h
    | some first =>
      rw [collect, Option.map_eq_some_iff] at h
      obtain ⟨rest, hrest, rfl⟩ := h
      obtain rfl | hm := List.mem_cons.mp hm
      · exact ⟨first, List.mem_cons_self, rfl⟩
      · obtain ⟨value, hv, he⟩ := ih hrest hm
        exact ⟨value, List.mem_cons_of_mem _ hv, he⟩

section Read

variable {all any : List Int} (hall : collect filter.all = some all)
  (hany : collect filter.any = some any)

include hall hany

theorem mem_named (id : Int) :
    id ∈ sortDedup (sortDedup all ++ sortDedup any) ↔ some id ∈ filter.all ++ filter.any := by
  rw [mem_sortDedup, List.mem_append, List.mem_append, mem_sortDedup, mem_sortDedup,
    collect_some hall, collect_some hany]

theorem known_iff :
    Known contents library filter ↔
      ∀ id ∈ sortDedup (sortDedup all ++ sortDedup any),
        ∃ tag ∈ contents.tags, tag.library = library ∧ tag.id = id := by
  constructor
  · intro h id hid
    obtain ⟨tag, htag, hlib, he⟩ := h _ ((mem_named hall hany id).mp hid)
    exact ⟨tag, htag, hlib, (Option.some.inj he).symm⟩
  · intro h named hnamed
    have hsome : ∃ id, named = some id := by
      obtain hn | hn := List.mem_append.mp hnamed
      · obtain ⟨id, -, he⟩ := collect_mem hall hn
        exact ⟨id, he⟩
      · obtain ⟨id, -, he⟩ := collect_mem hany hn
        exact ⟨id, he⟩
    obtain ⟨id, rfl⟩ := hsome
    obtain ⟨tag, htag, hlib, rfl⟩ := h id ((mem_named hall hany id).mpr hnamed)
    exact ⟨tag, htag, hlib, rfl⟩

/-- The groups of a filter whose tags are all the library's. -/
theorem grouping (hempty : filter.isEmpty = false) (hknown : Known contents library filter) :
    Grouping contents library filter
      (((sortDedup all).map (fun id => (id, TagMatch.all)) ++
        (sortDedup any).map fun id => (id, TagMatch.any)).foldl
          (addTag (contents.tags.filter fun tag => decide (tag.library = library ∧
            tag.id ∈ sortDedup (sortDedup all ++ sortDedup any)))) OrderedMap.empty).values := by
  have hfound : ∀ tag, tag ∈ (contents.tags.filter fun tag => decide (tag.library = library ∧
      tag.id ∈ sortDedup (sortDedup all ++ sortDedup any))) ↔
        tag ∈ contents.tags ∧ tag.library = library ∧ some tag.id ∈ filter.all ++ filter.any := by
    intro tag
    rw [List.mem_filter, decide_eq_true_eq, mem_named hall hany]
  have hunique : ((contents.tags.filter fun tag => decide (tag.library = library ∧
      tag.id ∈ sortDedup (sortDedup all ++ sortDedup any))).map TagRow.id).Nodup :=
    contents.tags_unique.sublist (List.filter_sublist.map _)
  generalize (contents.tags.filter fun tag => decide (tag.library = library ∧
      tag.id ∈ sortDedup (sortDedup all ++ sortDedup any))) = found at *
  have hin : ∀ id, some id ∈ filter.all ++ filter.any → ∃ tag ∈ found, tag.id = id := by
    intro id hid
    obtain ⟨tag, htag, hlib, he⟩ := hknown _ hid
    obtain rfl := Option.some.inj he
    exact ⟨tag, (hfound tag).mpr ⟨htag, hlib, hid⟩, rfl⟩
  have hback : ∀ tag ∈ contents.tags, some tag.id ∈ filter.all ++ filter.any → tag ∈ found := by
    intro tag htag hid
    obtain ⟨other, ho, he⟩ := hin _ hid
    obtain rfl := List.inj_on_of_nodup_map contents.tags_unique ((hfound other).mp ho).1 htag he
    exact ho
  have hleft : ∀ id, id ∈ sortDedup all ↔ some id ∈ filter.all :=
    fun id => mem_sortDedup.trans (collect_some hall id)
  have hright : ∀ id, id ∈ sortDedup any ↔ some id ∈ filter.any :=
    fun id => mem_sortDedup.trans (collect_some hany id)
  have hdone : ∀ named, named ∈ (sortDedup all).map (fun id => (id, TagMatch.all)) ++
      (sortDedup any).map (fun id => (id, TagMatch.any)) →
        some named.1 ∈ filter.all ++ filter.any := by
    intro named hnamed
    obtain hn | hn := List.mem_append.mp hnamed
    · obtain ⟨id, hid, rfl⟩ := List.mem_map.mp hn
      exact List.mem_append_left _ ((hleft id).mp hid)
    · obtain ⟨id, hid, rfl⟩ := List.mem_map.mp hn
      exact List.mem_append_right _ ((hright id).mp hid)
  have hgrouped := grouped_foldl hunique (@grouped_empty found)
    fun named hnamed => hin named.1 (hdone named hnamed)
  rw [List.nil_append] at hgrouped
  have hmatches := fun owner => @grouped_matches contents.links owner found _ _ _ hgrouped
    fun id hid => hin id (List.mem_append_left _ ((hleft id).mp hid))
  generalize hgs : (((sortDedup all).map (fun id => (id, TagMatch.all)) ++
    (sortDedup any).map fun id => (id, TagMatch.any)).foldl (addTag found)
      (OrderedMap.empty : OrderedMap GroupKey Group)) = groups at *
  constructor
  · have hne : filter.all ++ filter.any ≠ [] := by
      intro hnil
      rw [List.append_eq_nil_iff] at hnil
      rw [TagFilter.isEmpty, hnil.1, hnil.2] at hempty
      cases hempty
    obtain ⟨named, hnamed⟩ := List.exists_mem_of_ne_nil _ hne
    obtain ⟨tag, htag, hlib, rfl⟩ := hknown named hnamed
    have hf := (hfound tag).mpr ⟨htag, hlib, hnamed⟩
    have hlist : ∃ tagMatch, (tag.id, tagMatch) ∈ (sortDedup all).map (fun id => (id, TagMatch.all)) ++
        (sortDedup any).map (fun id => (id, TagMatch.any)) := by
      obtain hn | hn := List.mem_append.mp hnamed
      · exact ⟨.all, List.mem_append_left _ (List.mem_map_of_mem ((hleft _).mpr hn))⟩
      · exact ⟨.any, List.mem_append_right _ (List.mem_map_of_mem ((hright _).mpr hn))⟩
    obtain ⟨tagMatch, hin'⟩ := hlist
    obtain ⟨group, hget⟩ := hgrouped.every _ hin' tag hf rfl
    exact List.ne_nil_of_mem (OrderedMap.mem_values.mpr ⟨_, hget⟩)
  · intro group hgroup
    obtain ⟨key, hget⟩ := OrderedMap.mem_values.mp hgroup
    exact (hgrouped.group key group hget).1
  · intro group hgroup id hid
    obtain ⟨key, hget⟩ := OrderedMap.mem_values.mp hgroup
    obtain ⟨-, tag, htag, he, -⟩ := ((hgrouped.group key group hget).2.2.1 id).mp hid
    exact ⟨tag, ((hfound tag).mp htag).1, ((hfound tag).mp htag).2.1, he⟩
  · intro owner
    rw [hmatches owner]
    constructor
    · intro h
      refine ⟨fun id hid => h.1 id ((hleft id).mpr hid), ?_⟩
      intro tag htag hid
      obtain ⟨other, ho, htype, hoany, hc⟩ :=
        h.2 tag (hback tag htag (List.mem_append_right _ hid)) ((hright _).mpr hid)
      exact ⟨other, ((hfound other).mp ho).1, htype, (hright _).mp hoany, hc⟩
    · intro h
      refine ⟨fun id hid => h.all id ((hleft id).mp hid), ?_⟩
      intro tag htag hid
      obtain ⟨other, ho, htype, hoany, hc⟩ :=
        h.any tag ((hfound tag).mp htag).1 ((hright _).mp hid)
      exact ⟨other, hback other ho (List.mem_append_right _ hoany), htype, (hright _).mpr hoany, hc⟩
  · intro group hgroup id hone
    obtain ⟨key, hget⟩ := OrderedMap.mem_values.mp hgroup
    obtain ⟨tag, htag, he, hsize⟩ := (hgrouped.group key group hget).2.2.2 id hone
    exact ⟨tag, ((hfound tag).mp htag).1, ((hfound tag).mp htag).2.1, he, hsize⟩

end Read

theorem read_filtered (h : filter.isEmpty = false) :
    Known contents library filter ∧ (∃ groups, Tags.read contents library filter = .groups groups ∧
        Grouping contents library filter groups) ∨
      ¬ Known contents library filter ∧ Tags.read contents library filter = .nothing := by
  rw [Tags.read, h, if_neg Bool.false_ne_true]
  cases hall : collect filter.all with
  | none =>
    refine .inr ⟨?_, rfl⟩
    intro hknown
    obtain ⟨tag, -, -, he⟩ := hknown none (List.mem_append_left _ (collect_none hall))
    cases he
  | some all =>
    cases hany : collect filter.any with
    | none =>
      refine .inr ⟨?_, rfl⟩
      intro hknown
      obtain ⟨tag, -, -, he⟩ := hknown none (List.mem_append_right _ (collect_none hany))
      cases he
    | some any =>
      have hlen := @found_length _ contents library (sortDedup (sortDedup all ++ sortDedup any))
        (List.nodup_dedup _)
      rw [← known_iff hall hany] at hlen
      simp only [Option.map_some]
      by_cases hk : Known contents library filter
      · rw [if_neg (not_not.mpr (hlen.mpr hk))]
        exact .inl ⟨hk, _, rfl, grouping hall hany h hk⟩
      · rw [if_pos (mt hlen.mp hk)]
        exact .inr ⟨hk, rfl⟩

/-! ### A list without one group -/

theorem swapRemove_cons {α : Type} (a b : α) (rest : List α) (i : Nat) :
    swapRemove (a :: b :: rest) (i + 1) = a :: swapRemove (b :: rest) i := by
  unfold swapRemove
  rw [List.getLast?_cons_cons]
  cases hl : (b :: rest).getLast? with
  | none => simp at hl
  | some last =>
    simp only [List.set_cons_succ]
    rw [List.dropLast_cons_of_ne_nil]
    simp

/-- Removing one item leaves the others. -/
theorem swapRemove_perm {α : Type} {items : List α} {i : Nat} {item : α}
    (h : items[i]? = some item) : (item :: swapRemove items i).Perm items := by
  induction items generalizing i with
  | nil => simp at h
  | cons a rest ih =>
    cases rest with
    | nil =>
      cases i with
      | zero =>
        obtain rfl := Option.some.inj h
        exact List.Perm.refl _
      | succ i => simp at h
    | cons b rest =>
      cases i with
      | zero =>
        obtain rfl := Option.some.inj h
        obtain ⟨start, last, he⟩ := List.eq_nil_or_concat (b :: rest) |>.resolve_left (by simp)
        rw [he, List.concat_eq_append]
        have hlast : (a :: (start ++ [last])).getLast? = some last := by
          rw [← List.cons_append, List.getLast?_concat]
        have hswap : swapRemove (a :: (start ++ [last])) 0 = last :: start := by
          unfold swapRemove
          rw [hlast]
          change (last :: (start ++ [last])).dropLast = last :: start
          rw [← List.cons_append, List.dropLast_concat]
        rw [hswap]
        exact (List.perm_append_singleton last start).symm.cons a
      | succ i =>
        rw [swapRemove_cons]
        exact (List.Perm.swap a item _).trans ((ih h).cons a)

theorem smaller_mem (group : Group × Nat) (best : Option (Group × Nat)) :
    smaller group best = group ∨ some (smaller group best) = best := by
  cases best with
  | none => exact .inl rfl
  | some best =>
    rw [smaller]
    split_ifs
    · exact .inr rfl
    · exact .inl rfl

theorem foldr_smaller_mem {groups : List (Group × Nat)} {group : Group × Nat}
    (h : groups.foldr (fun group best => some (smaller group best)) none = some group) :
    group ∈ groups := by
  induction groups with
  | nil => cases h
  | cons first groups ih =>
    rw [List.foldr_cons, Option.some.injEq] at h
    obtain hs | hs := smaller_mem first
      (groups.foldr (fun group best => some (smaller group best)) none)
    · rw [← h, hs]
      exact List.mem_cons_self
    · rw [h] at hs
      exact List.mem_cons_of_mem _ (ih hs.symm)

theorem smallest_some {groups : List Group} (h : groups ≠ []) :
    ∃ group i, smallest groups = some (group, i) ∧ groups[i]? = some group := by
  cases hs : smallest groups with
  | none =>
    cases groups with
    | nil => exact absurd rfl h
    | cons group groups =>
      rw [smallest, List.zipIdx_cons, List.foldr_cons] at hs
      cases hs
  | some pair =>
    obtain ⟨group, i⟩ := pair
    refine ⟨group, i, rfl, ?_⟩
    exact List.mk_mem_zipIdx_iff_getElem?.mp (foldr_smaller_mem hs)

/-! ### The rows of a list -/

/-- The rows a list is of, and whether each carries what the filter names. -/
structure Listed (contents : Contents ρ) (library : Int) (lead : Option Lead)
    (check : Option (ρ → Option Bool)) (filter : TagFilter) (row : ρ) : Prop where
  mem : row ∈ contents.rows
  inLibrary : contents.library row = library
  lead : ∀ rows ∈ lead, contents.id row ∈ rows.ids.run contents.links
  check : ∀ holds ∈ check, holds row = some true
  known : Known contents library filter
  tagged : Tagged contents filter (contents.id row)

/-- A lead that reads rows once, and counts those of the library. -/
structure Lead.Exact (contents : Contents ρ) (library : Int) (lead : Lead) : Prop where
  once : (lead.ids.run contents.links).Nodup
  size : lead.size = (contents.rows.filter fun row =>
    decide (contents.library row = library ∧ contents.id row ∈ lead.ids.run contents.links)).length

section Table

variable {lead : Option Lead} {check : Option (Condition ρ)} {row : ρ}

theorem mem_fromLead : row ∈ fromLead contents lead ↔
    row ∈ contents.rows ∧ ∀ rows ∈ lead, contents.id row ∈ rows.ids.run contents.links := by
  cases lead with
  | none => simp [fromLead]
  | some lead =>
    simp only [fromLead, List.mem_flatMap, List.mem_filter, decide_eq_true_eq, Option.mem_def,
      Option.some.injEq, forall_eq']
    constructor
    · intro h
      obtain ⟨id, hid, hrow, rfl⟩ := h
      exact ⟨hrow, hid⟩
    · intro h
      exact ⟨contents.id row, h.2, h.1, rfl⟩

theorem fromLead_once (h : ∀ rows ∈ lead, (rows.ids.run contents.links).Nodup) :
    ((fromLead contents lead).map contents.id).Nodup := by
  cases lead with
  | none => exact contents.rows_unique
  | some lead =>
    rw [fromLead, List.map_flatMap, List.nodup_flatMap]
    constructor
    · intro id _
      exact contents.rows_unique.sublist (List.filter_sublist.map _)
    · refine (h lead rfl).imp ?_
      intro a b hne owner ha hb
      obtain ⟨row, hrow, hra⟩ := List.mem_map.mp ha
      obtain ⟨row', hrow', hrb⟩ := List.mem_map.mp hb
      have hea := of_decide_eq_true (List.mem_filter.mp hrow).2
      have heb := of_decide_eq_true (List.mem_filter.mp hrow').2
      exact hne (hea.symm.trans (hra.trans (hrb.symm.trans heb)))

theorem tableFilter_holds :
    (tableFilter contents library check).holds contents.links row = some true ↔
      contents.library row = library ∧
        ∀ condition ∈ check, condition.holds contents.links row = some true := by
  cases check with
  | none => simp [tableFilter, Condition.holds]
  | some check =>
    rw [tableFilter, both_holds]
    simp [Condition.holds]

end Table

/-- A list starts from the lead it is given or from a group's. -/
theorem chosen_lead {members : List Group} {lead : Option Lead} {rows share : Int} {led : Lead}
    (h : led ∈ (chooseLead members lead rows share).1) :
    led ∈ lead ∨ ∃ group : Group, led = group.lead := by
  cases lead with
  | some lead => exact .inl h
  | none =>
    rw [chooseLead] at h
    cases hs : smallest members with
    | none =>
      rw [hs] at h
      cases h
    | some pair =>
      rw [hs] at h
      simp only at h
      split_ifs at h
      · exact .inr ⟨pair.1, (Option.some.inj h).symm⟩
      · cases h

/-- **Whichever group leads, a row of the lead that matches the others matches every group.** -/
theorem chosen_matches {members : List Group} (hids : ∀ group ∈ members, group.ids ≠ [])
    {lead : Option Lead} {rows share : Int} {links : List Link} {owner : Int} :
    ((∀ led ∈ (chooseLead members lead rows share).1, owner ∈ led.ids.run links) ∧
        ∀ group ∈ (chooseLead members lead rows share).2, group.Matches links owner) ↔
      (∀ given ∈ lead, owner ∈ given.ids.run links) ∧
        ∀ group ∈ members, group.Matches links owner := by
  cases lead with
  | some lead => exact Iff.rfl
  | none =>
    rw [chooseLead]
    by_cases hne : members = []
    · subst hne
      simp [smallest]
    · obtain ⟨group, i, hs, hi⟩ := smallest_some hne
      rw [hs]
      by_cases hle : saturatingMul group.size share ≤ rows
      · simp only [if_pos hle, Option.mem_def, Option.some.injEq, forall_eq', reduceCtorEq,
          false_imp_iff, implies_true, true_and]
        rw [mem_lead (hids group (List.mem_of_getElem? hi)),
          ← List.forall_mem_cons (p := fun group : Group => group.Matches links owner)]
        exact forall_congr' fun other => by rw [(swapRemove_perm hi).mem_iff]
      · simp only [if_neg hle]

/-- What a plan of groups reads. -/
theorem plan_groups {members : List Group} (hids : ∀ group ∈ members, group.ids ≠ [])
    {lead : Option Lead} {rows : Int} {alone : Bool} {share : Int} {plan : Plan ρ}
    (hplan : plan = (Tags.groups members).plan contents.id lead rows alone share) (row : ρ) :
    ((∀ led ∈ plan.lead, contents.id row ∈ led.ids.run contents.links) ∧
        ∀ condition ∈ plan.check, condition.holds contents.links row = some true) ↔
      (∀ given ∈ lead, contents.id row ∈ given.ids.run contents.links) ∧
        ∀ group ∈ members, group.Matches contents.links (contents.id row) := by
  subst hplan
  rw [Tags.plan, checkAll_holds, List.forall_mem_map,
    ← @chosen_matches members hids lead rows share]
  exact and_congr_right fun _ => forall₂_congr fun group _ => check_holds group contents.id

section Source

variable {lead : Option Lead} {check : Option (ρ → Option Bool)} {share : Int} {row : ρ}

/-- The plan for a list. -/
def planOf (contents : Contents ρ) (library : Int) (lead : Option Lead)
    (check : Option (ρ → Option Bool)) (filter : TagFilter) (share : Int) : Plan ρ :=
  let tags := Tags.read contents library filter
  let rows :=
    match tags with
    | .groups _ => contents.number library
    | _ => 0
  tags.plan contents.id lead rows (lead.isNone && check.isNone) share

/-- The rows of a list are those of its plan's lead that pass its check and the plan's. -/
theorem mem_kept_plan :
    row ∈ (source contents library lead check filter share).source.kept ↔
      row ∈ contents.rows ∧ contents.library row = library ∧
        (∀ holds ∈ check, holds row = some true) ∧
        (∀ led ∈ (planOf contents library lead check filter share).lead,
          contents.id row ∈ led.ids.run contents.links) ∧
        ∀ condition ∈ (planOf contents library lead check filter share).check,
          condition.holds contents.links row = some true := by
  change row ∈ (fromLead contents (planOf contents library lead check filter share).lead).filter
    (fun row => decide ((tableFilter contents library (checkAll ((check.map Condition.meets).toList ++
      (planOf contents library lead check filter share).check.toList))).holds contents.links row =
        some true)) ↔ _
  rw [List.mem_filter, decide_eq_true_eq, mem_fromLead, tableFilter_holds, checkAll_holds,
    List.forall_mem_append]
  have hcheck : (∀ condition ∈ (check.map Condition.meets).toList,
      condition.holds contents.links row = some true) ↔ ∀ holds ∈ check, holds row = some true := by
    cases check <;> simp [Condition.holds]
  rw [hcheck]
  simp only [Option.mem_toList]
  constructor
  · intro h
    exact ⟨h.1.1, h.2.1, h.2.2.1, h.1.2, h.2.2.2⟩
  · intro h
    exact ⟨⟨h.1, h.2.2.2.1⟩, h.2.1, h.2.2.1, h.2.2.2.2⟩

/-- **A list reads the rows that carry the tags its filter names.** -/
theorem mem_kept : row ∈ (source contents library lead check filter share).source.kept ↔
    Listed contents library lead check filter row := by
  rw [mem_kept_plan]
  cases hempty : filter.isEmpty with
  | true =>
    have hplan : planOf contents library lead check filter share = ⟨lead, none, none⟩ := by
      rw [planOf, read_unfiltered hempty]
      rfl
    have hnone : filter.all = [] ∧ filter.any = [] := by
      simpa [TagFilter.isEmpty] using hempty
    rw [hplan]
    constructor
    · intro h
      refine ⟨h.1, h.2.1, h.2.2.2.1, h.2.2.1, ?_, ?_, ?_⟩
      · intro named hn
        simp [hnone] at hn
      · intro id hid
        simp [hnone] at hid
      · intro tag _ hid
        simp [hnone] at hid
    · intro h
      exact ⟨h.mem, h.inLibrary, h.check, h.lead, by simp⟩
  | false =>
    obtain ⟨hknown, groups, hread, hg⟩ | ⟨hknown, hread⟩ :=
      @read_filtered _ contents library filter hempty
    · have hplan : planOf contents library lead check filter share =
          (Tags.groups groups).plan contents.id lead (contents.number library)
            (lead.isNone && check.isNone) share := by
        rw [planOf, hread]
      rw [plan_groups hg.ids hplan, hg.rows]
      constructor
      · intro h
        exact ⟨h.1, h.2.1, h.2.2.2.1, h.2.2.1, hknown, h.2.2.2.2⟩
      · intro h
        exact ⟨h.mem, h.inLibrary, h.check, h.lead, h.tagged⟩
    · have hplan : planOf contents library lead check filter share =
          ⟨lead, some .never, some (.stored 0)⟩ := by
        rw [planOf, hread]
        rfl
      rw [hplan]
      refine iff_of_false ?_ fun h => hknown h.known
      intro h
      have hnever := h.2.2.2.2 .never rfl
      simp [Condition.holds] at hnever

/-- **It reads each of them once.** -/
theorem kept_once (hlead : ∀ rows ∈ lead, (rows.ids.run contents.links).Nodup) :
    ((source contents library lead check filter share).source.kept.map contents.id).Nodup := by
  have hplan : ∀ rows ∈ (planOf contents library lead check filter share).lead,
      (rows.ids.run contents.links).Nodup := by
    intro rows hrows
    unfold planOf at hrows
    cases hread : Tags.read contents library filter with
    | unfiltered =>
      rw [hread] at hrows
      exact hlead rows hrows
    | nothing =>
      rw [hread] at hrows
      exact hlead rows hrows
    | groups groups =>
      rw [hread] at hrows
      obtain hgiven | ⟨group, rfl⟩ := chosen_lead hrows
      · exact hlead rows hgiven
      · exact lead_nodup contents.links_once group
  exact (fromLead_once hplan).sublist (List.filter_sublist.map _)

theorem kept_length (hlead : ∀ rows ∈ lead, (rows.ids.run contents.links).Nodup) {p : ρ → Bool}
    (h : ∀ row, Listed contents library lead check filter row ↔
      row ∈ contents.rows ∧ p row = true) :
    (source contents library lead check filter share).source.kept.length =
      (contents.rows.filter p).length := by
  have honce := @kept_once _ contents library filter lead check share hlead
  have hrows : (contents.rows.filter p).Nodup := contents.rows_unique.of_map.filter p
  refine ((List.perm_ext_iff_of_nodup honce.of_map hrows).mpr ?_).length_eq
  intro row
  rw [mem_kept, h row, List.mem_filter]

theorem source_total :
    (source contents library lead check filter share).total =
      (planOf contents library lead check filter share).total.getD
        (tableTotal contents library (planOf contents library lead check filter share).lead
          (checkAll ((check.map Condition.meets).toList ++
            (planOf contents library lead check filter share).check.toList))) := rfl

theorem number_counted {listing : Listing ρ} (h : listing.total = .counted) :
    listing.number = listing.source.kept.length := by
  rw [Listing.number, h]
  rfl

theorem number_stored {listing : Listing ρ} {count : Int} (h : listing.total = .stored count) :
    listing.number = count := by
  rw [Listing.number, h]

/-- A list whose filter names no tags has its stored count, or its lead's. -/
theorem unfiltered_total (hlead : ∀ rows ∈ lead, rows.Exact contents library)
    (hempty : filter.isEmpty = true) :
    (source contents library lead check filter share).number =
      (source contents library lead check filter share).source.kept.length := by
  have hplan : planOf contents library lead check filter share = ⟨lead, none, none⟩ := by
    rw [planOf, read_unfiltered hempty]
    rfl
  have htotal := @source_total _ contents library filter lead check share
  rw [hplan] at htotal
  have honce : ∀ rows ∈ lead, (rows.ids.run contents.links).Nodup :=
    fun rows hrows => (hlead rows hrows).once
  have hnone : filter.all = [] ∧ filter.any = [] := by
    simpa [TagFilter.isEmpty] using hempty
  have hlisted : ∀ row, Listed contents library lead check filter row ↔
      row ∈ contents.rows ∧ contents.library row = library ∧
        (∀ rows ∈ lead, contents.id row ∈ rows.ids.run contents.links) ∧
        ∀ holds ∈ check, holds row = some true := by
    intro row
    constructor
    · intro h
      exact ⟨h.mem, h.inLibrary, h.lead, h.check⟩
    · intro h
      refine ⟨h.1, h.2.1, h.2.2.1, h.2.2.2, ?_, ?_, ?_⟩
      · intro named hn
        simp [hnone] at hn
      · intro id hid
        simp [hnone] at hid
      · intro tag _ hid
        simp [hnone] at hid
  cases check with
  | some check => cases lead <;> exact number_counted htotal
  | none =>
    cases lead with
    | none =>
      rw [number_stored htotal, contents.numbers, kept_length honce]
      intro row
      simp [hlisted]
    | some lead =>
      rw [number_stored htotal, (hlead lead rfl).size, kept_length honce]
      intro row
      simp [hlisted]

/-- A row that matches the groups of a filter is one of the library's. -/
theorem grouping_row {groups : List Group} (hg : Grouping contents library filter groups)
    {owner : Int} (h : Tagged contents filter owner) :
    ∃ row ∈ contents.rows, contents.id row = owner ∧ contents.library row = library := by
  obtain ⟨group, hgroup⟩ := List.exists_mem_of_ne_nil _ hg.nonempty
  obtain ⟨id, hid⟩ := List.exists_mem_of_ne_nil _ (hg.ids group hgroup)
  have hcarries : ∃ tag ∈ group.ids, Carries contents.links owner tag := by
    have hm := (hg.rows owner).mpr h group hgroup
    rw [Group.Matches] at hm
    cases hmatch : group.tagMatch with
    | any =>
      rw [hmatch] at hm
      exact hm
    | all =>
      rw [hmatch] at hm
      exact ⟨id, hid, hm id hid⟩
  obtain ⟨tag, htag, link, hlink, rfl, rfl⟩ := hcarries
  obtain ⟨row, hrow, hrid, hrlib⟩ := contents.links_rows link hlink
  obtain ⟨tag, ht, htid, htlib⟩ := contents.links_tags link hlink
  obtain ⟨tag', ht', hlib, htid'⟩ := hg.tags group hgroup _ htag
  obtain rfl := List.inj_on_of_nodup_map contents.tags_unique ht ht' (htid.trans htid'.symm)
  exact ⟨row, hrow, hrid, by rw [hrlib, ← htlib, hlib]⟩

/-- One tag's stored count is the number of rows that carry it. -/
theorem one_total {one : Group} {tag : Int} (hg : Grouping contents library filter [one])
    (hone : one.ids = [tag]) (hknown : Known contents library filter) :
    one.size = (source contents library none none filter share).source.kept.length := by
  obtain ⟨row, hrow, -, rfl, hsize⟩ := hg.one one List.mem_cons_self tag hone
  have hcarries : ∀ owner, Tagged contents filter owner ↔ Carries contents.links owner row.id := by
    intro owner
    rw [← hg.rows owner, List.forall_mem_singleton, Group.Matches, hone]
    cases one.tagMatch <;> simp
  have hcount : one.size = (owners contents.links row.id).length := by
    rw [hsize, contents.counts row hrow, owners, List.length_map]
  have hlen : ((source contents library none none filter share).source.kept.map
      contents.id).length = (source contents library none none filter share).source.kept.length :=
    List.length_map _
  rw [hcount, ← hlen]
  have honce := @kept_once _ contents library filter none none share (by simp)
  congr 1
  refine ((List.perm_ext_iff_of_nodup (owners_nodup contents.links_once row.id) honce).mpr
    ?_).length_eq
  intro owner
  rw [mem_owners, ← hcarries owner, List.mem_map]
  constructor
  · intro h
    obtain ⟨row, hrow, rfl, hlib⟩ := grouping_row hg h
    exact ⟨row, mem_kept.2 ⟨hrow, hlib, by simp, by simp, hknown, h⟩, rfl⟩
  · intro h
    obtain ⟨row, hrow, rfl⟩ := h
    exact (mem_kept.1 hrow).tagged

theorem groupsTotal_cases (alone : Bool) (groups : List Group) :
    groupsTotal alone groups = .counted ∨ ∃ one tag, groups = [one] ∧ alone = true ∧
      one.ids = [tag] ∧ groupsTotal alone groups = .stored one.size := by
  unfold groupsTotal
  split
  · next one =>
    split_ifs with h
    · rw [Bool.and_eq_true, decide_eq_true_eq] at h
      obtain ⟨tag, htag⟩ := List.length_eq_one_iff.mp h.2
      exact .inr ⟨one, tag, rfl, h.1, htag, rfl⟩
    · exact .inl rfl
  · exact .inl rfl

/-- **The total of a list is the number of its rows.** -/
theorem kept_total (hlead : ∀ rows ∈ lead, rows.Exact contents library) :
    (source contents library lead check filter share).number =
      (source contents library lead check filter share).source.kept.length := by
  cases hempty : filter.isEmpty with
  | true => exact unfiltered_total hlead hempty
  | false =>
    have htotal := @source_total _ contents library filter lead check share
    obtain ⟨hknown, groups, hread, hg⟩ | ⟨hknown, hread⟩ :=
      @read_filtered _ contents library filter hempty
    · have hplan : (planOf contents library lead check filter share).total =
          some (groupsTotal (lead.isNone && check.isNone) groups) := by
        rw [planOf, hread]
        rfl
      rw [hplan, Option.getD_some] at htotal
      obtain hcounted | ⟨one, tag, rfl, halone, hone, hstored⟩ :=
        groupsTotal_cases (lead.isNone && check.isNone) groups
      · exact number_counted (htotal.trans hcounted)
      · rw [Bool.and_eq_true, Option.isNone_iff_eq_none, Option.isNone_iff_eq_none] at halone
        obtain ⟨rfl, rfl⟩ := halone
        rw [number_stored (htotal.trans hstored)]
        exact one_total hg hone hknown
    · have hplan : (planOf contents library lead check filter share).total = some (.stored 0) := by
        rw [planOf, hread]
        rfl
      rw [hplan, Option.getD_some] at htotal
      have hnil : (source contents library lead check filter share).source.kept = [] := by
        rw [List.eq_nil_iff_forall_not_mem]
        intro row hrow
        exact hknown (mem_kept.1 hrow).known
      rw [number_stored htotal, hnil]
      rfl

end Source

/-! ### The IDs alone -/

/-- The IDs that a filter's groups match are those of the rows it lists. -/
theorem mem_ids {ids : List Int} (h : (Tags.read contents library filter).ids contents = some ids) :
    owner ∈ ids ↔ ∃ row, Listed contents library none none filter row ∧ contents.id row = owner := by
  cases hempty : filter.isEmpty with
  | true =>
    rw [read_unfiltered hempty] at h
    cases h
  | false =>
    obtain ⟨hknown, groups, hread, hg⟩ | ⟨hknown, hread⟩ :=
      @read_filtered _ contents library filter hempty
    · obtain ⟨group, i, hs, hi⟩ := smallest_some hg.nonempty
      rw [hread, Tags.ids, hs, Option.map_some, Option.some.injEq] at h
      subst h
      have hmatches : (∀ other ∈ group :: swapRemove groups i,
          other.Matches contents.links owner) ↔ Tagged contents filter owner := by
        rw [← hg.rows owner]
        exact forall_congr' fun other => by rw [(swapRemove_perm hi).mem_iff]
      have hchecks : (checkAll ((swapRemove groups i).map fun other => other.check id)).all
          (fun check => decide (check.holds contents.links owner = some true)) = true ↔
            ∀ other ∈ swapRemove groups i, other.Matches contents.links owner := by
        have hall := @checkAll_holds Int contents.links owner
          ((swapRemove groups i).map fun other => other.check id)
        rw [List.forall_mem_map] at hall
        have hid : ∀ other : Group, (other.check id).holds contents.links owner = some true ↔
            other.Matches contents.links owner := fun other => check_holds other id
        simp only [hid] at hall
        rw [← hall]
        cases checkAll ((swapRemove groups i).map fun other => other.check id) <;> simp
      rw [List.mem_filter, mem_lead (hg.ids group (List.mem_of_getElem? hi)), hchecks,
        ← List.forall_mem_cons (p := fun group : Group => group.Matches contents.links owner),
        hmatches]
      constructor
      · intro ht
        obtain ⟨row, hrow, rfl, hlib⟩ := grouping_row hg ht
        exact ⟨row, ⟨hrow, hlib, by simp, by simp, hknown, ht⟩, rfl⟩
      · intro hex
        obtain ⟨row, hlisted, rfl⟩ := hex
        exact hlisted.tagged
    · rw [hread, Tags.ids, Option.some.injEq] at h
      subst h
      refine iff_of_false List.not_mem_nil ?_
      intro hex
      obtain ⟨row, hlisted, -⟩ := hex
      exact hknown hlisted.known

/-- The IDs are read exactly where the filter names tags. -/
theorem ids_none : (Tags.read contents library filter).ids contents = none ↔
    filter.isEmpty = true := by
  cases hempty : filter.isEmpty with
  | true => simp [read_unfiltered hempty, Tags.ids]
  | false =>
    obtain ⟨-, groups, hread, hg⟩ | ⟨-, hread⟩ := @read_filtered _ contents library filter hempty
    · obtain ⟨group, i, hs, hi⟩ := smallest_some hg.nonempty
      simp [hread, Tags.ids, hs]
    · simp [hread, Tags.ids]

/-- **Every plan for a tag filter selects the same rows.** Whatever the library holds, whatever
lists of tags the filter has and whichever group its plan starts from, a list reads the rows that
carry every tag of `tagAll` and one of `tagAny` of each type it names, each once, and none where a
tag is not the library's; its total is their number; and the IDs read alone are theirs. -/
theorem plans_agree (contents : Contents ρ) (library : Int) (lead : Option Lead)
    (hlead : ∀ rows ∈ lead, rows.Exact contents library) (check : Option (ρ → Option Bool))
    (filter : TagFilter) (share : Int) :
    (∀ row, row ∈ (source contents library lead check filter share).source.kept ↔
      Listed contents library lead check filter row) ∧
    ((source contents library lead check filter share).source.kept.map contents.id).Nodup ∧
    (source contents library lead check filter share).number =
      (source contents library lead check filter share).source.kept.length ∧
    ((Tags.read contents library filter).ids contents = none ↔ filter.isEmpty = true) ∧
    ∀ ids, (Tags.read contents library filter).ids contents = some ids →
      ∀ owner, owner ∈ ids ↔
        ∃ row, Listed contents library none none filter row ∧ contents.id row = owner := by
  refine ⟨fun row => mem_kept, kept_once fun rows hrows => (hlead rows hrows).once,
    kept_total hlead, ids_none, ?_⟩
  intro ids h owner
  exact mem_ids h

/-- Two tracks of a genre, one of them of a mood too. -/
def twoTracks : Contents Int :=
  { rows := [1, 2]
    id := fun track => track
    library := fun _ => 1
    tags := [⟨10, 1, "genre", 2⟩, ⟨20, 1, "mood", 1⟩]
    links := [⟨1, 1, 10⟩, ⟨1, 2, 10⟩, ⟨1, 1, 20⟩]
    number := fun lib => ([1, 2].filter fun _ => decide ((1 : Int) = lib)).length
    rows_unique := by decide
    tags_unique := by decide
    links_once := by decide
    links_rows := by decide
    links_tags := by decide
    counts := by decide
    numbers := fun _ => rfl }

/-- An artist's two tracks, filtered by genre and mood. -/
theorem plans_agree_on_two :
    let list := source twoTracks 1 (some ⟨.given [1, 2], 2⟩) none ⟨[some 10], [some 20]⟩ 0
    list.source.kept = [1] ∧ list.number = list.source.kept.length := by
  intro list
  refine ⟨by decide, ?_⟩
  refine (plans_agree twoTracks 1 (some ⟨.given [1, 2], 2⟩) ?_ none ⟨[some 10], [some 20]⟩ 0).2.2.1
  intro rows hrows
  obtain rfl := Option.some.inj hrows
  exact ⟨by decide, by decide⟩

end JewelCase.Filters
