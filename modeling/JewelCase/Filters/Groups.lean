import Mathlib.Data.List.Perm.Basic
import JewelCase.Filters.Tags

/-!
# What a group of tags matches

A group that leads reads the rows that match it, each once, and a group that checks holds of the
rows that match it. The groups that a filter is read into match, all together, the rows that carry
every tag of `tagAll` and one of `tagAny` of each type it names.
-/
namespace JewelCase.Filters

set_option autoImplicit false

open Library

variable {ρ : Type} {links : List Link} {owner tag : Int} {row : ρ}

/-! ### A group alone -/

/-- Whether the row `owner` carries a tag. -/
def Carries (links : List Link) (owner tag : Int) : Prop :=
  ∃ link ∈ links, link.owner = owner ∧ link.tag = tag

/-- Whether the row `owner` carries a group's tags its way. -/
def Group.Matches (links : List Link) (owner : Int) (group : Group) : Prop :=
  match group.tagMatch with
  | .any => ∃ tag ∈ group.ids, Carries links owner tag
  | .all => ∀ tag ∈ group.ids, Carries links owner tag

theorem linked_iff : linked links owner tag = true ↔ Carries links owner tag := by
  simp [linked, Carries]

theorem mem_owners : owner ∈ owners links tag ↔ Carries links owner tag := by
  unfold owners Carries
  rw [List.mem_map]
  constructor
  · intro h
    obtain ⟨link, hlink, rfl⟩ := h
    obtain ⟨hmem, htag⟩ := List.mem_filter.mp hlink
    exact ⟨link, hmem, rfl, of_decide_eq_true htag⟩
  · intro h
    obtain ⟨link, hmem, rfl, rfl⟩ := h
    exact ⟨link, List.mem_filter.mpr ⟨hmem, decide_eq_true rfl⟩, rfl⟩

/-- A row is linked to a tag once. -/
theorem owners_nodup (h : (links.map fun link => (link.owner, link.tag)).Nodup) (tag : Int) :
    (owners links tag).Nodup := by
  refine List.pairwise_map.mpr ?_
  refine ((List.pairwise_map.mp h).filter _).imp_of_mem ?_
  intro a b ha hb hne howner
  have hta : a.tag = tag := of_decide_eq_true (List.mem_filter.mp ha).2
  have htb : b.tag = tag := of_decide_eq_true (List.mem_filter.mp hb).2
  exact hne (by rw [howner, hta, htb])

/-- The queries joined by `INTERSECT` read what they all read. -/
theorem mem_intersect {ids : List Int} (tags : List Int) :
    owner ∈ tags.foldl (fun ids tag => ids.dedup.filter fun id =>
        decide (id ∈ owners links tag)) ids ↔
      owner ∈ ids ∧ ∀ tag ∈ tags, Carries links owner tag := by
  induction tags generalizing ids with
  | nil => simp
  | cons tag tags ih =>
    rw [List.foldl_cons, ih, List.mem_filter, List.mem_dedup, decide_eq_true_eq, mem_owners,
      List.forall_mem_cons, and_assoc]

theorem intersect_nodup {ids : List Int} (tags : List Int) (h : ids.Nodup) :
    (tags.foldl (fun ids tag => ids.dedup.filter fun id =>
      decide (id ∈ owners links tag)) ids).Nodup := by
  induction tags generalizing ids with
  | nil => exact h
  | cons tag tags ih =>
    rw [List.foldl_cons]
    exact ih ((List.nodup_dedup ids).filter _)

theorem mem_distinct (tags : List Int) :
    owner ∈ (Select.distinct tags).run links ↔ ∃ tag ∈ tags, Carries links owner tag := by
  simp only [Select.run, List.mem_dedup, List.mem_map, List.mem_filter, decide_eq_true_eq, Carries]
  constructor
  · intro h
    obtain ⟨link, ⟨hmem, htag⟩, rfl⟩ := h
    exact ⟨link.tag, htag, link, hmem, rfl, rfl⟩
  · intro h
    obtain ⟨tag, htag, link, hmem, rfl, rfl⟩ := h
    exact ⟨link, ⟨hmem, htag⟩, rfl⟩

/-- **A group that leads reads the rows that match it.** -/
theorem mem_lead {group : Group} (h : group.ids ≠ []) :
    owner ∈ group.lead.ids.run links ↔ group.Matches links owner := by
  obtain ⟨ids, tagMatch, size⟩ := group
  unfold Group.lead Group.Matches
  cases ids with
  | nil => exact absurd rfl h
  | cons tag tags =>
    cases tags with
    | nil => cases tagMatch <;> simp [Select.run, mem_owners]
    | cons tag' tags =>
      cases tagMatch with
      | any => exact mem_distinct _
      | all =>
        refine (mem_intersect _).trans ?_
        rw [mem_owners, ← List.forall_mem_cons (p := fun tag => Carries links owner tag)]

/-- **It reads each of them once.** -/
theorem lead_nodup (h : (links.map fun link => (link.owner, link.tag)).Nodup) (group : Group) :
    (group.lead.ids.run links).Nodup := by
  obtain ⟨ids, tagMatch, size⟩ := group
  unfold Group.lead
  cases ids with
  | nil => cases tagMatch <;> simp [Select.run]
  | cons tag tags =>
    cases tags with
    | nil => cases tagMatch <;> exact owners_nodup h tag
    | cons tag' tags =>
      cases tagMatch with
      | any => exact List.nodup_dedup _
      | all => exact intersect_nodup _ (owners_nodup h tag)

/-- **A group that checks holds of the rows that match it.** -/
theorem check_holds (group : Group) (idOf : ρ → Int) :
    (group.check idOf).holds links row = some true ↔ group.Matches links (idOf row) := by
  obtain ⟨ids, tagMatch, size⟩ := group
  cases tagMatch with
  | any =>
    simp only [Group.check, Condition.holds, Group.Matches, Carries, Option.some.injEq,
      List.any_eq_true, decide_eq_true_eq]
    constructor
    · intro h
      obtain ⟨link, hmem, howner, htag⟩ := h
      exact ⟨link.tag, htag, link, hmem, howner, rfl⟩
    · intro h
      obtain ⟨tag, htag, link, hmem, howner, rfl⟩ := h
      exact ⟨link, hmem, howner, htag⟩
  | all => simp [Group.check, Condition.holds, Group.Matches, linked_iff]

theorem both_holds (a b : Condition ρ) :
    (a.both b).holds links row = some true ↔
      a.holds links row = some true ∧ b.holds links row = some true := by
  rw [Condition.holds]
  cases a.holds links row with
  | none => cases b.holds links row with
    | none => simp [and3]
    | some b => cases b <;> simp [and3]
  | some a =>
    cases b.holds links row with
    | none => cases a <;> simp [and3]
    | some b => cases a <;> cases b <;> simp [and3]

theorem foldl_both (check : Condition ρ) (checks : List (Condition ρ)) :
    (checks.foldl .both check).holds links row = some true ↔
      check.holds links row = some true ∧
        ∀ other ∈ checks, other.holds links row = some true := by
  induction checks generalizing check with
  | nil => simp
  | cons other checks ih => rw [List.foldl_cons, ih, both_holds, List.forall_mem_cons, and_assoc]

/-- A row passes the joined check when it passes every one. -/
theorem checkAll_holds (checks : List (Condition ρ)) :
    (∀ check ∈ checkAll checks, check.holds links row = some true) ↔
      ∀ check ∈ checks, check.holds links row = some true := by
  cases checks with
  | nil => simp [checkAll]
  | cons check checks => simp [checkAll, foldl_both]

/-! ### The groups of a filter -/

variable {found : List TagRow} {groups : OrderedMap GroupKey Group}

/-- The groups after some of the filter's tags, each with the list that names it. -/
structure Grouped (found : List TagRow) (done : List (Int × TagMatch))
    (groups : OrderedMap GroupKey Group) : Prop where
  group : ∀ key group, groups.get key = some group → group.ids ≠ [] ∧
    group.tagMatch = (ofLex key).2 ∧
    (∀ id, id ∈ group.ids ↔ (id, (ofLex key).2) ∈ done ∧
      ∃ tag ∈ found, tag.id = id ∧ tag.type = (ofLex key).1) ∧
    ∀ id, group.ids = [id] → ∃ tag ∈ found, tag.id = id ∧ group.size = tag.count
  every : ∀ named ∈ done, ∀ tag ∈ found, tag.id = named.1 →
    ∃ group, groups.get (toLex (tag.type, named.2)) = some group

theorem grouped_empty : Grouped found [] (OrderedMap.empty : OrderedMap GroupKey Group) := by
  constructor
  · intro key group h
    rw [OrderedMap.get_empty] at h
    cases h
  · intro named h
    cases h

theorem group_add_ids (group : Group) (id count : Int) : (group.add id count).ids = group.ids ++ [id] :=
  rfl

/-- The group that one more tag goes to. -/
theorem grouped_old {done : List (Int × TagMatch)} (h : Grouped found done groups) (type : String)
    (tagMatch : TagMatch) :
    let old := (groups.get (toLex (type, tagMatch))).getD ⟨[], tagMatch, 0⟩
    old.tagMatch = tagMatch ∧ ∀ id, id ∈ old.ids ↔ (id, tagMatch) ∈ done ∧
      ∃ tag ∈ found, tag.id = id ∧ tag.type = type := by
  intro old
  cases hold : groups.get (toLex (type, tagMatch)) with
  | none =>
    have hempty : old = ⟨[], tagMatch, 0⟩ := by
      change (groups.get (toLex (type, tagMatch))).getD _ = _
      rw [hold]
      rfl
    rw [hempty]
    refine ⟨rfl, fun id => iff_of_false List.not_mem_nil ?_⟩
    intro hin
    obtain ⟨hdone, tag, htag, hid, rfl⟩ := hin
    obtain ⟨group, hgroup⟩ := h.every _ hdone tag htag hid
    rw [hold] at hgroup
    cases hgroup
  | some group =>
    have hgroup : old = group := by
      change (groups.get (toLex (type, tagMatch))).getD _ = _
      rw [hold]
      rfl
    obtain ⟨-, hmatch, hids, -⟩ := h.group _ group hold
    rw [hgroup]
    exact ⟨hmatch, hids⟩

/-- **One more tag goes to the group of its type and list.** -/
theorem grouped_step {done : List (Int × TagMatch)} {named : Int × TagMatch}
    (h : Grouped found done groups) (hunique : (found.map TagRow.id).Nodup) {tag : TagRow}
    (htag : tag ∈ found) (hid : tag.id = named.1) :
    Grouped found (done ++ [named]) (addTag found groups named) := by
  have hsame : ∀ other ∈ found, other.id = tag.id → other = tag :=
    fun other ho he => List.inj_on_of_nodup_map hunique ho htag he
  have hfind : found.find? (fun tag => decide (tag.id = named.1)) = some tag := by
    cases hf : found.find? fun tag => decide (tag.id = named.1) with
    | none =>
      have hnone := List.find?_eq_none.mp hf tag htag
      simp [hid] at hnone
    | some other =>
      have heq := List.find?_some hf
      rw [decide_eq_true_eq] at heq
      rw [hsame other (List.mem_of_find?_eq_some hf) (heq.trans hid.symm)]
  have hadd : addTag found groups named = groups.alter (toLex (tag.type, named.2)) fun group =>
      (group.getD ⟨[], named.2, 0⟩).add tag.id tag.count := by
    rw [addTag, hfind]
  rw [hadd]
  constructor
  · intro key group hget
    rw [OrderedMap.get_alter] at hget
    by_cases hk : key = toLex (tag.type, named.2)
    · subst hk
      rw [if_pos rfl, Option.some.injEq] at hget
      subst hget
      obtain ⟨hmatch, hids⟩ := grouped_old h tag.type named.2
      generalize (groups.get (toLex (tag.type, named.2))).getD ⟨[], named.2, 0⟩ = old at *
      refine ⟨by simp [group_add_ids], hmatch, ?_, ?_⟩
      · intro id
        rw [group_add_ids, List.mem_append, List.mem_append, List.mem_singleton,
          List.mem_singleton, hids, or_and_right]
        refine or_congr_right ?_
        constructor
        · intro he
          subst he
          exact ⟨Prod.ext hid rfl, tag, htag, rfl, rfl⟩
        · intro he
          exact (congrArg Prod.fst he.1).trans hid.symm
      · intro id hone
        have hnil : old.ids = [] := by
          have hlen := congrArg List.length hone
          rw [group_add_ids, List.length_append] at hlen
          simpa using hlen
        refine ⟨tag, htag, ?_, ?_⟩
        · rw [group_add_ids, hnil] at hone
          exact List.singleton_injective hone
        · rw [Group.add, hnil]
          rfl
    · rw [if_neg hk] at hget
      obtain ⟨hne, hmatch, hids, hsize⟩ := h.group key group hget
      refine ⟨hne, hmatch, ?_, hsize⟩
      intro id
      rw [hids, List.mem_append, List.mem_singleton]
      refine and_congr_left fun htype => (or_iff_left ?_).symm
      intro he
      obtain ⟨other, ho, hoid, hotype⟩ := htype
      have hnamed : named.1 = id := (congrArg Prod.fst he).symm
      obtain rfl := hsame other ho (by rw [hoid, hid, hnamed])
      apply hk
      rw [hotype, ← congrArg Prod.snd he]
      rfl
  · intro other ho row hrow hrid
    rw [OrderedMap.get_alter]
    split_ifs with hk
    · exact ⟨_, rfl⟩
    · obtain ho | ho := List.mem_append.mp ho
      · exact h.every other ho row hrow hrid
      · rw [List.mem_singleton] at ho
        subst ho
        rw [hsame row hrow (hrid.trans hid.symm)] at hk
        exact absurd rfl hk

theorem grouped_foldl (hunique : (found.map TagRow.id).Nodup) {done more : List (Int × TagMatch)}
    (h : Grouped found done groups) (hmore : ∀ named ∈ more, ∃ tag ∈ found, tag.id = named.1) :
    Grouped found (done ++ more) (more.foldl (addTag found) groups) := by
  induction more generalizing done groups with
  | nil => rwa [List.append_nil]
  | cons named more ih =>
    obtain ⟨tag, htag, hid⟩ := hmore named List.mem_cons_self
    have hstep := ih (grouped_step h hunique htag hid) fun other ho =>
      hmore other (List.mem_cons_of_mem _ ho)
    rwa [List.append_assoc, List.singleton_append] at hstep

/-- A row matches every group when it carries every tag of `all`, and one of `any` of each type. -/
theorem grouped_matches {all any : List Int}
    (h : Grouped found ((all.map fun id => (id, TagMatch.all)) ++ any.map fun id =>
      (id, TagMatch.any)) groups)
    (hall : ∀ id ∈ all, ∃ tag ∈ found, tag.id = id) :
    (∀ group ∈ groups.values, group.Matches links owner) ↔
      (∀ id ∈ all, Carries links owner id) ∧
        ∀ tag ∈ found, tag.id ∈ any →
          ∃ other ∈ found, other.type = tag.type ∧ other.id ∈ any ∧ Carries links owner other.id := by
  have hdone : ∀ id m, (id, m) ∈ ((all.map fun id => (id, TagMatch.all)) ++ any.map fun id =>
      (id, TagMatch.any)) ↔ m = .all ∧ id ∈ all ∨ m = .any ∧ id ∈ any := by
    intro id m
    simp only [List.mem_append, List.mem_map, Prod.mk.injEq]
    cases m <;> simp
  constructor
  · intro hmatches
    constructor
    · intro id hid
      obtain ⟨tag, htag, rfl⟩ := hall id hid
      have hin := (hdone tag.id .all).mpr (.inl ⟨rfl, hid⟩)
      obtain ⟨group, hgroup⟩ := h.every _ hin tag htag rfl
      obtain ⟨-, hmatch, hids, -⟩ := h.group _ group hgroup
      have hm := hmatches group (OrderedMap.mem_values.mpr ⟨_, hgroup⟩)
      rw [Group.Matches, hmatch] at hm
      exact hm tag.id ((hids _).mpr ⟨hin, tag, htag, rfl, rfl⟩)
    · intro tag htag hid
      have hin := (hdone tag.id .any).mpr (.inr ⟨rfl, hid⟩)
      obtain ⟨group, hgroup⟩ := h.every _ hin tag htag rfl
      obtain ⟨-, hmatch, hids, -⟩ := h.group _ group hgroup
      have hm := hmatches group (OrderedMap.mem_values.mpr ⟨_, hgroup⟩)
      rw [Group.Matches, hmatch] at hm
      obtain ⟨id, hmem, hcarries⟩ := hm
      obtain ⟨hother, other, ho, rfl, htype⟩ := (hids id).mp hmem
      have hany := ((hdone _ _).mp hother).resolve_left fun hc => TagMatch.noConfusion hc.1
      exact ⟨other, ho, htype, hany.2, hcarries⟩
  · intro hrow group hgroup
    obtain ⟨hallc, hanyc⟩ := hrow
    obtain ⟨key, hget⟩ := OrderedMap.mem_values.mp hgroup
    obtain ⟨hne, hmatch, hids, -⟩ := h.group key group hget
    cases hm : (ofLex key).2 with
    | all =>
      rw [Group.Matches, hmatch, hm]
      intro id hid
      have hdn := (hdone _ _).mp ((hids id).mp hid).1
      rw [hm] at hdn
      exact hallc id (hdn.resolve_right fun hc => TagMatch.noConfusion hc.1).2
    | any =>
      rw [Group.Matches, hmatch, hm]
      obtain ⟨id, hid⟩ := List.exists_mem_of_ne_nil _ hne
      obtain ⟨hin, tag, htag, rfl, htype⟩ := (hids id).mp hid
      rw [hdone, hm] at hin
      have hany := (hin.resolve_left fun hc => TagMatch.noConfusion hc.1).2
      obtain ⟨other, ho, hotype, hoany, hcarries⟩ := hanyc tag htag hany
      refine ⟨other.id, (hids _).mpr ⟨?_, other, ho, rfl, hotype.trans htype⟩, hcarries⟩
      rw [hdone, hm]
      exact .inr ⟨rfl, hoany⟩

/-! ### Reading a filter -/

theorem collect_some {α : Type} {options : List (Option α)} {values : List α}
    (h : collect options = some values) (value : α) : value ∈ values ↔ some value ∈ options := by
  induction options generalizing values with
  | nil =>
    obtain rfl := Option.some.inj h
    simp
  | cons option options ih =>
    cases option with
    | none => cases h
    | some first =>
      rw [collect, Option.map_eq_some_iff] at h
      obtain ⟨rest, hrest, rfl⟩ := h
      rw [List.mem_cons, List.mem_cons, ih hrest, Option.some.injEq]

theorem collect_none {α : Type} {options : List (Option α)} (h : collect options = none) :
    none ∈ options := by
  induction options with
  | nil => cases h
  | cons option options ih =>
    cases option with
    | none => exact List.mem_cons_self
    | some first =>
      rw [collect, Option.map_eq_none_iff] at h
      exact List.mem_cons_of_mem _ (ih h)

theorem mem_sortDedup {id : Int} {ids : List Int} : id ∈ sortDedup ids ↔ id ∈ ids := by
  rw [sortDedup, List.mem_dedup, List.mem_insertionSort]

/-- The tags found are all that are named, or some that is named is not the library's. -/
theorem found_length {contents : Contents ρ} {library : Int} {named : List Int}
    (hnamed : named.Nodup) :
    (contents.tags.filter fun tag => decide (tag.library = library ∧ tag.id ∈ named)).length =
        named.length ↔
      ∀ id ∈ named, ∃ tag ∈ contents.tags, tag.library = library ∧ tag.id = id := by
  have hnodup : ((contents.tags.filter fun tag =>
      decide (tag.library = library ∧ tag.id ∈ named)).map TagRow.id).Nodup :=
    contents.tags_unique.sublist (List.filter_sublist.map _)
  have hsub : ((contents.tags.filter fun tag =>
      decide (tag.library = library ∧ tag.id ∈ named)).map TagRow.id) ⊆ named := by
    intro id hid
    obtain ⟨tag, htag, rfl⟩ := List.mem_map.mp hid
    exact (of_decide_eq_true (List.mem_filter.mp htag).2).2
  have hsubperm := List.subperm_of_subset hnodup hsub
  constructor
  · intro hlen id hid
    have hperm := hsubperm.perm_of_length_le (by rw [List.length_map, hlen])
    obtain ⟨tag, htag, rfl⟩ := List.mem_map.mp (hperm.mem_iff.mpr hid)
    obtain ⟨hmem, hd⟩ := List.mem_filter.mp htag
    exact ⟨tag, hmem, (of_decide_eq_true hd).1, rfl⟩
  · intro hall
    have hback : named ⊆ (contents.tags.filter fun tag =>
        decide (tag.library = library ∧ tag.id ∈ named)).map TagRow.id := by
      intro id hid
      obtain ⟨tag, hmem, hlib, rfl⟩ := hall id hid
      exact List.mem_map.mpr ⟨tag, List.mem_filter.mpr ⟨hmem, decide_eq_true ⟨hlib, hid⟩⟩, rfl⟩
    have hle := (List.subperm_of_subset hnamed hback).length_le
    have hge := hsubperm.length_le
    rw [List.length_map] at hle hge
    omega

end JewelCase.Filters
