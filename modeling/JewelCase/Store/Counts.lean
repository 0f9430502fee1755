import JewelCase.Store.Problems
import Mathlib.Data.List.Nodup

/-!
# Groups count what they hold

Each statement of a call leaves the counts right but for what it owes a group: a row put into a group
that has not been counted yet, or one taken out that still is. What is owed is paid by the counts
that follow, so nothing is owed after a call.
-/
namespace JewelCase.Store

open JewelCase.Library

set_option autoImplicit false

/-- A kind's name ends at the first bar of a key that begins with it. -/
theorem kind_of_key {kind kind' : ProblemKind} {rest rest' : Text}
    (h : kind.name ++ '|' :: rest = kind'.name ++ '|' :: rest') : kind = kind' := by
  have hbar : ∀ kind : ProblemKind, ∀ c ∈ kind.name, decide (c ≠ '|') = true := by
    intro kind
    have hall : (kind.name.all fun c => decide (c ≠ '|')) = true := by cases kind <;> decide
    exact List.all_eq_true.mp hall
  have htake : ∀ (kind : ProblemKind) (rest : Text),
      (kind.name ++ '|' :: rest).takeWhile (fun c => decide (c ≠ '|')) = kind.name := by
    intro kind rest
    rw [List.takeWhile_append_of_pos (hbar kind), List.takeWhile_cons_of_neg (by simp),
      List.append_nil]
  have hname : kind.name = kind'.name := by rw [← htake kind rest, h, htake kind' rest']
  revert hname
  cases kind <;> cases kind' <;> decide

@[simp] theorem Group.counted_id (g : Group) (group delta : Int) :
    (g.counted group delta).id = g.id := by
  unfold Group.counted
  split <;> rfl

@[simp] theorem Group.counted_kind (g : Group) (group delta : Int) :
    (g.counted group delta).kind = g.kind := by
  unfold Group.counted
  split <;> rfl

@[simp] theorem Group.counted_groupKey (g : Group) (group delta : Int) :
    (g.counted group delta).groupKey = g.groupKey := by
  unfold Group.counted
  split <;> rfl

theorem Group.counted_count (g : Group) (group delta : Int) :
    (g.counted group delta).count = g.count + if g.id = group then delta else 0 := by
  unfold Group.counted
  split
  · rfl
  · exact (Int.add_zero _).symm

@[simp] theorem Row.updated_key (row : Row) (key : Key) (problem : Problem) :
    (row.updated key problem).key = row.key := by
  unfold Row.updated
  split <;> rfl

@[simp] theorem Row.updated_group (row : Row) (key : Key) (problem : Problem) :
    (row.updated key problem).group = row.group := by
  unfold Row.updated
  split <;> rfl

namespace Tables

variable {s s' : Tables} {owed : Int → Int} {key : Key}

/-- The tables with counts that are right but for what is owed each group. -/
structure Tally (s : Tables) (owed : Int → Int) : Prop where
  rows : (s.problems.map Row.key).Nodup
  ids : (s.groups.map Group.id).Nodup
  kinds : ∀ g ∈ s.groups, ∃ rest, g.groupKey = g.kind.name ++ '|' :: rest
  placed : ∀ row ∈ s.problems, ∃ g ∈ s.groups, g.id = row.group
  counts : ∀ g ∈ s.groups, g.count + owed g.id = s.held g.id

/-- Every group holds a problem but those that are spared. -/
def Filled (s : Tables) (spared : Int → Prop) : Prop :=
  ∀ g ∈ s.groups, spared g.id ∨ 0 < s.held g.id

/-- The tables hold `r` at `key`. -/
def Sees (s : Tables) (key : Key) (r : Recorded) : Prop :=
  ∃ row ∈ s.problems, row.key = key ∧
    ∃ g ∈ s.groups, g.id = row.group ∧ r = ⟨g.kind, row.detail, row.seenAt⟩

theorem sound_iff : s.Sound ↔ s.Tally (fun _ => 0) ∧ s.Filled fun _ => False := by
  constructor
  · intro h
    refine ⟨⟨h.rows, h.ids, h.kinds, h.placed, ?_⟩, fun g hg => Or.inr (h.filled g hg)⟩
    intro g hg
    rw [Int.add_zero, h.counts g hg]
  · rintro ⟨h, hfilled⟩
    refine ⟨h.rows, h.ids, h.kinds, h.placed, ?_, fun g hg => (hfilled g hg).resolve_left id⟩
    intro g hg
    rw [← h.counts g hg, Int.add_zero]

theorem Tally.recorded_eq_some (h : s.Tally owed) {r : Recorded} :
    s.recorded key = some r ↔ s.Sees key r := by
  unfold recorded
  rw [Option.bind_eq_bind, Option.bind_eq_some_iff]
  constructor
  · rintro ⟨row, hrow, hr⟩
    obtain ⟨g, hg, hr⟩ := Option.bind_eq_some_iff.mp hr
    obtain ⟨hmem, hkey⟩ := (Keyed.find_eq_some h.rows).mp hrow
    obtain ⟨hgroup, hid⟩ := (Keyed.find_eq_some h.ids).mp hg
    exact ⟨row, hmem, hkey, g, hgroup, hid, (Option.some.inj hr).symm⟩
  · rintro ⟨row, hrow, hkey, g, hg, hid, rfl⟩
    refine ⟨row, (Keyed.find_eq_some h.rows).mpr ⟨hrow, hkey⟩, ?_⟩
    rw [(Keyed.find_eq_some h.ids).mpr ⟨hg, hid⟩]
    rfl

/-- The group of a path's problem. -/
theorem Tally.groupAt_eq_some (h : s.Tally owed) {group : Int} :
    s.groupAt key = some group ↔ ∃ row ∈ s.problems, row.key = key ∧ row.group = group := by
  unfold groupAt
  rw [Option.map_eq_some_iff]
  constructor
  · rintro ⟨row, hrow, hgroup⟩
    obtain ⟨hmem, hkey⟩ := (Keyed.find_eq_some h.rows).mp hrow
    exact ⟨row, hmem, hkey, hgroup⟩
  · rintro ⟨row, hrow, hkey, hgroup⟩
    exact ⟨row, (Keyed.find_eq_some h.rows).mpr ⟨hrow, hkey⟩, hgroup⟩

/-! ### What each statement does -/

theorem held_insertRow (s : Tables) (row : Row) (group : Int) :
    (s.insertRow row).held group = s.held group + if row.group = group then 1 else 0 := by
  rw [held, insertRow, List.countP_append, List.countP_singleton, held]
  simp only [decide_eq_true_eq]

theorem held_updateRow (s : Tables) (key : Key) (problem : Problem) (group : Int) :
    (s.updateRow key problem).held group = s.held group := by
  rw [held, updateRow, List.countP_map, held]
  congr 1
  funext row
  rw [Function.comp_apply, Row.updated_group]

theorem Tally.held_deleteRow (h : s.Tally owed) (key : Key) (group : Int) :
    (s.deleteRow key).held group + (if s.groupAt key = some group then 1 else 0) =
      s.held group := by
  unfold held deleteRow groupAt
  rw [← Keyed.countP_without h.rows key]
  cases Keyed.find Row.key s.problems key <;> simp

/-- A row goes, and its group is owed it. -/
theorem Tally.deleteRow (h : s.Tally owed) (key : Key) :
    (s.deleteRow key).Tally fun i => owed i - if s.groupAt key = some i then 1 else 0 where
  rows := Keyed.nodup_without h.rows key
  ids := h.ids
  kinds := h.kinds
  placed := fun row hrow => h.placed row (Keyed.mem_without.mp hrow).1
  counts := by
    intro g hg
    have hheld := h.held_deleteRow key g.id
    have hcount := h.counts g hg
    by_cases hout : s.groupAt key = some g.id
    · rw [if_pos hout] at hheld ⊢
      omega
    · rw [if_neg hout] at hheld ⊢
      omega

/-- A row comes, and its group is owed it. -/
theorem Tally.insertRow (h : s.Tally owed) {row : Row} (hnew : ∀ held ∈ s.problems, held.key ≠ row.key)
    (hgroup : ∃ g ∈ s.groups, g.id = row.group) :
    (s.insertRow row).Tally fun i => owed i + if row.group = i then 1 else 0 where
  rows := by
    rw [Tables.insertRow, List.map_append, List.nodup_append]
    refine ⟨h.rows, List.nodup_singleton _, ?_⟩
    intro key hkey other hother
    obtain ⟨held, hheld, rfl⟩ := List.mem_map.mp hkey
    obtain rfl := List.mem_singleton.mp hother
    exact hnew held hheld
  ids := h.ids
  kinds := h.kinds
  placed := by
    intro held hheld
    rcases List.mem_append.mp hheld with hheld | hheld
    · exact h.placed held hheld
    · obtain rfl := List.mem_singleton.mp hheld
      exact hgroup
  counts := by
    intro g hg
    have hheld := held_insertRow s row g.id
    have hcount := h.counts g hg
    by_cases hin : row.group = g.id
    · rw [if_pos hin] at hheld ⊢
      omega
    · rw [if_neg hin] at hheld ⊢
      omega

theorem Tally.updateRow (h : s.Tally owed) (key : Key) (problem : Problem) :
    (s.updateRow key problem).Tally owed where
  rows := by
    have hkeys : (s.updateRow key problem).problems.map Row.key = s.problems.map Row.key := by
      rw [Tables.updateRow, List.map_map]
      exact List.map_congr_left fun row _ => row.updated_key key problem
    rw [hkeys]
    exact h.rows
  ids := h.ids
  kinds := h.kinds
  placed := by
    intro row hrow
    obtain ⟨held, hheld, rfl⟩ := List.mem_map.mp hrow
    rw [Row.updated_group]
    exact h.placed held hheld
  counts := by
    intro g hg
    rw [held_updateRow]
    exact h.counts g hg

/-! ### Counting -/

theorem held_countInGroup (s : Tables) (group delta other : Int) :
    (s.countInGroup group delta).held other = s.held other := by
  unfold countInGroup
  split <;> rfl

theorem problems_countInGroup (s : Tables) (group delta : Int) :
    (s.countInGroup group delta).problems = s.problems := by
  unfold countInGroup
  split <;> rfl

/-- The groups after a count: that group's moved, and gone if a problem left it with none. -/
theorem mem_countInGroup {group delta : Int} {g : Group} :
    g ∈ (s.countInGroup group delta).groups ↔
      (∃ held ∈ s.groups, held.counted group delta = g) ∧
      (delta < 0 → g.id = group → 0 < s.held group) := by
  have hany : (s.problems.any fun row => decide (row.group = group)) = true ↔ 0 < s.held group := by
    rw [held, List.countP_pos_iff, List.any_eq_true]
  unfold countInGroup
  split
  case isTrue hneg =>
    rw [List.mem_filter, List.mem_map, Bool.not_eq_true', Bool.and_eq_false_iff,
      decide_eq_false_iff_not, Bool.not_eq_false', hany]
    exact and_congr_right fun _ =>
      ⟨fun h _ hid => h.resolve_left (not_not.mpr hid), fun h => or_iff_not_imp_left.mpr fun hid =>
        h hneg (not_not.mp hid)⟩
  case isFalse hneg =>
    rw [List.mem_map]
    exact ⟨fun h => ⟨h, fun hlt => absurd hlt hneg⟩, fun h => h.1⟩

/-- A count pays what a group is owed. -/
theorem Tally.countInGroup (h : s.Tally owed) (group delta : Int) :
    (s.countInGroup group delta).Tally fun i => owed i - if i = group then delta else 0 where
  rows := by
    rw [problems_countInGroup]
    exact h.rows
  ids := by
    have hids : (s.groups.map fun g => g.counted group delta).map Group.id =
        s.groups.map Group.id := by
      rw [List.map_map]
      exact List.map_congr_left fun g _ => g.counted_id group delta
    have hnodup := h.ids
    rw [← hids] at hnodup
    unfold Tables.countInGroup
    split
    · exact hnodup.sublist (List.filter_sublist.map Group.id)
    · exact hnodup
  kinds := by
    intro g hg
    obtain ⟨⟨held, hheld, rfl⟩, _⟩ := mem_countInGroup.1 hg
    rw [Group.counted_groupKey, Group.counted_kind]
    exact h.kinds held hheld
  placed := by
    intro row hrow
    rw [problems_countInGroup] at hrow
    obtain ⟨g, hg, hid⟩ := h.placed row hrow
    refine ⟨_, mem_countInGroup.2 ⟨⟨g, hg, rfl⟩, ?_⟩, (g.counted_id group delta).trans hid⟩
    intro _ hsame
    rw [held, List.countP_pos_iff]
    exact ⟨row, hrow, decide_eq_true (hid.symm.trans ((g.counted_id group delta).symm.trans hsame))⟩
  counts := by
    intro g hg
    obtain ⟨⟨held, hheld, rfl⟩, _⟩ := mem_countInGroup.1 hg
    have hcount := h.counts held hheld
    rw [held_countInGroup, Group.counted_count, Group.counted_id, ← hcount]
    omega

/-! ### Groups that hold nothing -/

variable {spared : Int → Prop}

theorem Filled.deleteRow (hfilled : s.Filled spared) (h : s.Tally owed) (key : Key) :
    (s.deleteRow key).Filled fun i => spared i ∨ s.groupAt key = some i := by
  intro g hg
  have hheld := h.held_deleteRow key g.id
  by_cases hout : s.groupAt key = some g.id
  · exact Or.inl (Or.inr hout)
  · rw [if_neg hout, Nat.add_zero] at hheld
    rw [hheld]
    exact (hfilled g hg).imp_left Or.inl

theorem Filled.insertRow (h : s.Filled spared) (row : Row) :
    (s.insertRow row).Filled fun i => spared i ∧ row.group ≠ i := by
  intro g hg
  have hheld := held_insertRow s row g.id
  by_cases hin : row.group = g.id
  · rw [if_pos hin] at hheld
    exact Or.inr (by omega)
  · rw [if_neg hin, Nat.add_zero] at hheld
    rw [hheld]
    exact (h g hg).imp_left fun hspared => ⟨hspared, hin⟩

theorem Filled.updateRow (h : s.Filled spared) (key : Key) (problem : Problem) :
    (s.updateRow key problem).Filled spared := by
  intro g hg
  rw [held_updateRow]
  exact h g hg

/-- A group that a problem leaves is not spared. -/
theorem Filled.countInGroup (h : s.Filled spared) (group delta : Int) :
    (s.countInGroup group delta).Filled fun i => spared i ∧ (delta < 0 → i ≠ group) := by
  intro g hg
  obtain ⟨⟨held, hheld, rfl⟩, hkeep⟩ := mem_countInGroup.1 hg
  rw [Group.counted_id] at hkeep
  rw [held_countInGroup, Group.counted_id]
  rcases h held hheld with hspared | hfull
  · by_cases hleft : delta < 0 ∧ held.id = group
    · exact Or.inr (hleft.2 ▸ hkeep hleft.1 hleft.2)
    · exact Or.inl ⟨hspared, fun hneg hsame => hleft ⟨hneg, hsame⟩⟩
  · exact Or.inr hfull

/-! ### What is seen -/

variable {r : Recorded}

theorem sees_deleteRow {k : Key} : (s.deleteRow key).Sees k r ↔ k ≠ key ∧ s.Sees k r := by
  constructor
  · rintro ⟨row, hrow, rfl, hgroup⟩
    obtain ⟨hmem, hne⟩ := Keyed.mem_without.mp hrow
    exact ⟨hne, row, hmem, rfl, hgroup⟩
  · rintro ⟨hne, row, hrow, rfl, hgroup⟩
    exact ⟨row, Keyed.mem_without.mpr ⟨hrow, hne⟩, rfl, hgroup⟩

theorem sees_insertRow {row : Row} {k : Key} : (s.insertRow row).Sees k r ↔
    s.Sees k r ∨ row.key = k ∧ ∃ g ∈ s.groups, g.id = row.group ∧
      r = ⟨g.kind, row.detail, row.seenAt⟩ := by
  constructor
  · rintro ⟨held, hheld, hkey, hgroup⟩
    rcases List.mem_append.mp hheld with hheld | hheld
    · exact Or.inl ⟨held, hheld, hkey, hgroup⟩
    · obtain rfl := List.mem_singleton.mp hheld
      exact Or.inr ⟨hkey, hgroup⟩
  · rintro (⟨held, hheld, h⟩ | h)
    · exact ⟨held, List.mem_append_left _ hheld, h⟩
    · exact ⟨row, List.mem_append_right _ (List.mem_singleton.mpr rfl), h⟩

/-- Tables whose groups have the IDs and the kinds of others' for what the rows are in. -/
theorem sees_of_groups {t : Tables} (hrows : s.problems = t.problems)
    (hgroups : ∀ row ∈ t.problems, ∀ kind,
      (∃ g ∈ s.groups, g.id = row.group ∧ g.kind = kind) ↔
        ∃ g ∈ t.groups, g.id = row.group ∧ g.kind = kind) {k : Key} :
    s.Sees k r ↔ t.Sees k r := by
  unfold Sees
  rw [hrows]
  refine exists_congr fun row => and_congr_right fun hrow => and_congr_right fun _ => ?_
  constructor
  · rintro ⟨g, hg, hid, rfl⟩
    obtain ⟨g', hg', hid', hkind⟩ := (hgroups row hrow g.kind).mp ⟨g, hg, hid, rfl⟩
    exact ⟨g', hg', hid', by rw [hkind]⟩
  · rintro ⟨g, hg, hid, rfl⟩
    obtain ⟨g', hg', hid', hkind⟩ := (hgroups row hrow g.kind).mpr ⟨g, hg, hid, rfl⟩
    exact ⟨g', hg', hid', by rw [hkind]⟩

theorem sees_countInGroup (group delta : Int) {k : Key} :
    (s.countInGroup group delta).Sees k r ↔ s.Sees k r := by
  refine sees_of_groups (problems_countInGroup s group delta) ?_
  intro row hrow kind
  constructor
  · rintro ⟨g, hg, hid, hkind⟩
    obtain ⟨⟨held, hheld, rfl⟩, _⟩ := mem_countInGroup.1 hg
    rw [Group.counted_id] at hid
    rw [Group.counted_kind] at hkind
    exact ⟨held, hheld, hid, hkind⟩
  · rintro ⟨held, hheld, hid, hkind⟩
    refine ⟨_, mem_countInGroup.2 ⟨⟨held, hheld, rfl⟩, ?_⟩, (held.counted_id group delta).trans hid,
      (held.counted_kind group delta).trans hkind⟩
    intro _ hgroup
    rw [Group.counted_id] at hgroup
    rw [Tables.held, List.countP_pos_iff]
    exact ⟨row, hrow, decide_eq_true (hid.symm.trans hgroup)⟩

/-- A row that is updated keeps its kind. -/
theorem Tally.sees_updateRow (h : s.Tally owed) {problem : Problem} {group : Group} {k : Key}
    (hgroup : group ∈ s.groups) (hat : s.groupAt key = some group.id) :
    (s.updateRow key problem).Sees k r ↔
      if k = key then r = ⟨group.kind, problem.detail, problem.seenAt⟩ else s.Sees k r := by
  obtain ⟨row, hrow, hkey, hid⟩ := h.groupAt_eq_some.mp hat
  constructor
  · rintro ⟨_, hmem, hk, g, hg, hgid, rfl⟩
    obtain ⟨held, hheld, rfl⟩ := List.mem_map.mp hmem
    rw [Row.updated_key] at hk
    rw [Row.updated_group] at hgid
    subst hk
    rw [Row.updated]
    split
    case isTrue hsame =>
      obtain rfl := List.inj_on_of_nodup_map h.rows hheld hrow (hsame.trans hkey.symm)
      obtain rfl := List.inj_on_of_nodup_map h.ids hg hgroup (hgid.trans hid)
      rfl
    case isFalse hother => exact ⟨held, hheld, rfl, g, hg, hgid, rfl⟩
  · intro hr
    split at hr
    case isTrue hsame =>
      subst hsame
      refine ⟨_, List.mem_map.mpr ⟨row, hrow, rfl⟩, (row.updated_key k problem).trans hkey, group,
        hgroup, hid.symm.trans (row.updated_group k problem).symm, ?_⟩
      rw [Row.updated, if_pos hkey]
      exact hr
    case isFalse hother =>
      obtain ⟨held, hheld, rfl, hgroups⟩ := hr
      refine ⟨_, List.mem_map.mpr ⟨held, hheld, rfl⟩, held.updated_key key problem, ?_⟩
      rw [Row.updated, if_neg hother]
      exact hgroups

end Tables
end JewelCase.Store
