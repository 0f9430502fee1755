import JewelCase.Store.Counts
import Mathlib.Data.List.Induction

/-!
# Runs of recording and clearing

After any calls that succeed, from no problems, the tables hold the last problem recorded at each
path and not cleared since, every group counts what it holds, and none is empty.
-/
namespace JewelCase.Store

open JewelCase.Library

set_option autoImplicit false

theorem Group.seen_same (g : Group) (library : Int) (key : Text) (seenAt : Int) :
    (g.seen library key seenAt).id = g.id ∧ (g.seen library key seenAt).kind = g.kind ∧
      (g.seen library key seenAt).groupKey = g.groupKey ∧
      (g.seen library key seenAt).count = g.count := by
  unfold Group.seen
  split <;> exact ⟨rfl, rfl, rfl, rfl⟩

namespace Tables

variable {s t : Tables} {key : Key} {problem : Problem}

/-- What a problem's group is opened in: the group is there, of the problem's kind, and nothing else
is changed that is seen. -/
structure Opened (s : Tables) (problem : Problem) (group : Int) (t : Tables) : Prop where
  tally : t.Tally fun _ => 0
  filled : t.Filled (· = group)
  rows : t.problems = s.problems
  group : ∃ g ∈ t.groups, g.id = group ∧ g.kind = problem.kind
  sees : ∀ {k r}, t.Sees k r ↔ s.Sees k r

theorem Sound.upsertGroup (h : s.Sound) {drawn library group : Int} {groupKey rest : Text}
    (hkey : groupKey = problem.kind.name ++ '|' :: rest)
    (hup : s.upsertGroup drawn library groupKey problem = some (group, t)) :
    Opened s problem group t := by
  obtain ⟨htally, hfilled⟩ := sound_iff.1 h
  unfold Tables.upsertGroup at hup
  split at hup
  case h_1 found hfound =>
    obtain ⟨rfl, rfl⟩ := Prod.mk.inj (Option.some.inj hup)
    have hsame := fun g : Group => g.seen_same library groupKey problem.seenAt
    have hmem := List.mem_of_find?_eq_some hfound
    have hfoundKey := List.find?_some hfound
    rw [decide_eq_true_eq] at hfoundKey
    have hids : (s.groups.map fun g => g.seen library groupKey problem.seenAt).map Group.id =
        s.groups.map Group.id := by
      rw [List.map_map]
      exact List.map_congr_left fun g _ => (hsame g).1
    refine ⟨⟨h.rows, by rw [hids]; exact h.ids, ?_, ?_, ?_⟩, ?_, rfl, ?_, ?_⟩
    · intro g hg
      obtain ⟨held, hheld, rfl⟩ := List.mem_map.mp hg
      rw [(hsame held).2.1, (hsame held).2.2.1]
      exact h.kinds held hheld
    · intro row hrow
      obtain ⟨g, hg, hid⟩ := h.placed row hrow
      exact ⟨_, List.mem_map.mpr ⟨g, hg, rfl⟩, (hsame g).1.trans hid⟩
    · intro g hg
      obtain ⟨held, hheld, rfl⟩ := List.mem_map.mp hg
      rw [(hsame held).1, (hsame held).2.2.2]
      exact htally.counts held hheld
    · intro g hg
      obtain ⟨held, hheld, rfl⟩ := List.mem_map.mp hg
      rw [(hsame held).1]
      exact Or.inr (h.filled held hheld)
    · refine ⟨_, List.mem_map.mpr ⟨found, hmem, rfl⟩, (hsame found).1, (hsame found).2.1.trans ?_⟩
      obtain ⟨rest', hrest⟩ := h.kinds found hmem
      exact kind_of_key (hrest.symm.trans (hfoundKey.2.trans hkey))
    · intro k r
      refine sees_of_groups (t := s) ?_ ?_
      · rfl
      intro row _ kind
      constructor
      · rintro ⟨g, hg, hid, hkind⟩
        obtain ⟨held, hheld, rfl⟩ := List.mem_map.mp hg
        exact ⟨held, hheld, (hsame held).1.symm.trans hid, (hsame held).2.1.symm.trans hkind⟩
      · rintro ⟨g, hg, hid, hkind⟩
        exact ⟨_, List.mem_map.mpr ⟨g, hg, rfl⟩, (hsame g).1.trans hid, (hsame g).2.1.trans hkind⟩
  case h_2 =>
    split at hup
    case isTrue => cases hup
    case isFalse hfresh =>
      obtain ⟨rfl, rfl⟩ := Prod.mk.inj (Option.some.inj hup)
      have hnew : ∀ g ∈ s.groups, g.id ≠ drawn := by
        intro g hg hid
        exact hfresh (List.any_eq_true.mpr ⟨g, hg, decide_eq_true hid⟩)
      have hnone : ∀ row ∈ s.problems, row.group ≠ drawn := by
        intro row hrow hgroup
        obtain ⟨g, hg, hid⟩ := h.placed row hrow
        exact hnew g hg (hid.trans hgroup)
      have hempty : s.held drawn = 0 := by
        rw [held, List.countP_eq_zero]
        intro row hrow
        rw [decide_eq_true_eq]
        exact hnone row hrow
      refine ⟨⟨h.rows, ?_, ?_, ?_, ?_⟩, ?_, rfl, ?_, ?_⟩
      · rw [List.map_append, List.nodup_append]
        refine ⟨h.ids, List.nodup_singleton _, ?_⟩
        intro id hid other hother
        obtain ⟨g, hg, rfl⟩ := List.mem_map.mp hid
        obtain rfl := List.mem_singleton.mp hother
        exact hnew g hg
      · intro g hg
        rcases List.mem_append.mp hg with hg | hg
        · exact h.kinds g hg
        · obtain rfl := List.mem_singleton.mp hg
          exact ⟨rest, hkey⟩
      · intro row hrow
        obtain ⟨g, hg, hid⟩ := h.placed row hrow
        exact ⟨g, List.mem_append_left _ hg, hid⟩
      · intro g hg
        rcases List.mem_append.mp hg with hg | hg
        · exact htally.counts g hg
        · obtain rfl := List.mem_singleton.mp hg
          exact congrArg Int.ofNat hempty.symm
      · intro g hg
        rcases List.mem_append.mp hg with hg | hg
        · exact Or.inr (h.filled g hg)
        · obtain rfl := List.mem_singleton.mp hg
          exact Or.inl rfl
      · exact ⟨_, List.mem_append_right _ (List.mem_singleton.mpr rfl), rfl, rfl⟩
      · intro k r
        refine sees_of_groups (t := s) ?_ ?_
        · rfl
        intro row hrow kind
        constructor
        · rintro ⟨g, hg, hid, hkind⟩
          rcases List.mem_append.mp hg with hg | hg
          · exact ⟨g, hg, hid, hkind⟩
          · obtain rfl := List.mem_singleton.mp hg
            exact absurd hid.symm (hnone row hrow)
        · rintro ⟨g, hg, h⟩
          exact ⟨g, List.mem_append_left _ hg, h⟩

theorem sound_of {owed : Int → Int} {spared : Int → Prop} (h : s.Tally owed)
    (hfilled : s.Filled spared) (howed : ∀ i, owed i = 0) (hspared : ∀ i, ¬ spared i) : s.Sound := by
  obtain rfl : owed = fun _ => 0 := funext howed
  exact sound_iff.2 ⟨h, fun g hg => Or.inr ((hfilled g hg).resolve_left (hspared g.id))⟩

theorem Sound.tally (h : s.Sound) : s.Tally fun _ => 0 := (sound_iff.1 h).1

/-- What a path has is what is seen there. -/
theorem Sound.recorded_eq_some (h : s.Sound) {r : Recorded} : s.recorded key = some r ↔ s.Sees key r :=
  h.tally.recorded_eq_some

end Tables

open Tables

variable {roots : Roots} {s t : Tables} {key : Key}

/-- A problem that is recorded is its path's, and no other path's is changed. -/
theorem Tables.Sound.recordProblem (h : s.Sound) {library drawn : Int} {problem : Problem}
    (hrecord : recordProblem roots s library problem drawn = some t) :
    t.Sound ∧ ∀ k r, t.Sees k r ↔
      if roots.locate library problem.path = some k then
        r = ⟨problem.kind, problem.detail, problem.seenAt⟩
      else s.Sees k r := by
  unfold Store.recordProblem at hrecord
  split at hrecord
  case h_1 hnowhere =>
    obtain rfl := Option.some.inj hrecord
    refine ⟨h, fun k r => ?_⟩
    rw [hnowhere, if_neg (by simp)]
  case h_2 rootId rel hlocate =>
    obtain ⟨root, hroot⟩ := Roots.root_of_locate hlocate
    rw [hroot] at hrecord
    obtain ⟨⟨group, opened⟩, hup, hrecord⟩ := Option.bind_eq_some_iff.mp hrecord
    have hopened := h.upsertGroup rfl hup
    have hkey : ∀ k : Key, some (rootId, rel) = some k ↔ k = (rootId, rel) := fun k =>
      ⟨fun h => (Option.some.inj h).symm, fun h => congrArg some h.symm⟩
    simp only [hlocate, hkey]
    obtain ⟨g, hg, hid, hkind⟩ := hopened.group
    change (if opened.groupAt (rootId, rel) = some group then _ else _) = _ at hrecord
    split at hrecord
    case isTrue hsame =>
      obtain rfl := Option.some.inj hrecord
      constructor
      · have hfull : opened.Filled fun _ => False := by
          intro held hheld
          refine Or.inr ((hopened.filled held hheld).elim ?_ id)
          rintro rfl
          obtain ⟨row, hrow, _, hgroup⟩ := hopened.tally.groupAt_eq_some.mp hsame
          rw [Tables.held, List.countP_pos_iff]
          exact ⟨row, hrow, decide_eq_true hgroup⟩
        exact sound_of (hopened.tally.updateRow _ problem) (hfull.updateRow _ problem) (fun _ => rfl)
          fun _ => id
      · intro k r
        rw [← hid] at hsame
        rw [hopened.tally.sees_updateRow hg hsame, hkind, hopened.sees]
    case isFalse hother =>
      let row : Row :=
        { library := library, group := group, root := rootId, path := rel
          detail := problem.detail, seenAt := problem.seenAt }
      have hnew : ∀ held ∈ (opened.deleteRow (rootId, rel)).problems, held.key ≠ row.key :=
        fun held hheld => (Keyed.mem_without.mp hheld).2
      have htally := (((hopened.tally.deleteRow (rootId, rel)).insertRow hnew
        ⟨g, hg, hid⟩).countInGroup group 1)
      have hfilled := ((hopened.filled.deleteRow hopened.tally (rootId, rel)).insertRow
        row).countInGroup group 1
      have hsees : ∀ k r, (((opened.deleteRow (rootId, rel)).insertRow row).countInGroup group
          1).Sees k r ↔
          if k = (rootId, rel) then r = ⟨problem.kind, problem.detail, problem.seenAt⟩
          else s.Sees k r := by
        intro k r
        rw [sees_countInGroup, sees_insertRow, sees_deleteRow, hopened.sees]
        split
        case isTrue hk =>
          constructor
          · rintro (h | ⟨_, held, hheld, hgroup, rfl⟩)
            · exact absurd hk h.1
            · obtain rfl := List.inj_on_of_nodup_map hopened.tally.ids hheld hg
                (hgroup.trans hid.symm)
              rw [hkind]
          · rintro rfl
            exact Or.inr ⟨hk.symm, g, hg, hid, by rw [hkind]⟩
        case isFalse hk =>
          constructor
          · rintro (h | ⟨hrow, _⟩)
            · exact h.2
            · exact absurd hrow.symm hk
          · exact fun h => Or.inl ⟨hk, h⟩
      cases hexisting : opened.groupAt (rootId, rel) with
      | none =>
        rw [hexisting] at hrecord htally hfilled
        obtain rfl := Option.some.inj hrecord
        refine ⟨sound_of htally hfilled ?_ ?_, hsees⟩
        · intro i
          simp only [row, reduceCtorEq, if_false, eq_comm (a := i)]
          omega
        · rintro i ⟨⟨hspared | hleft, hi⟩, _⟩
          · exact hi hspared.symm
          · cases hleft
      | some old =>
        rw [hexisting] at hrecord htally hfilled
        obtain rfl := Option.some.inj hrecord
        refine ⟨sound_of (htally.countInGroup old (-1)) (hfilled.countInGroup old (-1)) ?_ ?_, ?_⟩
        · intro i
          simp only [row, Option.some.injEq, eq_comm (a := i)]
          omega
        · rintro i ⟨⟨⟨hspared | hleft, hi⟩, _⟩, hgone⟩
          · exact hi hspared.symm
          · exact hgone (by decide) (Option.some.inj hleft).symm
        · intro k r
          rw [sees_countInGroup, hsees]

/-- A problem that is cleared is gone, and no other path's is changed. -/
theorem Tables.Sound.clearProblemRel (h : s.Sound) {group : Int}
    (hgroup : s.groupAt key = some group) :
    (clearProblemRel s key (some group)).Sound ∧
      ∀ k r, (clearProblemRel s key (some group)).Sees k r ↔ k ≠ key ∧ s.Sees k r := by
  obtain ⟨htally, hfilled⟩ := sound_iff.1 h
  have hleft := (htally.deleteRow key).countInGroup group (-1)
  have hkept := (hfilled.deleteRow htally key).countInGroup group (-1)
  rw [hgroup] at hleft hkept
  constructor
  · refine sound_of hleft hkept ?_ ?_
    · intro i
      simp only [Option.some.injEq, eq_comm (a := i)]
      omega
    · rintro i ⟨hspared | hsame, hgone⟩
      · exact hspared
      · exact hgone (by decide) (Option.some.inj hsame).symm
  · intro k r
    rw [Store.clearProblemRel, sees_countInGroup, sees_deleteRow]

theorem Tables.Sound.recorded_ext (h : s.Sound) {k : Key} {o : Option Recorded}
    (hsees : ∀ r, s.Sees k r ↔ o = some r) : s.recorded k = o := by
  apply Option.ext
  intro r
  rw [h.recorded_eq_some, hsees]

/-- The group of what a path has, of its kind. -/
theorem Tables.Sound.groupAt_of_recorded (h : s.Sound) {r : Recorded} (hr : s.recorded key = some r) :
    ∃ g ∈ s.groups, s.groupAt key = some g.id ∧ g.kind = r.kind := by
  obtain ⟨row, hrow, hkey, g, hg, hid, rfl⟩ := h.recorded_eq_some.mp hr
  exact ⟨g, hg, h.tally.groupAt_eq_some.mpr ⟨row, hrow, hkey, hid.symm⟩, rfl⟩

/-- Clearing what a path has, if `p` asks for it. -/
theorem Tables.Sound.clear (h : s.Sound) {group : Option Int} {p : Recorded → Bool}
    (hgroup : ∀ g ∈ group, s.groupAt key = some g)
    (hasked : ∀ r, s.recorded key = some r → (group.isSome ↔ p r = true)) :
    (Store.clearProblemRel s key group).Sound ∧
      ∀ k, (Store.clearProblemRel s key group).recorded k =
        if key = k then (s.recorded k).filter fun r => !p r else s.recorded k := by
  cases group with
  | none =>
    refine ⟨h, fun k => ?_⟩
    split
    case isTrue hk =>
      subst hk
      cases hr : s.recorded key with
      | none => exact hr
      | some r =>
        have hkeep : p r = false := by simpa using hasked r hr
        rw [Option.filter_some_pos (by rw [hkeep]; rfl)]
        exact hr
    case isFalse => rfl
  | some group =>
    obtain ⟨hsound, hsees⟩ := h.clearProblemRel (hgroup group rfl)
    refine ⟨hsound, fun k => hsound.recorded_ext fun r => ?_⟩
    rw [hsees, ← h.recorded_eq_some]
    split
    case isTrue hk =>
      subst hk
      refine iff_of_false (fun h => h.1 rfl) ?_
      intro hr
      obtain ⟨hr, hkeep⟩ := Option.filter_eq_some_iff.mp hr
      rw [(hasked r hr).mp rfl] at hkeep
      cases hkeep
    case isFalse hk => exact and_iff_right (Ne.symm hk)

/-- A call that succeeds keeps the tables sound, and what each path has is what the call leaves
there. -/
theorem Tables.Sound.apply (h : s.Sound) {call : Call} (happly : apply roots s call = some t) :
    t.Sound ∧ ∀ k, t.recorded k = call.held roots s.recorded k := by
  cases call with
  | record library problem drawn =>
    obtain ⟨hsound, hsees⟩ := h.recordProblem happly
    refine ⟨hsound, fun k => hsound.recorded_ext fun r => ?_⟩
    rw [hsees, Call.held]
    split
    · rw [Option.some.injEq, eq_comm]
    · rw [← h.recorded_eq_some]
  | clear library path =>
    obtain rfl := Option.some.inj happly
    unfold clearProblem
    cases hlocate : roots.locate library path with
    | none => exact ⟨h, fun k => by simp [Call.held, hlocate]⟩
    | some key =>
      have hasked : ∀ r, s.recorded key = some r → ((s.groupAt key).isSome ↔ true = true) := by
        intro r hr
        obtain ⟨g, _, hgroup, _⟩ := h.groupAt_of_recorded hr
        rw [hgroup]
        exact iff_of_true rfl rfl
      obtain ⟨hsound, hrecorded⟩ := h.clear (p := fun _ => true) (fun g hg => hg) hasked
      refine ⟨hsound, fun k => (hrecorded k).trans ?_⟩
      have hnone : ∀ o : Option Recorded, (o.filter fun _ => !true) = none := by
        intro o
        cases o <;> rfl
      simp only [Call.held, hlocate, Option.some.injEq, hnone]
  | clearOf library path kinds =>
    obtain rfl := Option.some.inj happly
    unfold clearProblemOf
    cases hlocate : roots.locate library path with
    | none => exact ⟨h, fun k => by simp [Call.held, hlocate]⟩
    | some key =>
      have hfind : ∀ {group id : Int}, ((s.groups.find? fun g =>
          decide (g.id = group ∧ g.kind ∈ kinds)).map (·.id)) = some id → id = group := by
        intro group id hid
        obtain ⟨g, hg, rfl⟩ := Option.map_eq_some_iff.mp hid
        have hboth := List.find?_some hg
        exact (of_decide_eq_true hboth).1
      have hasked : ∀ r, s.recorded key = some r → (((s.groupAt key).bind fun group =>
          (s.groups.find? fun g => decide (g.id = group ∧ g.kind ∈ kinds)).map (·.id)).isSome ↔
          decide (r.kind ∈ kinds) = true) := by
        intro r hr
        obtain ⟨g, hg, hgroup, hkind⟩ := h.groupAt_of_recorded hr
        rw [hgroup, Option.bind_some, Option.isSome_map, List.find?_isSome, decide_eq_true_eq]
        constructor
        · rintro ⟨other, hother, hboth⟩
          obtain ⟨hid, hmem⟩ := of_decide_eq_true hboth
          obtain rfl := List.inj_on_of_nodup_map h.ids hother hg hid
          rwa [hkind] at hmem
        · intro hmem
          exact ⟨g, hg, decide_eq_true ⟨rfl, hkind ▸ hmem⟩⟩
      have hgroup : ∀ g ∈ (s.groupAt key).bind fun group =>
          (s.groups.find? fun g => decide (g.id = group ∧ g.kind ∈ kinds)).map (·.id),
          s.groupAt key = some g := by
        intro id hid
        obtain ⟨group, hat, hid⟩ := Option.bind_eq_some_iff.mp hid
        rw [hfind hid, hat]
      obtain ⟨hsound, hrecorded⟩ := h.clear (p := fun r => decide (r.kind ∈ kinds)) hgroup hasked
      refine ⟨hsound, fun k => (hrecorded k).trans ?_⟩
      simp [Call.held, hlocate]

/-! ### Runs -/

theorem heldAfter_concat (calls : List Call) (call : Call) :
    heldAfter roots (calls ++ [call]) = call.held roots (heldAfter roots calls) := by
  rw [heldAfter, List.foldl_append]
  rfl

theorem sound_empty : Tables.Sound ⟨[], []⟩ where
  rows := List.nodup_nil
  ids := List.nodup_nil
  kinds := fun _ hg => by cases hg
  placed := fun _ hrow => by cases hrow
  counts := fun _ hg => by cases hg
  filled := fun _ hg => by cases hg

/-- The tables after a run are sound and hold what the run left. -/
theorem applyAll_sound {calls : List Call} (h : applyAll roots calls = some s) :
    s.Sound ∧ s.recorded = heldAfter roots calls := by
  induction calls using List.reverseRecOn generalizing s with
  | nil =>
    obtain rfl := Option.some.inj h
    exact ⟨sound_empty, rfl⟩
  | append_singleton calls call ih =>
    rw [applyAll, List.foldlM_append] at h
    obtain ⟨before, hbefore, hcall⟩ := Option.bind_eq_some_iff.mp h
    obtain ⟨hsound, hheld⟩ := ih hbefore
    rw [List.foldlM_cons] at hcall
    obtain ⟨after, hafter, hcall⟩ := Option.bind_eq_some_iff.mp hcall
    obtain rfl := Option.some.inj hcall
    obtain ⟨hsound', hrecorded⟩ := hsound.apply hafter
    exact ⟨hsound', by rw [heldAfter_concat, ← hheld]; exact funext hrecorded⟩

/-- What a call that clears kinds takes out: the path's problem, if its group is of one of them. -/
theorem mem_clearProblemOf (h : s.Sound) {library : Int} {path : FilePath} {kinds : List ProblemKind}
    {row : Row} :
    row ∈ (clearProblemOf roots s library path kinds).problems ↔
      row ∈ s.problems ∧ ¬ (roots.locate library path = some row.key ∧
        ∃ g ∈ s.groups, g.id = row.group ∧ g.kind ∈ kinds) := by
  have hfind : ∀ {group id : Int}, ((s.groups.find? fun g =>
      decide (g.id = group ∧ g.kind ∈ kinds)).map (·.id)) = some id →
      ∃ g ∈ s.groups, g.id = group ∧ g.kind ∈ kinds := by
    intro group id hid
    obtain ⟨g, hg, _⟩ := Option.map_eq_some_iff.mp hid
    have hboth := List.find?_some hg
    exact ⟨g, List.mem_of_find?_eq_some hg, of_decide_eq_true hboth⟩
  unfold clearProblemOf
  cases hlocate : roots.locate library path with
  | none => exact ⟨fun hrow => ⟨hrow, fun h => by cases h.1⟩, fun h => h.1⟩
  | some key =>
    dsimp only
    cases hasked : (s.groupAt key).bind fun group => (s.groups.find? fun g =>
        decide (g.id = group ∧ g.kind ∈ kinds)).map (·.id) with
    | none =>
      refine ⟨fun hrow => ⟨hrow, ?_⟩, fun h => h.1⟩
      rintro ⟨hkey, g, hg, hid, hkind⟩
      have hat := h.tally.groupAt_eq_some.mpr ⟨row, hrow, (Option.some.inj hkey).symm, rfl⟩
      rw [hat, Option.bind_some, Option.map_eq_none_iff, List.find?_eq_none] at hasked
      exact hasked g hg (decide_eq_true ⟨hid, hkind⟩)
    | some id =>
      obtain ⟨group, hat, hid⟩ := Option.bind_eq_some_iff.mp hasked
      obtain ⟨g, hg, hgroup, hkind⟩ := hfind hid
      change row ∈ ((s.deleteRow key).countInGroup id (-1)).problems ↔ _
      rw [problems_countInGroup, deleteRow, Keyed.mem_without]
      refine and_congr_right fun hrow => not_congr ⟨?_, fun h => (Option.some.inj h.1).symm⟩
      rintro rfl
      obtain ⟨held, hheld, hkey, hin⟩ := h.tally.groupAt_eq_some.mp hat
      obtain rfl := List.inj_on_of_nodup_map h.rows hheld hrow hkey
      exact ⟨rfl, g, hg, hgroup.trans hin.symm, hkind⟩

/-- **Groups count what they hold.** After any calls that succeed, a path as it is stored has at most
one problem: the last recorded there unless it was cleared since. Paths whose names are UTF-8 are stored
apart. A group's count is how many problems it holds, which is never none. Clearing kinds takes out a
path's problem exactly if its group is of one of them, and nothing else. -/
theorem groups_count {calls : List Call} (h : applyAll roots calls = some s) :
    s.Sound ∧ (∀ key, s.recorded key = heldAfter roots calls key) ∧
    (∀ library library' path other key, FilePath.IsUtf8 path → FilePath.IsUtf8 other →
      roots.locate library path = some key → roots.locate library' other = some key →
        library = library' ∧ path = other) ∧
    (∀ g ∈ s.groups, g.count = s.problems.countP (fun row => row.group = g.id) ∧ 0 < g.count) ∧
    ∀ library path kinds row,
      row ∈ (clearProblemOf roots s library path kinds).problems ↔
        row ∈ s.problems ∧ ¬ (roots.locate library path = some row.key ∧
          ∃ g ∈ s.groups, g.id = row.group ∧ g.kind ∈ kinds) := by
  obtain ⟨hsound, hheld⟩ := applyAll_sound h
  refine ⟨hsound, fun key => congrFun hheld key, ?_, ?_, ?_⟩
  · intro library library' path other key hpath hother hlocate hlocate'
    exact Roots.locate_inj hpath hother hlocate hlocate'
  · intro g hg
    have hcount := hsound.counts g hg
    have hfull := hsound.filled g hg
    exact ⟨hcount, by omega⟩
  · intro library path kinds row
    exact mem_clearProblemOf hsound

/-- One library, whose root is `/`. -/
def oneRoot : Roots where
  active library := if library = 1 then [⟨7, []⟩] else []
  distinct := by
    intro library other root hroot held hheld _
    split at hroot
    · split at hheld
      · rename_i hlibrary hother
        exact ⟨hlibrary.trans hother.symm,
          (List.mem_singleton.mp hroot).trans (List.mem_singleton.mp hheld).symm⟩
      · cases hheld
    · cases hroot

/-- A problem that is recorded again as another kind leaves its group, which goes; and a file of another
UTF-8 name is stored apart. -/
theorem groups_count_moved :
    (⟨[⟨6, 1, .corruptAudio, "CorruptAudio|/|".toList, [], 1, 100, 100⟩],
      [⟨1, 6, 7, ['p'], [], 100⟩]⟩ : Tables).Sound ∧
      oneRoot.locate 1 [[112]] ≠ oneRoot.locate 1 [[0xC3, 0xA9]] := by
  have hcount := @groups_count oneRoot
    ⟨[⟨6, 1, .corruptAudio, "CorruptAudio|/|".toList, [], 1, 100, 100⟩], [⟨1, 6, 7, ['p'], [], 100⟩]⟩
    [.record 1 ⟨[[112]], .unreadable, [], 100⟩ 5, .record 1 ⟨[[112]], .corruptAudio, [], 100⟩ 6]
    (by decide +kernel)
  refine ⟨hcount.1, fun hsame => ?_⟩
  have hp : oneRoot.locate 1 [[112]] = some (7, ['p']) := by decide +kernel
  have hpath : FilePath.IsUtf8 [[112]] := by
    intro name hname
    exact ⟨['p'], by decide, by decide, (List.mem_singleton.mp hname).trans (by decide +kernel)⟩
  have hother : FilePath.IsUtf8 [[0xC3, 0xA9]] := by
    intro name hname
    exact ⟨['é'], by decide, by decide, (List.mem_singleton.mp hname).trans (by decide +kernel)⟩
  have heq := (hcount.2.2.1 1 1 [[112]] [[0xC3, 0xA9]] (7, ['p']) hpath hother hp (hsame ▸ hp)).2
  revert heq
  decide

/-- Two files whose names are not UTF-8 are stored at one path, where the problem recorded last is. -/
theorem not_utf8_shared :
    let calls : List Call := [.record 1 ⟨[[0xFF]], .unreadable, [], 100⟩ 5,
      .record 1 ⟨[[0xFE]], .corruptAudio, [], 100⟩ 6]
    oneRoot.locate 1 [[0xFF]] = oneRoot.locate 1 [[0xFE]] ∧
      (applyAll oneRoot calls).map (fun s => s.problems.length) = some 1 ∧
      ∀ key, oneRoot.locate 1 [[0xFF]] = some key →
        (applyAll oneRoot calls).map (fun s => s.recorded key) =
          some (some ⟨.corruptAudio, [], 100⟩) := by
  have hlocate : oneRoot.locate 1 [[0xFF]] = some (7, [Library.Utf8.replacement]) := by
    decide +kernel
  refine ⟨by decide +kernel, by decide +kernel, fun key hkey => ?_⟩
  obtain rfl := Option.some.inj (hlocate.symm.trans hkey)
  decide +kernel

end JewelCase.Store
