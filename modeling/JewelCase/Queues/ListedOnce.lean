import JewelCase.Queues.Listing

/-!
# Each kept queue is listed once

The rows a page reads are bounded before the ones that memory hides are left out of them, so a page
may say it is the last while rows past the ones it read remain.
-/
namespace JewelCase.Queues

open JewelCase.Library.Pages (Followed)
open JewelCase.Library.Windows

set_option autoImplicit false

/-! ### What is to be listed -/

/-- The adjusted queues parked in memory. -/
def adjusted (account : Option Account) : List Queue :=
  account.elim [] fun account => account.parked.filter (·.state.adjusted)

/-- The IDs of the queues in memory. -/
def inMemory (account : Option Account) : List Uuid :=
  account.elim [] fun account => ids account.parked ++ [account.queueId]

/-- The keys of the adjusted parked queues. -/
def unsavedKeys (account : Option Account) : List Key :=
  (adjusted account).map fun queue => toLex (UNSAVED, queue.queueId)

/-- The keys of the stored kept queues that can be read and are not in memory. -/
def savedKeys (account : Option Account) (disk : Disk) : List Key :=
  (disk.rows.filter fun row => ¬row.active ∧ row.content.isSome ∧ row.queueId ∉ inMemory account)
    |>.filterMap Stored.key

/-- The queues to be listed: the unsaved ones, then the stored ones, each newest first. -/
def expected (account : Option Account) (disk : Disk) : List Uuid :=
  (newest id (unsavedKeys account) ++ newest id (savedKeys account disk)).map fun key =>
    (ofLex key).2

/-- The pages from the first to the last, each asked for at some time, list each queue once. -/
def ListsEach (readTracks : List Slot → HeldLists → List (Option Nat)) (account : Option Account)
    (disk : Disk) (clock : Option Key → Int) (limit : Nat) : Prop :=
  ∃ pages : List (List Uuid), Followed (ε := Empty) (fun after =>
      let listed := kept readTracks account disk (clock after) after limit
      .ok (listed.entries.map (·.queueId), listed.next)) none pages ∧
    pages.flatten = expected account disk ∧ (expected account disk).Nodup

/-! ### When they are -/

/-- Whether a queue listed under a key can be read. -/
abbrev Mark := Key × Bool

/-- The adjusted parked queues, in the order of the listing. -/
def unsaved (account : Option Account) : List Mark :=
  newest Prod.fst ((unsavedKeys account).map (·, true))

/-- The stored kept queues, in the order of the listing. -/
def saved (disk : Disk) : List Mark :=
  newest Prod.fst ((disk.rows.filter fun row => ¬row.active).filterMap fun row =>
    row.key.map (·, row.content.isSome))

/-- Whether a stored queue is not in memory. -/
def shown (account : Option Account) (row : Mark) : Bool := (ofLex row.1).2 ∉ inMemory account

/-- The adjusted parked queues have IDs of their own, and wherever a page starts, if a stored queue
to be listed is past the `limit + 1` rows it reads, no more of these are in memory than there are
adjusted parked queues still to list. -/
def RowsSuffice (account : Option Account) (disk : Disk) (limit : Nat) : Prop :=
  (ids (adjusted account)).Nodup ∧
    ShowsEnough Prod.fst (unsaved account) (saved disk) (shown account) Prod.snd limit

instance (account : Option Account) (disk : Disk) (limit : Nat) :
    Decidable (RowsSuffice account disk limit) := inferInstanceAs (Decidable (_ ∧ _))

/-- The rows of a table that has one for each queue and a time for each kept one, before the time of
those unsaved. -/
structure Disk.Tidy (disk : Disk) : Prop where
  distinct : (disk.rows.map (·.queueId)).Nodup
  timed : ∀ row ∈ disk.rows, row.active = false → ∃ time < UNSAVED, row.lastActive = some time

/-! ### Keys -/

namespace Disk.Tidy

variable {disk : Disk}

/-- Every kept row has its key. -/
theorem key (h : disk.Tidy) {row : Stored} (hrow : row ∈ disk.rows) (hkept : row.active = false) :
    ∃ time < UNSAVED, row.key = some (toLex (time, row.queueId)) := by
  obtain ⟨time, hlt, htime⟩ := h.timed row hrow hkept
  exact ⟨time, hlt, by rw [Stored.key, htime]; rfl⟩

/-- The keys of kept rows have the rows' IDs. -/
theorem map_ids (h : disk.Tidy) {rows : List Stored} (hsub : rows.Sublist disk.rows)
    (hkept : ∀ row ∈ rows, row.active = false) :
    (rows.filterMap Stored.key).map (fun key => (ofLex key).2) = rows.map (·.queueId) := by
  rw [List.map_filterMap]
  have hall : ∀ row ∈ rows, (row.key.map fun key => (ofLex key).2) = some row.queueId := by
    intro row hrow
    obtain ⟨time, -, hkey⟩ := h.key (hsub.subset hrow) (hkept row hrow)
    rw [hkey]
    rfl
  rw [List.filterMap_congr hall, List.filterMap_eq_map']

theorem nodup_keys (h : disk.Tidy) {rows : List Stored} (hsub : rows.Sublist disk.rows)
    (hkept : ∀ row ∈ rows, row.active = false) : (rows.filterMap Stored.key).Nodup := by
  refine List.Nodup.of_map (fun key => (ofLex key).2) ?_
  rw [h.map_ids hsub hkept]
  exact h.distinct.sublist (hsub.map _)

end Disk.Tidy

variable {account : Option Account} {disk : Disk}

/-- What a page knows of a candidate that it sorts, counts and leaves out. -/
def mark (candidate : Key × Option Draft) : Mark := (candidate.1, candidate.2.isSome)

theorem parked_hidden (account : Option Account) (now : Int) :
    (parked account now).hidden = inMemory account := by
  cases account <;> rfl

theorem parked_drafts (account : Option Account) (now : Int) : (parked account now).drafts =
    (adjusted account).map fun queue => Draft.new queue.queueId queue.context now queue.state := by
  cases account <;> rfl

theorem unsaved_keys (account : Option Account) :
    ((unsavedKeys account).map fun key => (key, true)).map Prod.fst = unsavedKeys account := by
  rw [List.map_map]
  exact List.map_id _

theorem nodup_unsaved (h : (ids (adjusted account)).Nodup) : (unsavedKeys account).Nodup := by
  refine List.Nodup.of_map (fun key => (ofLex key).2) ?_
  rw [unsavedKeys, List.map_map]
  exact h

theorem saved_keys (disk : Disk) :
    ((disk.rows.filter fun row => ¬row.active).filterMap fun row =>
        row.key.map (·, row.content.isSome)).map Prod.fst =
      (disk.rows.filter fun row => ¬row.active).filterMap Stored.key := by
  rw [List.map_filterMap]
  congr 1
  funext row
  cases row.key <;> rfl

theorem Disk.Tidy.nodup_saved (h : disk.Tidy) :
    (((disk.rows.filter fun row => ¬row.active).filterMap fun row =>
      row.key.map (·, row.content.isSome)).map Prod.fst).Nodup := by
  rw [saved_keys]
  exact h.nodup_keys List.filter_sublist fun row hrow => by simpa using (List.mem_filter.mp hrow).2

/-! ### The window of a page -/

/-- The rows that a page reads. -/
theorem map_stored (h : disk.Tidy) (after : Option Key) (limit : Nat) :
    (stored disk after limit).map mark = (remaining Prod.fst after (saved disk)).take limit := by
  have hchosen : ((disk.rows.filter fun row =>
        ¬row.active ∧ row.key.all fun key => after.all (key < ·)).filterMap
          Stored.candidate).map mark =
      ((disk.rows.filter fun row => ¬row.active).filterMap fun row =>
        row.key.map (·, row.content.isSome)).filter fun item =>
          after.all fun cursor => decide (item.1 < cursor) := by
    rw [List.map_filterMap, List.filterMap_filter, List.filter_filterMap, List.filterMap_filter]
    congr 1
    funext row
    cases hactive : row.active with
    | true => simp
    | false =>
      cases hkey : row.key with
      | none => simp [Stored.candidate, hkey]
      | some key =>
        by_cases hafter : after.all fun cursor => decide (key < cursor)
        · simp [Stored.candidate, hkey, hafter, mark, Option.filter_some]
        · simp [hafter, Option.filter_some]
  rw [stored, List.map_take, map_newest Prod.fst Prod.fst mark fun _ => rfl, hchosen,
    newest_filter h.nodup_saved]
  rfl

/-- The adjusted parked queues that a page starts with. -/
theorem map_drafts (h : (ids (adjusted account)).Nodup) (now : Int) (after : Option Key) :
    (newest Prod.fst (((parked account now).drafts.map fun draft =>
        (toLex (UNSAVED, draft.queueId), some draft)).filter fun draft =>
          after.all fun key => decide (draft.1 < key))).map mark =
      remaining Prod.fst after (unsaved account) := by
  have hmarked : ((parked account now).drafts.map fun draft =>
      (toLex (UNSAVED, draft.queueId), some draft)).map mark =
        (unsavedKeys account).map fun key => (key, true) := by
    rw [parked_drafts, unsavedKeys, List.map_map, List.map_map, List.map_map]
    rfl
  have hnodup : (((unsavedKeys account).map fun key => (key, true)).map Prod.fst).Nodup := by
    rw [unsaved_keys]
    exact nodup_unsaved h
  rw [map_newest Prod.fst Prod.fst mark fun _ => rfl, remaining, unsaved, ← newest_filter hnodup,
    ← hmarked]
  generalize ((parked account now).drafts.map fun draft =>
    ((toLex (UNSAVED, draft.queueId), some draft) : Key × Option Draft)) = drafts
  rw [List.filter_map]
  rfl

/-- A candidate's draft is the queue its key names. -/
def Named (candidate : Key × Option Draft) : Prop :=
  ∀ draft ∈ candidate.2, draft.queueId = (ofLex candidate.1).2

theorem named_stored (disk : Disk) (after : Option Key) (limit : Nat) :
    ∀ candidate ∈ stored disk after limit, Named candidate := by
  intro candidate hmem draft hdraft
  have hrow := (newest_perm _).mem_iff.mp (List.mem_of_mem_take hmem)
  obtain ⟨row, -, hrow⟩ := List.mem_filterMap.mp hrow
  rw [Stored.candidate, Stored.key] at hrow
  cases htime : row.lastActive with
  | none =>
    rw [htime] at hrow
    cases hrow
  | some time =>
    rw [htime] at hrow
    cases hrow
    obtain ⟨content, -, rfl⟩ := Option.map_eq_some_iff.mp hdraft
    rfl

theorem marked_ids {candidates : List (Key × Option Draft)} (h : ∀ c ∈ candidates, Named c) :
    (candidates.filterMap Prod.snd).map (·.queueId) =
      ((candidates.map mark).filter Prod.snd).map fun row => (ofLex row.1).2 := by
  induction candidates with
  | nil => rfl
  | cons candidate candidates ih =>
    obtain ⟨key, draft⟩ := candidate
    rw [List.forall_mem_cons] at h
    cases draft with
    | none => exact ih h.2
    | some draft =>
      exact List.cons_eq_cons.mpr ⟨h.1 draft rfl, ih h.2⟩

theorem entriesOf_ids (drafts : List Draft) (tracks : List (Option Nat)) :
    (entriesOf drafts tracks).map (·.queueId) = drafts.map (·.queueId) := by
  induction drafts generalizing tracks with
  | nil => rfl
  | cons draft drafts ih =>
    rw [entriesOf]
    cases draft.current with
    | none => simp only [List.map_cons, ih]
    | some slot => simp only [List.map_cons, ih]

/-- **A page of the listing is a page read through a window.** -/
theorem kept_page (readTracks : List Slot → HeldLists → List (Option Nat)) (h : disk.Tidy)
    (hids : (ids (adjusted account)).Nodup) (now : Int) (after : Option Key) (limit : Nat) :
    (kept readTracks account disk now after limit).entries.map (·.queueId) =
        ((page Prod.fst (unsaved account) (saved disk) (shown account) limit after).1.filter
          Prod.snd).map (fun row => (ofLex row.1).2) ∧
      (kept readTracks account disk now after limit).next =
        (page Prod.fst (unsaved account) (saved disk) (shown account) limit after).2 := by
  rw [kept]
  simp only
  have hdrafts := map_drafts hids now after
  have hrows : ((stored disk after (limit + 1)).filter fun row =>
      (ofLex row.1).2 ∉ (parked account now).hidden).map mark =
        ((remaining Prod.fst after (saved disk)).take (limit + 1)).filter (shown account) := by
    rw [← map_stored h, parked_hidden, List.filter_map]
    rfl
  have hnamed : ∀ c ∈ newest Prod.fst (((parked account now).drafts.map fun draft =>
        (toLex (UNSAVED, draft.queueId), some draft)).filter fun draft =>
          after.all fun key => decide (draft.1 < key)) ++
      (stored disk after (limit + 1)).filter fun row =>
        (ofLex row.1).2 ∉ (parked account now).hidden, Named c := by
    intro candidate hmem draft hdraft
    obtain hmem | hmem := List.mem_append.mp hmem
    · obtain ⟨found, -, rfl⟩ := List.mem_map.mp
        (List.mem_filter.mp ((newest_perm _).mem_iff.mp hmem)).1
      cases hdraft
      rfl
    · exact named_stored disk after _ candidate (List.mem_filter.mp hmem).1 draft hdraft
  generalize newest Prod.fst (((parked account now).drafts.map fun draft =>
    ((toLex (UNSAVED, draft.queueId), some draft) : Key × Option Draft)).filter fun draft =>
      after.all fun key => decide (draft.1 < key)) = drafts at hdrafts hnamed ⊢
  generalize ((stored disk after (limit + 1)).filter fun row =>
    decide ((ofLex row.1).2 ∉ (parked account now).hidden)) = rows at hrows hnamed ⊢
  have hfound : (drafts ++ rows).map mark =
      found Prod.fst (unsaved account) (saved disk) (shown account) limit after := by
    rw [List.map_append, hdrafts, hrows, found]
  rw [page, ← hfound, ← List.map_take, List.length_map]
  constructor
  · rw [entriesOf_ids, marked_ids fun c hc => hnamed c (List.mem_of_mem_take hc)]
  · rw [List.getLast?_map, Option.map_map]
    rfl

/-! ### The whole listing -/

theorem saved_sorted (h : disk.Tidy) : (saved disk).Pairwise fun a b => b.1 < a.1 :=
  newest_strict h.nodup_saved

/-- The keys of the listing are in order, the unsaved ones before every stored one. -/
theorem listing_sorted (h : disk.Tidy) (hids : (ids (adjusted account)).Nodup) :
    (listing (unsaved account) (saved disk) (shown account)).Pairwise fun a b => b.1 < a.1 := by
  refine List.pairwise_append.mpr ⟨newest_strict ?_, (saved_sorted h).sublist List.filter_sublist, ?_⟩
  · rw [unsaved_keys]
    exact nodup_unsaved hids
  · intro draft hdraft row hrow
    have hkey : draft.1 ∈ unsavedKeys account := by
      rw [← unsaved_keys]
      exact List.mem_map_of_mem ((newest_perm _).mem_iff.mp hdraft)
    obtain ⟨queue, -, hqueue⟩ := List.mem_map.mp hkey
    obtain ⟨found, hfound, hmark⟩ :=
      List.mem_filterMap.mp ((newest_perm _).mem_iff.mp (List.mem_filter.mp hrow).1)
    rw [List.mem_filter] at hfound
    obtain ⟨time, hlt, htime⟩ := h.key hfound.1 (by simpa using hfound.2)
    rw [htime, Option.map_some, Option.some.injEq] at hmark
    rw [← hqueue, ← hmark, Prod.Lex.toLex_lt_toLex]
    exact Or.inl hlt

/-- The queues to be listed are those of the listing that can be read. -/
theorem expected_eq (h : disk.Tidy) : expected account disk =
    ((listing (unsaved account) (saved disk) (shown account)).filter Prod.snd).map
      fun row => (ofLex row.1).2 := by
  have hunsaved : (unsaved account).filter Prod.snd =
      (newest id (unsavedKeys account)).map fun key => (key, true) := by
    rw [map_newest id Prod.fst (fun key => (key, true)) fun _ => rfl]
    refine List.filter_eq_self.mpr fun row hrow => ?_
    obtain ⟨key, -, rfl⟩ := List.mem_map.mp ((newest_perm _).mem_iff.mp hrow)
    rfl
  have hchosen : savedKeys account disk =
      (((disk.rows.filter fun row => ¬row.active).filterMap fun row =>
        row.key.map (·, row.content.isSome)).filter fun row =>
          row.2 && shown account row).map Prod.fst := by
    rw [savedKeys, List.filter_filterMap, List.map_filterMap, List.filterMap_filter,
      List.filterMap_filter]
    congr 1
    funext row
    rw [Stored.key]
    cases row.active with
    | true => simp
    | false =>
      cases row.lastActive with
      | none => simp
      | some time =>
        by_cases hread : row.content.isSome
        · by_cases hmem : row.queueId ∈ inMemory account
          · simp [hread, hmem, shown, Option.filter_some]
          · simp [hread, hmem, shown, Option.filter_some]
        · simp [hread, Option.filter_some]
  have hsaved : newest id (savedKeys account disk) =
      (((saved disk).filter (shown account)).filter Prod.snd).map Prod.fst := by
    rw [hchosen, ← map_newest Prod.fst id Prod.fst fun _ => rfl, newest_filter h.nodup_saved,
      List.filter_filter]
    rfl
  rw [expected, listing, List.filter_append, hunsaved, hsaved, List.map_append, List.map_append,
    List.map_map, List.map_map]
  rfl

/-- The queues to be listed have IDs of their own, if the adjusted parked ones do. -/
theorem expected_nodup (h : disk.Tidy) :
    (expected account disk).Nodup ↔ (ids (adjusted account)).Nodup := by
  have hunsaved : ((newest id (unsavedKeys account)).map fun key => (ofLex key).2).Perm
      (ids (adjusted account)) := by
    have hperm : ((newest id (unsavedKeys account)).map fun key => (ofLex key).2).Perm
        ((unsavedKeys account).map fun key => (ofLex key).2) := (newest_perm _).map _
    rwa [unsavedKeys, List.map_map] at hperm
  have hkept : ∀ row ∈ disk.rows.filter fun row =>
      ¬row.active ∧ row.content.isSome ∧ row.queueId ∉ inMemory account, row.active = false := by
    intro row hrow
    have hrow := (List.mem_filter.mp hrow).2
    simp only [decide_eq_true_eq, Bool.not_eq_true] at hrow
    exact hrow.1
  have hsaved : ((newest id (savedKeys account disk)).map fun key => (ofLex key).2).Perm
      ((disk.rows.filter fun row =>
        ¬row.active ∧ row.content.isSome ∧ row.queueId ∉ inMemory account).map (·.queueId)) := by
    rw [← h.map_ids List.filter_sublist hkept]
    exact (newest_perm _).map _
  rw [expected, List.map_append, List.nodup_append, hunsaved.nodup_iff]
  refine ⟨fun hall => hall.1, fun hids => ⟨hids, ?_, fun id hid other hother heq => ?_⟩⟩
  · rw [hsaved.nodup_iff]
    exact h.distinct.sublist (List.filter_sublist.map _)
  · subst heq
    obtain ⟨queue, hqueue, rfl⟩ := List.mem_map.mp (hunsaved.mem_iff.mp hid)
    obtain ⟨row, hrow, hid⟩ := List.mem_map.mp (hsaved.mem_iff.mp hother)
    have hrow := (List.mem_filter.mp hrow).2
    simp only [decide_eq_true_eq, hid] at hrow
    refine hrow.2.2 ?_
    cases account with
    | none => cases hqueue
    | some account =>
      exact List.mem_append_left _ (List.mem_map_of_mem (List.mem_filter.mp hqueue).1)

/-- **Each kept queue is listed once exactly if the rows read suffice.** -/
theorem lists_each_iff (readTracks : List Slot → HeldLists → List (Option Nat)) (h : disk.Tidy)
    (clock : Option Key → Int) {limit : Nat} (hl : 1 ≤ limit) :
    ListsEach readTracks account disk clock limit ↔ RowsSuffice account disk limit := by
  have hpages : (ids (adjusted account)).Nodup → ∃ pages : List (List Mark),
      Followed (ε := Empty) (fun after =>
        let listed := kept readTracks account disk (clock after) after limit
        .ok (listed.entries.map (·.queueId), listed.next)) none
        (pages.map fun page => (page.filter Prod.snd).map fun row => (ofLex row.1).2) ∧
      pages.flatten.Sublist (listing (unsaved account) (saved disk) (shown account)) ∧
      (pages.flatten.filter Prod.snd =
          (listing (unsaved account) (saved disk) (shown account)).filter Prod.snd ↔
        ShowsEnough Prod.fst (unsaved account) (saved disk) (shown account) Prod.snd limit) := by
    intro hids
    obtain ⟨pages, hfollowed, hsub, hiff⟩ :=
      followed_iff (ε := Empty) hl (listing_sorted h hids) (saved_sorted h)
    refine ⟨pages, hfollowed.map _ ?_, hsub, hiff⟩
    intro after page next hpage
    obtain ⟨hentries, hnext⟩ := kept_page readTracks h hids (clock after) after limit
    rw [Except.ok.injEq] at hpage
    simp only [hentries, hnext, hpage]
  have hlisted : ∀ pages : List (List Mark),
      (pages.map fun page => (page.filter Prod.snd).map fun row => (ofLex row.1).2).flatten =
        (pages.flatten.filter Prod.snd).map fun row => (ofLex row.1).2 := by
    intro pages
    rw [List.filter_flatten, List.map_flatten, List.map_map]
    rfl
  constructor
  · rintro ⟨pages, hfollowed, hall, hnodup⟩
    have hids := (expected_nodup h).mp hnodup
    obtain ⟨marks, hmarks, hsub, hiff⟩ := hpages hids
    refine ⟨hids, hiff.mp ((hsub.filter _).eq_of_length ?_)⟩
    rw [hfollowed.unique hmarks, hlisted, expected_eq h] at hall
    have hlength := congrArg List.length hall
    rwa [List.length_map, List.length_map] at hlength
  · rintro ⟨hids, hsuffice⟩
    obtain ⟨marks, hmarks, -, hiff⟩ := hpages hids
    refine ⟨_, hmarks, ?_, (expected_nodup h).mpr hids⟩
    rw [hlisted, hiff.mpr hsuffice, expected_eq h]

/-! ### The database of any run -/

namespace Disk.Tidy

theorem delete (h : disk.Tidy) (id : Uuid) : (disk.delete id).Tidy :=
  ⟨h.distinct.sublist (List.filter_sublist.map _), fun row hrow =>
    h.timed row (List.mem_filter.mp hrow).1⟩

theorem put (h : disk.Tidy) {row : Stored}
    (hrow : row.active = false → ∃ time < UNSAVED, row.lastActive = some time) :
    (disk.put row).Tidy := by
  constructor
  · rw [Disk.put, List.map_append, List.nodup_append]
    refine ⟨h.distinct.sublist (List.filter_sublist.map _), List.nodup_singleton _, ?_⟩
    intro id hid other hother heq
    rw [List.map_singleton, List.mem_singleton] at hother
    obtain ⟨before, hbefore, rfl⟩ := List.mem_map.mp hid
    have hne := (List.mem_filter.mp hbefore).2
    simp only [decide_eq_true_eq] at hne
    exact hne (heq.trans hother)
  · intro other hother
    obtain hother | hother := List.mem_append.mp hother
    · exact h.timed other (List.mem_filter.mp hother).1
    · rw [List.mem_singleton.mp hother]
      exact hrow

theorem park (h : disk.Tidy) {now : Int} (hnow : now < UNSAVED) (queue : Queue) :
    (disk.park now queue).Tidy := by
  unfold Disk.park
  split
  · exact h.put fun _ => ⟨now, hnow, rfl⟩
  · exact h.delete queue.queueId

theorem writeQueue (h : disk.Tidy) {now : Int} (hnow : now < UNSAVED) (queue : Queue) :
    (disk.writeQueue now queue).Tidy := by
  refine put ⟨?_, fun row hrow hkept => ?_⟩ fun hactive => by (cases hactive)
  · have hids : (disk.rows.map fun row => if row.active ∧ row.queueId ≠ queue.queueId then
        { row with active := false, lastActive := some now } else row).map (·.queueId) =
          disk.rows.map (·.queueId) := by
      rw [List.map_map]
      refine List.map_congr_left fun row _ => ?_
      simp only [Function.comp_apply]
      split <;> rfl
    simp only [hids]
    exact h.distinct
  · obtain ⟨before, hbefore, rfl⟩ := List.mem_map.mp hrow
    split at hkept
    · rename_i hparked
      rw [if_pos hparked]
      exact ⟨now, hnow, rfl⟩
    · rename_i hsame
      rw [if_neg hsame]
      exact h.timed before hbefore hkept

theorem writeStatements (h : disk.Tidy) {now : Int} (hnow : now < UNSAVED) (pending : Pending) :
    (disk.writeStatements pending now).Tidy := by
  have hparked : ∀ parked : List Queue,
      (parked.foldl (fun disk queue => disk.park now queue) disk).Tidy := by
    intro parked
    induction parked using List.reverseRecOn with
    | nil => exact h
    | append_singleton parked last ih =>
      rw [List.foldl_append, List.foldl_cons, List.foldl_nil]
      exact ih.park hnow last
  have hlists : ∀ (lists : List (String × Held)) (disk : Disk), disk.Tidy →
      (lists.foldl insertList disk).Tidy := by
    intro lists
    induction lists with
    | nil => exact fun _ hdisk => hdisk
    | cons list lists ih =>
      intro disk hdisk
      refine ih _ ?_
      unfold insertList
      split
      · exact hdisk
      · exact ⟨hdisk.distinct, hdisk.timed⟩
  have hwritten := (hlists pending.lists _ (hparked pending.parked)).writeQueue hnow pending.active
  exact ⟨hwritten.distinct, hwritten.timed⟩

end Disk.Tidy

namespace Sys

/-- The database is tidy, and stays so if what is written is committed. -/
structure Tidy (s : Sys) : Prop where
  disk : s.disk.Tidy
  written : ∀ task disk, s.job = some (.written task disk) → disk.Tidy

variable {s : Sys}

theorem Tidy.ended (h : s.disk.Tidy) (hjob : s.job = none) : s.Tidy :=
  ⟨h, fun task disk hwritten => by (rw [hjob] at hwritten; cases hwritten)⟩

theorem Tidy.step (h : s.Tidy) (event : Event)
    (hnow : ∀ ok now, event = .write ok now → now < UNSAVED) : (s.step event).Tidy := by
  cases event with
  | edit queueId editId edit added => exact ⟨h.disk, h.written⟩
  | start new place =>
    rw [Sys.step]
    split
    · exact ⟨h.disk, h.written⟩
    · exact h
  | look queueId =>
    rw [Sys.step]
    split
    · exact ⟨h.disk, fun task disk hwritten => by (cases hwritten)⟩
    · exact ⟨h.disk, h.written⟩
    · exact h
  | take place =>
    rw [Sys.step]
    split
    · split
      · exact ⟨h.disk, fun task disk hwritten => by (cases hwritten)⟩
      · exact .ended h.disk rfl
    · exact h
  | delete queueId =>
    rw [Sys.step]
    split
    · exact ⟨h.disk, fun task disk hwritten => by (cases hwritten)⟩
    · exact ⟨h.disk, h.written⟩
    · exact h
  | save =>
    rw [Sys.step]
    split
    · exact ⟨h.disk, fun task disk hwritten => by (cases hwritten)⟩
    · exact h
  | write ok now =>
    have habandon : ∀ task error, (s.abandon task error).Tidy := by
      intro task error
      cases task with
      | restore request restored place => exact .ended h.disk rfl
      | delete request removed => cases removed <;> exact .ended h.disk rfl
      | save pending => exact .ended h.disk rfl
    rw [Sys.step]
    split
    · rename_i task hjob
      split
      · split
        · rename_i disk hwrite
          refine ⟨h.disk, fun task' disk' hwritten => ?_⟩
          cases hwritten
          cases task with
          | restore request restored place =>
            cases hwrite
            exact h.disk.writeStatements (hnow ok now rfl) _
          | delete request removed =>
            rw [Task.write, deleteStatements] at hwrite
            split_ifs at hwrite
            cases hwrite
            have hdeleted := h.disk.delete request.queueId
            exact ⟨hdeleted.distinct, hdeleted.timed⟩
          | save pending =>
            cases hwrite
            exact h.disk.writeStatements (hnow ok now rfl) _
        · exact habandon task _
      · exact habandon task _
    · exact h
  | commit ok =>
    rw [Sys.step]
    split
    · rename_i task disk hjob
      have hdisk := h.written task disk hjob
      split
      · cases task <;> exact .ended hdisk rfl
      · cases task with
        | restore request restored place => exact .ended h.disk rfl
        | delete request removed => cases removed <;> exact .ended h.disk rfl
        | save pending => exact .ended h.disk rfl
    · exact h
  | settle i =>
    rw [Sys.step]
    split
    · rename_i follow hfollow
      cases follow <;> exact ⟨h.disk, h.written⟩
    · exact h
  | restart => exact .ended h.disk rfl

/-- **The database of every run is tidy**, while the clock is before the time of those unsaved. -/
theorem tidy_run (events : List Event) (hclock : ∀ ok now, .write ok now ∈ events → now < UNSAVED) :
    (run events).Tidy := by
  induction events using List.reverseRecOn with
  | nil => exact .ended ⟨List.nodup_nil, fun row hrow => by (cases hrow)⟩ rfl
  | append_singleton events event ih =>
    rw [run, List.foldl_append, List.foldl_cons, List.foldl_nil]
    refine Tidy.step (ih fun ok now hmem => hclock ok now (List.mem_append_left _ hmem)) event ?_
    rintro ok now rfl
    exact hclock ok now (List.mem_append_right _ List.mem_cons_self)

/-- Three queues are kept, and the newest is being restored: it is active in memory, and kept in the
database. -/
def restoringThird : List Event :=
  [.start (twoTracks "1") none, .edit "1" "e1" (.remove [⟨"1", 1⟩]) none,
    .start (twoTracks "2") none, .edit "2" "e2" (.remove [⟨"2", 1⟩]) none,
    .start (twoTracks "3") none, .edit "3" "e3" (.remove [⟨"3", 1⟩]) none,
    .start (twoTracks "4") none, .save, .write true 10, .commit true, .settle 0,
    .look "3", .take none]

theorem tidy_restoringThird : (run restoringThird).disk.Tidy := by
  refine (tidy_run restoringThird fun ok now hmem => ?_).disk
  simp only [restoringThird, List.mem_cons, reduceCtorEq, Event.write.injEq, List.not_mem_nil,
    false_or, or_false] at hmem
  rw [hmem.2]
  decide

/-- Pages of two list the two queues kept but the one being restored. -/
theorem lists_each_of_two :
    ListsEach (fun _ _ => []) (run restoringThird).account (run restoringThird).disk
      (fun _ => 20) 2 :=
  (lists_each_iff (fun _ _ => []) tidy_restoringThird (fun _ => 20) (by decide)).mpr
    (by decide +kernel)

/-- The first page of one says it is the last, and the oldest queue is never listed. -/
theorem page_of_one_is_last :
    let s := run restoringThird
    let listed := kept (fun _ _ => []) s.account s.disk 20 none 1
    listed.entries.map (·.queueId) = ["2"] ∧ listed.next = none ∧
      expected s.account s.disk = ["2", "1"] ∧
      ¬ ListsEach (fun _ _ => []) s.account s.disk (fun _ => 20) 1 := by
  intro s listed
  have hentries : listed.entries.map (·.queueId) = ["2"] := by decide +kernel
  have hnext : listed.next = none := by decide +kernel
  have hexpected : expected s.account s.disk = ["2", "1"] := by decide +kernel
  refine ⟨hentries, hnext, hexpected, ?_⟩
  rintro ⟨pages, hfollowed, hall, -⟩
  have hlast : Followed (ε := Empty) (fun after =>
      let listed := kept (fun _ _ => []) s.account s.disk 20 after 1
      .ok (listed.entries.map (·.queueId), listed.next)) none [["2"]] :=
    .last (congrArg Except.ok (Prod.ext hentries hnext))
  rw [hfollowed.unique hlast, hexpected] at hall
  exact absurd hall (by decide)

end Sys

end JewelCase.Queues
