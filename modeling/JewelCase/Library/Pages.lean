import Mathlib.Data.List.Sort

/-!
# A list read in pages

Each page says where the next one begins, or that it is the last. A reader that gives up to `limit`
items of what is left, and goes on after the last of them, cuts the list into full pages and a last
one.
-/
namespace JewelCase.Library.Pages

set_option autoImplicit false

variable {ρ τ κ ε : Type}

/-! ### Pages followed -/

/-- The pages read from `after` to the end, each where the one before it says. -/
inductive Followed (read : Option κ → Except ε (List τ × Option κ)) :
    Option κ → List (List τ) → Prop
  | last {after : Option κ} {page : List τ} (h : read after = .ok (page, none)) :
      Followed read after [page]
  | next {after : Option κ} {page : List τ} {cursor : κ} {pages : List (List τ)}
      (h : read after = .ok (page, some cursor)) (rest : Followed read (some cursor) pages) :
      Followed read after (page :: pages)

/-- A list cut into pages: full ones, and a last one. -/
structure Cut (limit : Nat) (items : List τ) (pages : List (List τ)) : Prop where
  flatten : pages.flatten = items
  full : ∀ page ∈ pages.dropLast, page.length = limit
  most : ∀ page ∈ pages, page.length ≤ limit
  nonempty : items ≠ [] → ∀ page ∈ pages, page ≠ []

variable {read : Option κ → Except ε (List τ × Option κ)}

/-- The pages are the reader's. -/
theorem Followed.unique {after : Option κ} {pages pages' : List (List τ)}
    (h : Followed read after pages) (h' : Followed read after pages') : pages = pages' := by
  induction h generalizing pages' with
  | last h =>
    cases h' with
    | last h' =>
      rw [h] at h'
      simp only [Except.ok.injEq, Prod.mk.injEq, and_true] at h'
      rw [h']
    | next h' _ =>
      rw [h] at h'
      simp at h'
  | next h _ ih =>
    cases h' with
    | last h' =>
      rw [h] at h'
      simp at h'
    | next h' rest' =>
      rw [h] at h'
      simp only [Except.ok.injEq, Prod.mk.injEq, Option.some.injEq] at h'
      obtain ⟨rfl, rfl⟩ := h'
      rw [ih rest']

theorem Followed.ne_nil {after : Option κ} {pages : List (List τ)} (h : Followed read after pages) :
    pages ≠ [] := by
  cases h <;> exact List.cons_ne_nil _ _

/-- A reader that shows a part of each page is followed page by page. -/
theorem Followed.map {σ ε' : Type} {read' : Option κ → Except ε' (List σ × Option κ)}
    (f : List τ → List σ)
    (hread : ∀ after page next, read after = .ok (page, next) → read' after = .ok (f page, next))
    {after : Option κ} {pages : List (List τ)} (h : Followed read after pages) :
    Followed read' after (pages.map f) := by
  induction h with
  | last h => exact .last (hread _ _ _ h)
  | next h _ ih => exact .next (hread _ _ _ h) ih

/-- **Following the pages cuts what is left.** `Left after items` tells what is left after a
cursor. -/
theorem followed_cut {limit : Nat} (hl : 1 ≤ limit) {Left : Option κ → List τ → Prop}
    (hlast : ∀ after left, Left after left → left.length ≤ limit →
      read after = .ok (left, none))
    (hnext : ∀ after left, Left after left → limit < left.length →
      ∃ cursor, read after = .ok (left.take limit, some cursor) ∧
        Left (some cursor) (left.drop limit))
    {after : Option κ} {left : List τ} (h : Left after left) :
    ∃ pages, Followed read after pages ∧ Cut limit left pages := by
  induction hn : left.length using Nat.strongRecOn generalizing after left with
  | ind n ih =>
    by_cases hle : left.length ≤ limit
    · refine ⟨[left], .last (hlast _ _ h hle), ?_⟩
      exact ⟨by simp, by simp, by simpa using hle, by simp⟩
    · have hlt : limit < left.length := by omega
      obtain ⟨cursor, hread, hleft⟩ := hnext _ _ h hlt
      have hdrop : (left.drop limit).length < n := by
        rw [List.length_drop]
        omega
      obtain ⟨pages, hf, hc⟩ := ih _ hdrop hleft rfl
      have hfull : (left.take limit).length = limit := by
        rw [List.length_take]
        omega
      have hne : left.drop limit ≠ [] := by
        rw [ne_eq, List.drop_eq_nil_iff]
        omega
      refine ⟨left.take limit :: pages, .next hread hf, ?_, ?_, ?_, ?_⟩
      · rw [List.flatten_cons, hc.flatten, List.take_append_drop]
      · rw [List.dropLast_cons_of_ne_nil hf.ne_nil]
        intro page hp
        obtain rfl | hp := List.mem_cons.mp hp
        · exact hfull
        · exact hc.full page hp
      · intro page hp
        obtain rfl | hp := List.mem_cons.mp hp
        · exact hfull.le
        · exact hc.most page hp
      · intro _ page hp
        obtain rfl | hp := List.mem_cons.mp hp
        · intro hnil
          rw [hnil, List.length_nil] at hfull
          omega
        · exact hc.nonempty hne page hp

/-! ### What is left of a list in order -/

variable {lt : ρ → ρ → Prop}

/-- Lists of the same items in the same strict order are the same. -/
theorem sorted_unique (hasymm : ∀ a b, lt a b → ¬ lt b a) {l l' : List ρ} (hp : l.Perm l')
    (h : l.Pairwise lt) (h' : l'.Pairwise lt) : l = l' :=
  hp.eq_of_pairwise (fun a b _ _ hab hba => absurd hba (hasymm a b hab)) h h'

/-- What comes after an item of an ordered list is what is left of the list after it. -/
theorem filter_after [DecidableRel lt] (hasymm : ∀ a b, lt a b → ¬ lt b a)
    {before left : List ρ} {c : ρ} (hc : c ∈ before.getLast?)
    (h : (before ++ left).Pairwise lt) :
    (before ++ left).filter (fun r => decide (lt c r)) = left := by
  obtain ⟨start, rfl⟩ := List.getLast?_eq_some_iff.mp hc
  obtain ⟨hb, -, hcross⟩ := List.pairwise_append.mp h
  rw [List.filter_append]
  have hnone : (start ++ [c]).filter (fun r => decide (lt c r)) = [] := by
    rw [List.filter_eq_nil_iff]
    intro r hr hlt
    rw [decide_eq_true_eq] at hlt
    obtain hr | hr := List.mem_append.mp hr
    · exact hasymm r c ((List.pairwise_append.mp hb).2.2 r hr c List.mem_cons_self) hlt
    · rw [List.mem_singleton] at hr
      subst hr
      exact hasymm _ _ hlt hlt
  have hall : left.filter (fun r => decide (lt c r)) = left := by
    rw [List.filter_eq_self]
    intro r hr
    exact decide_eq_true (hcross c (by simp) r hr)
  rw [hnone, hall, List.nil_append]

end JewelCase.Library.Pages

/-!
## Pages of a list read through a window

A listing has its items newest first: `heads`, which are at hand, then those of `tails` that are
shown. A page reads `tails` through a window, a bounded number of items after the cursor, and only
then leaves out the ones not shown. So a page may end the listing while items past its window remain.
-/
namespace JewelCase.Library.Windows

open JewelCase.Library.Pages (Followed filter_after sorted_unique)

set_option autoImplicit false

variable {ρ κ ε : Type} [LinearOrder κ] (key : ρ → κ) (heads tails : List ρ) (shown : ρ → Bool)

/-- Items newest first. -/
def newest (items : List ρ) : List ρ := items.insertionSort fun a b => key b ≤ key a

/-- The items after a cursor, from the start if there is none. -/
def remaining (after : Option κ) (items : List ρ) : List ρ :=
  items.filter fun item => after.all fun cursor => decide (key item < cursor)

/-- What a page has to choose from: one item more than it gives, if the window shows so many. -/
def found (limit : Nat) (after : Option κ) : List ρ :=
  remaining key after heads ++ ((remaining key after tails).take (limit + 1)).filter shown

/-- A page, and the cursor of the next one if there is more than it gives. -/
def page (limit : Nat) (after : Option κ) : List ρ × Option κ :=
  let items := (found key heads tails shown limit after).take limit
  (items, if limit < (found key heads tails shown limit after).length then
    items.getLast?.map key else none)

/-- The whole listing. -/
def listing : List ρ := heads ++ tails.filter shown

/-- The cursor that the items from `p` on come after. -/
def startAt (items : List ρ) (p : Nat) : Option κ :=
  if p = 0 then none else items[p - 1]?.map key

/-- The window of the page after `after` shows enough: if an item that counts is past it, then no
more of it is hidden than there are heads still to give. -/
def Enough (counts : ρ → Bool) (limit : Nat) (after : Option κ) : Prop :=
  (∃ item ∈ (remaining key after tails).drop (limit + 1), shown item ∧ counts item) →
    ((remaining key after tails).take (limit + 1)).countP (fun item => ¬shown item) ≤
      (remaining key after heads).length

instance (counts : ρ → Bool) (limit : Nat) (after : Option κ) :
    Decidable (Enough key heads tails shown counts limit after) :=
  inferInstanceAs (Decidable (_ → _))

variable {key heads tails shown}

/-! ### Newest first -/

theorem newest_perm (items : List ρ) : (newest key items).Perm items := List.perm_insertionSort _ items

theorem newest_sorted (items : List ρ) : (newest key items).Pairwise fun a b => key b ≤ key a := by
  have : Std.Total fun a b : ρ => key b ≤ key a := ⟨fun a b => le_total (key b) (key a)⟩
  have : IsTrans ρ fun a b => key b ≤ key a := ⟨fun _ _ _ hab hbc => hbc.trans hab⟩
  exact List.pairwise_insertionSort _ items

theorem newest_strict {items : List ρ} (h : (items.map key).Nodup) :
    (newest key items).Pairwise fun a b => key b < key a := by
  have hnodup : (newest key items).Pairwise fun a b => key a ≠ key b :=
    List.pairwise_map.mp (((newest_perm items).map key).nodup_iff.mpr h)
  exact (newest_sorted items).imp₂ (fun a b hle hne => lt_of_le_of_ne hle (Ne.symm hne)) hnodup

/-- Items with keys of their own may be chosen before they are sorted or after. -/
theorem newest_filter {items : List ρ} (h : (items.map key).Nodup) (p : ρ → Bool) :
    newest key (items.filter p) = (newest key items).filter p := by
  have hfilter : ((items.filter p).map key).Nodup := h.sublist (List.filter_sublist.map key)
  refine sorted_unique (fun a b (hab : key b < key a) hba => lt_asymm hab hba) ?_
    (newest_strict hfilter) ((newest_strict h).sublist List.filter_sublist)
  exact (newest_perm _).trans ((newest_perm items).symm.filter p)

/-- Items sorted by the key they have as others are sorted as these. -/
theorem map_newest {σ : Type} (key : ρ → κ) (key' : σ → κ) (f : ρ → σ) (hf : ∀ item, key' (f item) = key item)
    (items : List ρ) : (newest key items).map f = newest key' (items.map f) := by
  refine List.map_insertionSort _ _ f items fun a _ b _ => ?_
  rw [hf, hf]

/-! ### What remains -/

@[simp] theorem remaining_none (items : List ρ) : remaining key none items = items := by
  simp [remaining]

theorem remaining_suffix {items : List ρ} (h : items.Pairwise fun a b => key b < key a)
    (after : Option κ) : remaining key after items <:+ items := by
  cases after with
  | none =>
    have hall : remaining key none items = items := remaining_none items
    exact hall.symm ▸ List.suffix_rfl
  | some cursor =>
    induction items with
    | nil => exact List.nil_suffix
    | cons item items ih =>
      rw [List.pairwise_cons] at h
      by_cases hitem : key item < cursor
      · have hall : remaining key (some cursor) (item :: items) = item :: items := by
          rw [remaining, List.filter_eq_self]
          intro other ho
          obtain rfl | ho := List.mem_cons.mp ho
          · simpa using hitem
          · simpa using (h.1 other ho).trans hitem
        exact hall.symm ▸ List.suffix_rfl
      · have hskip : remaining key (some cursor) (item :: items) =
            remaining key (some cursor) items := List.filter_cons_of_neg (by simpa using hitem)
        rw [hskip]
        exact (ih h.2).trans (List.suffix_cons item items)

/-- What remains after the first `p` items. -/
theorem remaining_startAt {items : List ρ} (h : items.Pairwise fun a b => key b < key a) {p : Nat}
    (hp : p ≤ items.length) : remaining key (startAt key items p) items = items.drop p := by
  rw [startAt]
  split_ifs with hzero
  · rw [hzero, remaining_none, List.drop_zero]
  · have hlt : p - 1 < items.length := by omega
    have hlast : items[p - 1] ∈ (items.take p).getLast? := by
      rw [Option.mem_def, List.getLast?_take, if_neg hzero, List.getElem?_eq_getElem hlt]
      rfl
    have hsplit : (items.take p ++ items.drop p).Pairwise fun a b => key b < key a := by
      rwa [List.take_append_drop]
    have hafter := filter_after (fun a b (hab : key b < key a) hba => lt_asymm hab hba) hlast hsplit
    rw [List.take_append_drop] at hafter
    rw [remaining, List.getElem?_eq_getElem hlt]
    exact hafter

/-- What remains of each part of a listing. -/
theorem remaining_listing (after : Option κ) :
    remaining key after (listing heads tails shown) =
      remaining key after heads ++ (remaining key after tails).filter shown := by
  rw [listing, remaining, List.filter_append, remaining, remaining, List.filter_comm]

/-- What remains after more items is the end of what remains after fewer. -/
theorem remaining_later {items : List ρ} (hitems : items.Pairwise fun a b => key b < key a)
    (htails : tails.Pairwise fun a b => key b < key a) {p p' : Nat} (hle : p ≤ p')
    (hp : p' ≤ items.length) :
    remaining key (startAt key items p') tails <:+ remaining key (startAt key items p) tails := by
  have hboth : remaining key (startAt key items p') (remaining key (startAt key items p) tails) =
      remaining key (startAt key items p') tails := by
    rw [remaining, remaining, remaining, List.filter_filter]
    congr 1
    funext item
    rw [Bool.and_eq_left_iff_imp]
    intro hlater
    by_cases hzero : p = 0
    · simp [startAt, hzero]
    · have hlt : p - 1 < items.length := by omega
      have hlt' : p' - 1 < items.length := by omega
      rw [startAt, if_neg (by omega), List.getElem?_eq_getElem hlt'] at hlater
      rw [startAt, if_neg hzero, List.getElem?_eq_getElem hlt]
      simp only [Option.map_some, Option.all_some, decide_eq_true_eq] at hlater ⊢
      obtain heq | hlt'' := Nat.eq_or_lt_of_le hle
      · subst heq
        exact hlater
      · exact hlater.trans (List.pairwise_iff_getElem.mp hitems _ _ hlt hlt' (by omega))
  rw [← hboth]
  exact remaining_suffix (htails.sublist List.filter_sublist) _

/-! ### One page -/

variable {limit : Nat}

/-- A page chooses from the first of the items that remain. -/
theorem found_append_past (key : ρ → κ) (heads tails : List ρ) (shown : ρ → Bool) (limit : Nat)
    (after : Option κ) :
    found key heads tails shown limit after ++
        ((remaining key after tails).drop (limit + 1)).filter shown =
      remaining key after (listing heads tails shown) := by
  rw [found, remaining_listing, List.append_assoc, ← List.filter_append, List.take_append_drop]

/-- A window shows enough, if the page has more than it gives. -/
theorem Enough.of_more {counts : ρ → Bool} {after : Option κ}
    (h : limit < (found key heads tails shown limit after).length) :
    Enough key heads tails shown counts limit after := by
  rintro ⟨item, hitem, -⟩
  have hpast : 0 < ((remaining key after tails).drop (limit + 1)).length :=
    List.length_pos_of_mem hitem
  have hcount := List.length_eq_countP_add_countP shown
    (l := (remaining key after tails).take (limit + 1))
  rw [found, List.length_append, ← List.countP_eq_length_filter] at h
  rw [List.length_drop] at hpast
  rw [List.length_take] at hcount
  simp only [Bool.not_eq_true, Bool.decide_eq_false] at hcount ⊢
  omega

/-- Nothing that counts is past the window of the last page, if that shows enough. -/
theorem Enough.nothing_past {counts : ρ → Bool} {after : Option κ}
    (h : Enough key heads tails shown counts limit after)
    (hlast : (found key heads tails shown limit after).length ≤ limit) :
    (((remaining key after tails).drop (limit + 1)).filter shown).filter counts = [] := by
  rw [List.filter_filter, List.filter_eq_nil_iff]
  intro item hitem hcounts
  rw [Bool.and_eq_true] at hcounts
  have hhidden := h ⟨item, hitem, hcounts.2, hcounts.1⟩
  have hpast : 0 < ((remaining key after tails).drop (limit + 1)).length :=
    List.length_pos_of_mem hitem
  have hcount := List.length_eq_countP_add_countP shown
    (l := (remaining key after tails).take (limit + 1))
  rw [found, List.length_append, ← List.countP_eq_length_filter] at hlast
  rw [List.length_drop] at hpast
  rw [List.length_take] at hcount
  simp only [Bool.not_eq_true, Bool.decide_eq_false] at hcount hhidden
  omega

/-- A page that is not the last gives the next items, and the next one starts after them. -/
theorem page_more {after : Option κ} {items : List ρ} {p : Nat} (hl : 1 ≤ limit)
    (hpast : found key heads tails shown limit after ++
      ((remaining key after tails).drop (limit + 1)).filter shown = items.drop p)
    (h : limit < (found key heads tails shown limit after).length) :
    ∃ cursor, page key heads tails shown limit after = ((items.drop p).take limit, some cursor) ∧
      startAt key items (p + limit) = some cursor := by
  have htake : (found key heads tails shown limit after).take limit = (items.drop p).take limit := by
    rw [← hpast, List.take_append_of_le_length h.le]
  have hlong : p + limit - 1 < items.length := by
    have hle := congrArg List.length hpast
    rw [List.length_append, List.length_drop] at hle
    omega
  refine ⟨key items[p + limit - 1], ?_, ?_⟩
  · have hindex : p + (limit - 1) = p + limit - 1 := by omega
    rw [page, htake, if_pos h, List.getLast?_take, if_neg (by omega), List.getElem?_drop, hindex,
      List.getElem?_eq_getElem hlong]
    rfl
  · rw [startAt, if_neg (by omega), List.getElem?_eq_getElem hlong]
    rfl

theorem page_last {after : Option κ} (h : (found key heads tails shown limit after).length ≤ limit) :
    page key heads tails shown limit after = (found key heads tails shown limit after, none) := by
  rw [page, if_neg (by omega), List.take_of_length_le h]

/-! ### The pages followed -/

/-- What follows item `p` is listed by the pages from there exactly if their windows show enough. -/
theorem followed_from {counts : ρ → Bool} {items : List ρ} (hl : 1 ≤ limit)
    (hitems : listing heads tails shown = items) (hsorted : items.Pairwise fun a b => key b < key a)
    (htails : tails.Pairwise fun a b => key b < key a) {p : Nat} (hp : p ≤ items.length) :
    ∃ pages, Followed (ε := ε) (fun after => .ok (page key heads tails shown limit after))
        (startAt key items p) pages ∧
      pages.flatten.Sublist (items.drop p) ∧
      (pages.flatten.filter counts = (items.drop p).filter counts ↔
        ∀ j, p + j * limit ≤ items.length →
          Enough key heads tails shown counts limit (startAt key items (p + j * limit))) := by
  induction hn : items.length - p using Nat.strongRecOn generalizing p with
  | ind n ih =>
    have hpast := found_append_past key heads tails shown limit (startAt key items p)
    rw [hitems, remaining_startAt hsorted hp] at hpast
    by_cases hmore : limit < (found key heads tails shown limit (startAt key items p)).length
    · have hlong : p + limit ≤ items.length := by
        have hlength := congrArg List.length hpast
        rw [List.length_append, List.length_drop] at hlength
        omega
      obtain ⟨cursor, hpage, hstart⟩ := page_more hl hpast hmore
      obtain ⟨pages, hfollowed, hsub, hiff⟩ := ih (items.length - (p + limit)) (by omega) hlong rfl
      refine ⟨(items.drop p).take limit :: pages,
        .next (congrArg Except.ok hpage) (hstart ▸ hfollowed), ?_, ?_⟩
      · have hall : (items.drop p).take limit ++ items.drop (p + limit) = items.drop p := by
          rw [← List.drop_drop, List.take_append_drop]
        have happend := (List.Sublist.refl ((items.drop p).take limit)).append hsub
        rw [hall] at happend
        exact happend
      have hsplit : (items.drop p).filter counts =
          ((items.drop p).take limit).filter counts ++ (items.drop (p + limit)).filter counts := by
        rw [← List.filter_append, ← List.drop_drop, List.take_append_drop]
      rw [List.flatten_cons, List.filter_append, hsplit, List.append_cancel_left_eq, hiff]
      constructor
      · intro h j hj
        cases j with
        | zero =>
          rw [Nat.zero_mul, Nat.add_zero]
          exact .of_more hmore
        | succ j =>
          have hnext : p + (j + 1) * limit = p + limit + j * limit := by
            rw [Nat.add_mul, Nat.one_mul]
            omega
          rw [hnext] at hj ⊢
          exact h j hj
      · intro h j hj
        have hnext : p + limit + j * limit = p + (j + 1) * limit := by
          rw [Nat.add_mul, Nat.one_mul]
          omega
        rw [hnext] at hj ⊢
        exact h (j + 1) hj
    · rw [Nat.not_lt] at hmore
      refine ⟨[found key heads tails shown limit (startAt key items p)],
        .last (congrArg Except.ok (page_last hmore)), ?_, ?_⟩
      · rw [List.flatten_singleton, ← hpast]
        exact List.sublist_append_left _ _
      rw [List.flatten_singleton, ← hpast, List.filter_append, List.self_eq_append_right]
      constructor
      · -- Nothing that counts is past a later window either, which is nearer the end.
        rintro h j hj ⟨item, hitem, hcounts⟩
        obtain ⟨before, hbefore⟩ := remaining_later hsorted htails (Nat.le_add_right p _) hj
        have hpassed : item ∈ (remaining key (startAt key items p) tails).drop (limit + 1) := by
          rw [← hbefore, List.drop_append]
          exact List.mem_append_right _ (List.drop_subset_drop_left _ (Nat.sub_le _ _) hitem)
        rw [List.filter_filter, List.filter_eq_nil_iff] at h
        exact absurd (Bool.and_eq_true_iff.mpr hcounts.symm) (h item hpassed)
      · intro h
        have hfirst := h 0 (by omega)
        rw [Nat.zero_mul, Nat.add_zero] at hfirst
        exact hfirst.nothing_past hmore

/-- The windows of a listing's pages show enough. -/
def ShowsEnough (key : ρ → κ) (heads tails : List ρ) (shown counts : ρ → Bool) (limit : Nat) :
    Prop :=
  ∀ j ≤ (listing heads tails shown).length / limit,
    Enough key heads tails shown counts limit (startAt key (listing heads tails shown) (j * limit))

instance (key : ρ → κ) (heads tails : List ρ) (shown counts : ρ → Bool) (limit : Nat) :
    Decidable (ShowsEnough key heads tails shown counts limit) :=
  inferInstanceAs (Decidable (∀ j ≤ _, _))

/-- **Every item that counts is listed once, exactly if the windows show enough.** -/
theorem followed_iff {counts : ρ → Bool} (hl : 1 ≤ limit)
    (hsorted : (listing heads tails shown).Pairwise fun a b => key b < key a)
    (htails : tails.Pairwise fun a b => key b < key a) :
    ∃ pages, Followed (ε := ε) (fun after => .ok (page key heads tails shown limit after)) none
        pages ∧
      pages.flatten.Sublist (listing heads tails shown) ∧
      (pages.flatten.filter counts = (listing heads tails shown).filter counts ↔
        ShowsEnough key heads tails shown counts limit) := by
  obtain ⟨pages, hfollowed, hsub, hiff⟩ := followed_from hl rfl hsorted htails (Nat.zero_le _)
  refine ⟨pages, hfollowed, hsub, hiff.trans ?_⟩
  constructor
  · intro h j hj
    have hj' := h j
    rw [Nat.zero_add] at hj'
    exact hj' ((Nat.le_div_iff_mul_le hl).mp hj)
  · intro h j hj
    rw [Nat.zero_add] at hj ⊢
    exact h j ((Nat.le_div_iff_mul_le hl).mpr hj)

end JewelCase.Library.Windows
