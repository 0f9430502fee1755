import Mathlib.Data.List.Basic
import Mathlib.Data.List.Lex
import Mathlib.Data.List.Nodup
import Mathlib.Data.List.Perm.Basic
import Mathlib.Order.Lattice

/-!
# Lists read through a total lookup

Facts about reading a list through a partial function that is defined on all of it, about
removing the elements at some indices, about indices in a list without repeats, and about common
prefixes.
-/
namespace JewelCase.Library.Lists

set_option autoImplicit false

variable {α β : Type}

/-- A partial function defined on every element of a list. -/
def Defined (f : α → Option β) (xs : List α) : Prop := ∀ x ∈ xs, (f x).isSome

theorem Defined.tail {f : α → Option β} {x : α} {xs : List α} (h : Defined f (x :: xs)) :
    Defined f xs := fun y hy => h y (List.mem_cons_of_mem _ hy)

theorem Defined.sub {f : α → Option β} {xs ys : List α} (h : Defined f ys)
    (hs : ∀ x ∈ xs, x ∈ ys) : Defined f xs := fun x hx => h x (hs x hx)

theorem Defined.append {f : α → Option β} {xs ys : List α} (hx : Defined f xs) (hy : Defined f ys) :
    Defined f (xs ++ ys) := by
  intro x hm
  rcases List.mem_append.mp hm with h | h
  · exact hx x h
  · exact hy x h

theorem Defined.getElem? {f : α → Option β} {xs : List α} (h : Defined f xs) (i : Nat) :
    (xs.filterMap f)[i]? = xs[i]?.bind f := by
  induction xs generalizing i with
  | nil => simp
  | cons x xs ih =>
    obtain ⟨y, hy⟩ := Option.isSome_iff_exists.mp (h x (by simp))
    rw [List.filterMap_cons_some hy]
    cases i with
    | zero => simp [hy]
    | succ i => simpa using ih h.tail i

theorem Defined.length {f : α → Option β} {xs : List α} (h : Defined f xs) :
    (xs.filterMap f).length = xs.length := by
  induction xs with
  | nil => rfl
  | cons x xs ih =>
    obtain ⟨y, hy⟩ := Option.isSome_iff_exists.mp (h x (by simp))
    rw [List.filterMap_cons_some hy, List.length_cons, List.length_cons, ih h.tail]

theorem Defined.take {f : α → Option β} {xs : List α} (h : Defined f xs) (n : Nat) :
    (xs.take n).filterMap f = (xs.filterMap f).take n := by
  apply List.ext_getElem?
  intro i
  rw [(h.sub fun x hx => List.mem_of_mem_take hx).getElem?]
  by_cases hi : i < n
  · rw [List.getElem?_take_of_lt hi, List.getElem?_take_of_lt hi, h.getElem?]
  · rw [List.getElem?_eq_none (by simp; omega), List.getElem?_eq_none (by simp; omega)]
    rfl

theorem Defined.drop {f : α → Option β} {xs : List α} (h : Defined f xs) (n : Nat) :
    (xs.drop n).filterMap f = (xs.filterMap f).drop n := by
  apply List.ext_getElem?
  intro i
  rw [(h.sub fun x hx => List.mem_of_mem_drop hx).getElem?, List.getElem?_drop, List.getElem?_drop,
    h.getElem?]

/-- Reading a list at each of its positions gives it back. -/
theorem filterMap_range_get (xs : List α) :
    (List.range xs.length).filterMap (xs[·]?) = xs := by
  apply List.ext_getElem?
  intro i
  have hdefined : Defined (xs[·]?) (List.range xs.length) := by
    intro j hj
    rw [List.mem_range] at hj
    show xs[j]?.isSome = true
    rw [List.getElem?_eq_getElem hj]
    rfl
  rw [hdefined.getElem?]
  by_cases hi : i < xs.length
  · rw [List.getElem?_range hi, Option.bind_some]
  · rw [List.getElem?_eq_none (by simpa using hi), List.getElem?_eq_none (by omega)]
    rfl

/-- Reading what passes a test of the reading is testing what is read. -/
theorem filterMap_filter_read (f : α → Option β) (p : β → Bool) (xs : List α) :
    (xs.filter fun x => (f x).all p).filterMap f = (xs.filterMap f).filter p := by
  induction xs with
  | nil => rfl
  | cons x xs ih =>
    cases hx : f x with
    | none => simp [hx, ih]
    | some y => by_cases hp : p y <;> simp [hx, hp, ih]

/-- Keeping the elements at some indices is a filter, where the indices are those of the
elements that pass it. -/
theorem zipIdx_filter (p : Nat → Bool) (q : α → Bool) (xs : List α) (k : Nat)
    (h : ∀ i x, xs[i]? = some x → p (k + i) = q x) :
    ((xs.zipIdx k).filter fun x => p x.2).map Prod.fst = xs.filter q := by
  induction xs generalizing k with
  | nil => rfl
  | cons x xs ih =>
    have hx : p k = q x := by simpa using h 0 x rfl
    have hrest := ih (k + 1) (fun i y hy => by
      have := h (i + 1) y (by simpa using hy)
      rwa [Nat.add_assoc, Nat.add_comm 1 i])
    rw [List.zipIdx_cons, List.filter_cons, List.filter_cons]
    simp only [hx]
    split <;> simp [hrest]

/-- In a list without repeats an element has one index. -/
theorem index_unique {xs : List α} (h : xs.Nodup) {i j : Nat} {x : α} (hi : xs[i]? = some x)
    (hj : xs[j]? = some x) : i = j := by
  obtain ⟨hi', rfl⟩ := List.getElem?_eq_some_iff.mp hi
  obtain ⟨hj', he⟩ := List.getElem?_eq_some_iff.mp hj
  exact ((List.Nodup.getElem_inj_iff h).mp he).symm

/-- Elements at different indices of a list read without repeats are read differently. -/
theorem Defined.nodup {f : α → Option β} {xs : List α} (h : Defined f xs)
    (hn : (xs.filterMap f).Nodup) : xs.Nodup := by
  induction xs with
  | nil => exact List.nodup_nil
  | cons x xs ih =>
    obtain ⟨y, hy⟩ := Option.isSome_iff_exists.mp (h x (by simp))
    rw [List.filterMap_cons_some hy, List.nodup_cons] at hn
    refine List.nodup_cons.mpr ⟨fun hm => hn.1 ?_, ih h.tail hn.2⟩
    exact List.mem_filterMap.mpr ⟨x, hm, hy⟩

/-! ### Without one element -/

/-- Leaving out an element that maps to nothing. -/
theorem filterMap_eraseIdx {f : α → Option β} {xs : List α} {i : Nat} {x : α} (h : xs[i]? = some x)
    (hx : f x = none) : (xs.eraseIdx i).filterMap f = xs.filterMap f := by
  induction xs generalizing i with
  | nil => rfl
  | cons head tail ih =>
    cases i with
    | zero =>
      rw [List.getElem?_cons_zero, Option.some.injEq] at h
      rw [List.eraseIdx_cons_zero, List.filterMap_cons_none (h ▸ hx)]
    | succ i =>
      rw [List.getElem?_cons_succ] at h
      rw [List.eraseIdx_cons_succ, List.filterMap_cons, List.filterMap_cons, ih h]

theorem perm_filterMap_eraseIdx {f : α → Option β} {xs : List α} {i : Nat} {x : α} {y : β}
    (h : xs[i]? = some x) (hx : f x = some y) :
    (xs.filterMap f).Perm (y :: (xs.eraseIdx i).filterMap f) := by
  obtain ⟨hlt, rfl⟩ := List.getElem?_eq_some_iff.mp h
  rw [← List.filterMap_cons_some hx]
  exact (List.getElem_cons_eraseIdx_perm hlt).symm.filterMap f

/-! ### Splitting a sorted list -/

/-- Elements that are read alike are one, where nothing is read twice. -/
theorem eq_of_filterMap_nodup {f : α → Option β} {xs : List α} (h : (xs.filterMap f).Nodup)
    {a b : α} (ha : a ∈ xs) (hb : b ∈ xs) {y : β} (hfa : f a = some y) (hfb : f b = some y) :
    a = b := by
  induction xs with
  | nil => cases ha
  | cons x xs ih =>
    have hread : ∀ c ∈ xs, f c = some y → y ∈ xs.filterMap f :=
      fun c hc hk => List.mem_filterMap.mpr ⟨c, hc, hk⟩
    by_cases hx : f x = some y
    · rw [List.filterMap_cons_some hx, List.nodup_cons] at h
      have hax : a = x := (List.mem_cons.mp ha).resolve_right fun hm => h.1 (hread a hm hfa)
      have hbx : b = x := (List.mem_cons.mp hb).resolve_right fun hm => h.1 (hread b hm hfb)
      rw [hax, hbx]
    · have hax : a ∈ xs := (List.mem_cons.mp ha).resolve_left fun he => hx (he ▸ hfa)
      have hbx : b ∈ xs := (List.mem_cons.mp hb).resolve_left fun he => hx (he ▸ hfb)
      refine ih (h.sublist ?_) hax hbx
      cases hfx : f x with
      | none => rw [List.filterMap_cons_none hfx]
      | some z =>
        rw [List.filterMap_cons_some hfx]
        exact List.sublist_cons_self _ _

/-- In an ascending list, what comes before the first element from `b` on is what is below
`b`. -/
theorem takeWhile_lt_eq_filter {xs : List Nat} (h : xs.Pairwise (· ≤ ·)) (b : Nat) :
    xs.takeWhile (fun i => decide (i < b)) = xs.filter (fun i => decide (i < b)) := by
  induction xs with
  | nil => rfl
  | cons x xs ih =>
    rw [List.pairwise_cons] at h
    by_cases hx : x < b
    · rw [List.takeWhile_cons_of_pos (by simpa using hx),
        List.filter_cons_of_pos (by simpa using hx), ih h.2]
    · rw [List.takeWhile_cons_of_neg (by simpa using hx),
        List.filter_cons_of_neg (by simpa using hx)]
      symm
      rw [List.filter_eq_nil_iff]
      intro y hy
      have := h.1 y hy
      simp
      omega

theorem dropWhile_lt_eq_filter {xs : List Nat} (h : xs.Pairwise (· ≤ ·)) (b : Nat) :
    xs.dropWhile (fun i => decide (i < b)) = xs.filter (fun i => decide (b ≤ i)) := by
  induction xs with
  | nil => rfl
  | cons x xs ih =>
    rw [List.pairwise_cons] at h
    by_cases hx : x < b
    · rw [List.dropWhile_cons_of_pos (by simpa using hx),
        List.filter_cons_of_neg (by simpa using hx), ih h.2]
    · rw [List.dropWhile_cons_of_neg (by simpa using hx)]
      symm
      rw [List.filter_eq_self]
      intro y hy
      rcases List.mem_cons.mp hy with rfl | hy
      · simpa using hx
      · have := h.1 y hy
        simp
        omega

/-! ### Slices -/

/-- A slice, cut in two. -/
theorem slice_split (xs : List α) {a b c : Nat} (hab : a ≤ b) (hbc : b ≤ c) :
    (xs.take c).drop a = (xs.take b).drop a ++ (xs.take c).drop b := by
  have hb : (xs.take b).drop a = ((xs.take c).drop a).take (b - a) := by
    rw [List.take_drop, List.take_take, show a + (b - a) = b by omega, Nat.min_eq_left hbc]
  have hc : (xs.take c).drop b = ((xs.take c).drop a).drop (b - a) := by
    rw [List.drop_drop, show a + (b - a) = b by omega]
  rw [hb, hc, List.take_append_drop]

/-- A slice is its elements, one at a time. -/
theorem slice_flatMap (xs : List α) (start len : Nat) :
    (xs.take (start + len)).drop start =
      (List.range' start len).flatMap fun p => (xs.take (p + 1)).drop p := by
  induction len generalizing start with
  | zero => simp
  | succ len ih =>
    rw [List.range'_succ, List.flatMap_cons, ← ih (start + 1),
      slice_split xs (b := start + 1) (by omega) (by omega),
      show start + (len + 1) = start + 1 + len by omega]

/-! ### The newest elements -/

/-- The last `n` elements. -/
def lastN (n : Nat) (xs : List α) : List α := xs.drop (xs.length - n)

theorem lastN_append {n : Nat} (xs : List α) {ys : List α} (h : n ≤ ys.length) :
    lastN n (xs ++ ys) = lastN n ys := by
  rw [lastN, lastN, List.length_append, List.drop_append, List.drop_of_length_le (by omega),
    List.nil_append]
  congr 1
  omega

theorem length_lastN (n : Nat) (xs : List α) :
    (lastN n xs).length = min n xs.length := by
  rw [lastN, List.length_drop]
  omega

theorem lastN_of_length_le {n : Nat} {xs : List α} (h : xs.length ≤ n) :
    lastN n xs = xs := by
  rw [lastN, Nat.sub_eq_zero_of_le h, List.drop_zero]

theorem lastN_suffix (n : Nat) (xs : List α) : lastN n xs <:+ xs :=
  List.drop_suffix _ _

/-! ### Common prefixes -/

/-- How many elements two lists start with in common. -/
def commonPrefix [DecidableEq α] : List α → List α → Nat
  | x :: xs, y :: ys => if x = y then commonPrefix xs ys + 1 else 0
  | _, _ => 0

section CommonPrefix

variable [DecidableEq α]

@[simp] theorem commonPrefix_nil_left (ys : List α) : commonPrefix [] ys = 0 := rfl

@[simp] theorem commonPrefix_nil_right (xs : List α) : commonPrefix xs [] = 0 := by
  cases xs <;> rfl

theorem commonPrefix_cons (x : α) (xs : List α) (y : α) (ys : List α) :
    commonPrefix (x :: xs) (y :: ys) = if x = y then commonPrefix xs ys + 1 else 0 := rfl

theorem commonPrefix_le_left (xs ys : List α) : commonPrefix xs ys ≤ xs.length := by
  induction xs generalizing ys with
  | nil => simp
  | cons x xs ih =>
    cases ys with
    | nil => simp
    | cons y ys =>
      have := ih ys
      rw [commonPrefix_cons, List.length_cons]
      split <;> omega

theorem commonPrefix_le_right (xs ys : List α) : commonPrefix xs ys ≤ ys.length := by
  induction xs generalizing ys with
  | nil => simp
  | cons x xs ih =>
    cases ys with
    | nil => simp
    | cons y ys =>
      have := ih ys
      rw [commonPrefix_cons, List.length_cons]
      split <;> omega

/-- Lists agree on their common prefix. -/
theorem take_commonPrefix (xs ys : List α) :
    xs.take (commonPrefix xs ys) = ys.take (commonPrefix xs ys) := by
  induction xs generalizing ys with
  | nil => simp
  | cons x xs ih =>
    cases ys with
    | nil => simp
    | cons y ys =>
      rw [commonPrefix_cons]
      split
      · rename_i h
        rw [List.take_succ_cons, List.take_succ_cons, ih, h]
      · simp

theorem commonPrefix_append_same (as xs ys : List α) :
    commonPrefix (as ++ xs) (as ++ ys) = as.length + commonPrefix xs ys := by
  induction as with
  | nil => simp
  | cons a as ih =>
    rw [List.cons_append, List.cons_append, commonPrefix_cons, if_pos rfl, ih, List.length_cons]
    omega

/-- The common prefix of a joined list stops in its first part, or goes on in its second. -/
theorem commonPrefix_append (as bs zs : List α) :
    commonPrefix (as ++ bs) zs =
      if commonPrefix as zs < as.length then commonPrefix as zs
      else as.length + commonPrefix bs (zs.drop as.length) := by
  induction as generalizing zs with
  | nil => simp
  | cons a as ih =>
    cases zs with
    | nil => simp
    | cons z zs =>
      rw [List.cons_append, commonPrefix_cons, commonPrefix_cons, ih, List.length_cons,
        List.drop_succ_cons]
      by_cases h : a = z
      · rw [if_pos h, if_pos h]
        split <;> split <;> omega
      · rw [if_neg h, if_neg h, if_pos (Nat.succ_pos _)]

end CommonPrefix

end JewelCase.Library.Lists

/-!
## Lists that start alike

In a sorted list of lists, those that start with a given one stand together.
-/
namespace JewelCase.Library.Prefixes

set_option autoImplicit false

variable {α β : Type}

/-- Where an item with `p` has `p` before it, the first items with `p` are all of them. -/
theorem lt_takeWhile_iff {p : β → Bool} {l : List β} (h : l.Pairwise fun a b => p b → p a)
    {i : Nat} {x : β} (hx : l[i]? = some x) : i < (l.takeWhile p).length ↔ p x := by
  induction l generalizing i with
  | nil => simp at hx
  | cons a l ih =>
    obtain ⟨ha, hl⟩ := List.pairwise_cons.mp h
    cases hp : p a with
    | true =>
      rw [List.takeWhile_cons, if_pos hp, List.length_cons]
      cases i with
      | zero =>
        obtain rfl : a = x := by simpa using hx
        simp [hp]
      | succ i =>
        rw [Nat.add_lt_add_iff_right]
        exact ih hl (by simpa using hx)
    | false =>
      rw [List.takeWhile_cons, if_neg (by simp [hp])]
      refine iff_of_false (by simp) ?_
      intro hpx
      cases i with
      | zero =>
        obtain rfl : a = x := by simpa using hx
        rw [hp] at hpx
        cases hpx
      | succ i =>
        have hmem : x ∈ l := List.mem_of_getElem? (by simpa using hx)
        have hpa := ha x hmem hpx
        rw [hp] at hpa
        cases hpa

variable [LinearOrder α]

theorem not_lt_of_prefix {p x : List α} (h : p <+: x) : ¬ x < p := by
  obtain ⟨rest, rfl⟩ := h
  induction p with
  | nil => simp
  | cons a p ih =>
    rw [List.cons_append, List.cons_lt_cons_iff]
    rintro (hlt | ⟨-, hlt⟩)
    · exact lt_irrefl _ hlt
    · exact ih hlt

/-- Between a list and one that starts with it, every list starts with it. -/
theorem prefix_between {p a b : List α} (hpa : ¬ a < p) (hab : a < b) (hb : p <+: b) : p <+: a := by
  induction p generalizing a b with
  | nil => exact List.nil_prefix
  | cons c p ih =>
    obtain ⟨rest, rfl⟩ := hb
    cases a with
    | nil => exact absurd (List.nil_lt_cons c p) hpa
    | cons x a =>
      rw [List.cons_append, List.cons_lt_cons_iff] at hab
      rw [List.cons_lt_cons_iff, not_or, not_and] at hpa
      obtain hlt | ⟨rfl, hlt⟩ := hab
      · exact absurd hlt hpa.1
      · rw [List.prefix_cons_inj]
        exact ih (hpa.2 rfl) hlt (List.prefix_append _ _)

end JewelCase.Library.Prefixes

/-!
## Joined lists

Items joined by a separator are told apart by the pieces they fall into where they are cut at it: an
item that holds the separator itself falls into several.
-/
namespace JewelCase.Library.Joined

set_option autoImplicit false

variable {α : Type} [BEq α] [LawfulBEq α] {x : α} {items items' : List (List α)}

/-- The pieces of `items`, each cut at every `x` in it. -/
def pieces (x : α) (items : List (List α)) : List (List α) := items.flatMap (List.splitOn x)

omit [LawfulBEq α] in
theorem pieces_cons (item : List α) :
    pieces x (item :: items) = item.splitOn x ++ pieces x items :=
  List.flatMap_cons

/-- Items that do not hold the separator are their own pieces. -/
theorem pieces_clean (h : ∀ item ∈ items, x ∉ item) : pieces x items = items := by
  induction items with
  | nil => rfl
  | cons item items ih =>
    rw [pieces_cons, List.splitOn_eq_singleton (h item List.mem_cons_self),
      ih fun item' hitem' => h item' (List.mem_cons_of_mem _ hitem')]
    rfl

/-- The pieces of a join are those of its items. -/
theorem splitOn_join (hne : items ≠ []) :
    List.splitOn x (List.intercalate [x] items) = pieces x items := by
  induction items with
  | nil => exact absurd rfl hne
  | cons item items ih =>
    cases items with
    | nil => simp [pieces, List.intercalate_singleton]
    | cons next items =>
      rw [List.intercalate_cons_cons, pieces_cons, List.append_assoc, List.singleton_append,
        List.splitOn_append_cons_self, ih (List.cons_ne_nil _ _)]

omit [BEq α] [LawfulBEq α] in
theorem join_ne_nil (hfull : ∀ item ∈ items, item ≠ []) (hne : items ≠ []) :
    List.intercalate [x] items ≠ [] := by
  cases items with
  | nil => exact absurd rfl hne
  | cons item items =>
    have hitem := hfull item List.mem_cons_self
    cases items with
    | nil => simpa [List.intercalate_singleton] using hitem
    | cons next items => simp [List.intercalate_cons_cons]

theorem pieces_ne_nil (hne : items ≠ []) : pieces x items ≠ [] := by
  rw [← splitOn_join hne]
  exact List.splitOn_ne_nil x _

/-- **Two joins are equal just when their pieces are.** -/
theorem join_eq_iff (hfull : ∀ item ∈ items, item ≠ []) (hfull' : ∀ item ∈ items', item ≠ []) :
    List.intercalate [x] items = List.intercalate [x] items' ↔
      pieces x items = pieces x items' := by
  by_cases hne : items = []
  · by_cases hne' : items' = []
    · rw [hne, hne']
      exact iff_of_true rfl rfl
    · rw [hne]
      exact iff_of_false (fun h => join_ne_nil hfull' hne' h.symm)
        fun h => pieces_ne_nil hne' h.symm
  · by_cases hne' : items' = []
    · rw [hne']
      exact iff_of_false (join_ne_nil hfull hne) (pieces_ne_nil hne)
    · rw [← splitOn_join hne, ← splitOn_join hne']
      constructor
      · exact fun h => congrArg _ h
      · intro h
        have hjoin : ∀ text : List α, List.intercalate [x] (text.splitOn x) = text :=
          fun text => List.intercalate_splitOn x
        rw [← hjoin (List.intercalate [x] items), h, hjoin]

end JewelCase.Library.Joined
