import Mathlib.Data.List.Pairwise
import JewelCase.Tracks.HeldOrder

/-!
# One order on every device

A device's list and the server's hold the same tracks, each sorted by its own stand-in for a missing
number. The two agree unless a track without a number shares all that comes before it with one
numbered by the greatest `u32`, and has the smaller ID: a device lists it first, and the server last.
-/
namespace JewelCase.Tracks

set_option autoImplicit false

open Library.Pages
open Page (Value Order ListSort Part Source keyOf page whole)

variable {sort : TrackSort} {field : SortField} {order : Order} {x y : Track} {tracks : List Track}

/-- Two tracks that only their numbers and IDs put in order. -/
structure Beside (sort : TrackSort) (x y : Track) : Prop where
  sort : sort = .album ∨ sort = .releaseDate ∧ x.releaseDate = y.releaseDate
  albumSortKey : x.albumSortKey = y.albumSortKey
  albumId : x.albumId = y.albumId
  disc : x.discNumber = y.discNumber

/-- Two tracks that a device and the server order the other way round: `x` has no number, `y` is
numbered by the greatest `u32`, and `x` has the smaller ID. -/
structure Clash (sort : TrackSort) (x y : Track) : Prop extends Beside sort x y where
  unnumbered : x.trackNumber = none
  greatest : y.trackNumber = some 4294967295
  id : x.id < y.id

/-! ### Where the stand-in matters -/

theorem integer_before {i j : Int} :
    order.Lt (Value.integer i).sortKey (Value.integer j).sortKey ↔ order.Lt i j := by
  cases order with
  | asc => exact integer_lt
  | desc => exact integer_lt

/-- By number and then by ID, two tracks compare alike with either stand-in, unless a missing number
meets the greatest `u32`. -/
theorem stand_in {n m : Option Int} (hn : ∀ k ∈ n, 0 ≤ k ∧ k < 2 ^ 32)
    (hm : ∀ k ∈ m, 0 ≤ k ∧ k < 2 ^ 32) {i j : Int} (hne : i ≠ j)
    (hij : ¬ (n = none ∧ m = some 4294967295 ∧ i < j))
    (hji : ¬ (m = none ∧ n = some 4294967295 ∧ j < i)) :
    order.Lt (n.getD 4294967295) (m.getD 4294967295) ∨
        n.getD 4294967295 = m.getD 4294967295 ∧ order.Lt i j ↔
      order.Lt (n.getD 9223372036854775807) (m.getD 9223372036854775807) ∨
        n.getD 9223372036854775807 = m.getD 9223372036854775807 ∧ order.Lt i j := by
  cases n with
  | none =>
    cases m with
    | none => cases order <;> simp [Order.Lt]
    | some m =>
      have hm := hm m rfl
      simp only [Option.some.injEq, true_and] at hij
      simp only [Option.getD_none, Option.getD_some]
      cases order with
      | asc =>
        change 4294967295 < m ∨ 4294967295 = m ∧ i < j ↔
          9223372036854775807 < m ∨ 9223372036854775807 = m ∧ i < j
        omega
      | desc =>
        change m < 4294967295 ∨ 4294967295 = m ∧ j < i ↔
          m < 9223372036854775807 ∨ 9223372036854775807 = m ∧ j < i
        omega
  | some n =>
    have hn := hn n rfl
    cases m with
    | none =>
      simp only [Option.some.injEq, true_and] at hji
      simp only [Option.getD_none, Option.getD_some]
      cases order with
      | asc =>
        change n < 4294967295 ∨ n = 4294967295 ∧ i < j ↔
          n < 9223372036854775807 ∨ n = 9223372036854775807 ∧ i < j
        omega
      | desc =>
        change 4294967295 < n ∨ n = 4294967295 ∧ j < i ↔
          9223372036854775807 < n ∨ n = 9223372036854775807 ∧ j < i
        omega
    | some m => exact Iff.rfl

/-- What ends an album's order: the number and the ID. -/
def tailColumns : List (Track → Value) := [Track.numberOrLast, fun t => .integer t.id]

theorem tail_before :
    order.Lt (keyOf tailColumns x) (keyOf tailColumns y) ↔
      order.Lt (x.trackNumber.getD 9223372036854775807) (y.trackNumber.getD 9223372036854775807) ∨
        x.trackNumber.getD 9223372036854775807 = y.trackNumber.getD 9223372036854775807 ∧
          order.Lt x.id y.id := by
  have hnil : ¬ order.Lt ([] : List Page.SortKey) [] := fun h => order.lt_asymm h h
  change order.Lt (_ :: _ :: []) (_ :: _ :: []) ↔ _
  simp only [Order.cons_lt, Track.numberOrLast, integer_before, integer_eq, hnil, and_false,
    or_false]

/-- Items that are equal leave the order to what follows. -/
theorem cons_before {α : Type} [LinearOrder α] {a b : α} (he : a = b) {as bs : List α} :
    order.Lt (a :: as) (b :: bs) ↔ order.Lt as bs := by
  rw [Order.cons_lt, he]
  simp only [true_and, or_iff_right_iff_imp]
  intro h
  exact absurd h (order.lt_asymm h)

theorem cons_congr {α : Type} [LinearOrder α] {a b : α} {as bs as' bs' : List α}
    (h : a = b → (order.Lt as bs ↔ order.Lt as' bs')) :
    order.Lt (a :: as) (b :: bs) ↔ order.Lt (a :: as') (b :: bs') := by
  rw [Order.cons_lt, Order.cons_lt]
  exact or_congr_right (and_congr_right h)

theorem tail_congr (hne : x.id ≠ y.id)
    (hxy : ¬ (x.trackNumber = none ∧ y.trackNumber = some 4294967295 ∧ x.id < y.id))
    (hyx : ¬ (y.trackNumber = none ∧ x.trackNumber = some 4294967295 ∧ y.id < x.id)) :
    order.Lt (keyOf tailColumns x.numbered) (keyOf tailColumns y.numbered) ↔
      order.Lt (keyOf tailColumns x) (keyOf tailColumns y) := by
  rw [tail_before, tail_before]
  exact stand_in x.number_range y.number_range hne hxy hyx

/-- On one disc of one album, `x` does not clash with `y`. -/
def Apart (x y : Track) : Prop :=
  x.albumId = y.albumId → x.discNumber = y.discNumber →
    ¬ (x.trackNumber = none ∧ y.trackNumber = some 4294967295 ∧ x.id < y.id)

theorem within_congr (hne : x.id ≠ y.id) (hxy : Apart x y) (hyx : Apart y x) :
    order.Lt (keyOf (TrackSort.sort .album).rest x.numbered)
        (keyOf (TrackSort.sort .album).rest y.numbered) ↔
      order.Lt (keyOf (TrackSort.sort .album).rest x) (keyOf (TrackSort.sort .album).rest y) := by
  refine cons_congr fun halbum => cons_congr fun hdisc => tail_congr hne ?_ ?_
  · exact hxy (integer_eq.1 halbum) (integer_eq.1 hdisc)
  · exact hyx (integer_eq.1 halbum).symm (integer_eq.1 hdisc).symm

theorem album_congr (hne : x.id ≠ y.id) (hxy : x.albumSortKey = y.albumSortKey → Apart x y)
    (hyx : y.albumSortKey = x.albumSortKey → Apart y x) :
    order.Lt (keyOf (TrackSort.sort .album).columns x.numbered)
        (keyOf (TrackSort.sort .album).columns y.numbered) ↔
      order.Lt (keyOf (TrackSort.sort .album).columns x)
        (keyOf (TrackSort.sort .album).columns y) := by
  refine cons_congr fun hkey => within_congr hne ?_ ?_
  · exact hxy (blob_eq.1 hkey)
  · exact hyx (blob_eq.1 hkey).symm

/-- **Tracks that do not clash are in one order.** -/
theorem before_congr (hne : x.id ≠ y.id) (hxy : ¬ Clash sort x y) (hyx : ¬ Clash sort y x) :
    sort.sort.Before order x.numbered y.numbered ↔ sort.sort.Before order x y := by
  have hparts : ∀ t : Track, sort.sort.part t.numbered = sort.sort.part t := by
    intro t
    cases sort <;> rfl
  unfold ListSort.Before
  rw [hparts, hparts]
  cases sort with
  | name => exact Iff.rfl
  | artist => exact Iff.rfl
  | dateAdded => exact Iff.rfl
  | duration => exact Iff.rfl
  | album =>
    have hapart : ∀ {a b : Track}, ¬ Clash .album a b → a.albumSortKey = b.albumSortKey →
        Apart a b := by
      intro a b h hkey hid hdisc hc
      exact h ⟨⟨.inl rfl, hkey, hid, hdisc⟩, hc.1, hc.2.1, hc.2.2⟩
    cases hx : (TrackSort.sort .album).part x <;> cases hy : (TrackSort.sort .album).part y
    · exact album_congr hne (hapart hxy) (hapart hyx)
    · exact Iff.rfl
    · exact Iff.rfl
    · have hkeys := ((Page.partOf_empty rfl _).mp hx).trans ((Page.partOf_empty rfl _).mp hy).symm
      have hkey : x.albumSortKey = y.albumSortKey := Value.blob.inj hkeys
      exact within_congr hne (hapart hxy hkey) (hapart hyx hkey.symm)
  | releaseDate =>
    have hapart : ∀ {a b : Track}, ¬ Clash .releaseDate a b → a.releaseDate = b.releaseDate →
        a.albumSortKey = b.albumSortKey → Apart a b := by
      intro a b h hdate hkey hid hdisc hc
      exact h ⟨⟨.inr ⟨rfl, hdate⟩, hkey, hid, hdisc⟩, hc.1, hc.2.1, hc.2.2⟩
    have hdate : ∀ {a b : Option String}, textOrNull a = textOrNull b → a = b :=
      fun h => textOrNull_eq.1 (congrArg Value.sortKey h)
    cases hx : (TrackSort.sort .releaseDate).part x <;>
      cases hy : (TrackSort.sort .releaseDate).part y
    · refine cons_congr fun hd => album_congr hne (hapart hxy ?_) (hapart hyx ?_)
      · exact textOrNull_eq.1 hd
      · exact (textOrNull_eq.1 hd).symm
    · exact Iff.rfl
    · exact Iff.rfl
    · have hnull := ((Page.partOf_null rfl _).mp hx).trans ((Page.partOf_null rfl _).mp hy).symm
      exact album_congr hne (hapart hxy (hdate hnull)) (hapart hyx (hdate hnull).symm)

theorem beside_tail (h : Beside sort x y) :
    sort.sort.Before order x y ↔ order.Lt (keyOf tailColumns x) (keyOf tailColumns y) := by
  have hkey := congrArg (fun key => (Value.blob key).sortKey) h.albumSortKey
  have hid := congrArg (fun id => (Value.integer id).sortKey) h.albumId
  have hdisc := congrArg (fun disc => (Value.integer disc).sortKey) h.disc
  have hwithin : order.Lt (keyOf (TrackSort.sort .album).rest x)
      (keyOf (TrackSort.sort .album).rest y) ↔
        order.Lt (keyOf tailColumns x) (keyOf tailColumns y) :=
    (cons_before hid).trans (cons_before hdisc)
  have halbum : order.Lt (keyOf (TrackSort.sort .album).columns x)
      (keyOf (TrackSort.sort .album).columns y) ↔
        order.Lt (keyOf tailColumns x) (keyOf tailColumns y) := (cons_before hkey).trans hwithin
  obtain rfl | ⟨rfl, hdate⟩ := h.sort
  · have hpart : (TrackSort.sort .album).part x = (TrackSort.sort .album).part y :=
      congrArg (fun key => (TrackSort.sort .album).partOf (.blob key)) h.albumSortKey
    rw [Page.before_same hpart rfl]
    cases (TrackSort.sort .album).part y with
    | known => exact halbum
    | unknown => exact hwithin
  · have hpart : (TrackSort.sort .releaseDate).part x = (TrackSort.sort .releaseDate).part y :=
      congrArg (fun date => (TrackSort.sort .releaseDate).partOf (textOrNull date)) hdate
    rw [Page.before_same hpart rfl]
    cases (TrackSort.sort .releaseDate).part y with
    | known =>
      have hfirst := congrArg (fun date => (textOrNull date).sortKey) hdate
      exact (cons_before hfirst).trans halbum
    | unknown => exact halbum

/-- **Tracks that clash are in opposite orders.** -/
theorem clash_before (h : Clash sort x y) :
    ¬ (sort.sort.Before order x.numbered y.numbered ↔ sort.sort.Before order x y) := by
  have hnumbered : Beside sort x.numbered y.numbered :=
    ⟨h.sort, h.albumSortKey, h.albumId, h.disc⟩
  have hid := h.id
  rw [beside_tail hnumbered, beside_tail h.toBeside, tail_before, tail_before]
  simp only [Track.numbered, h.unnumbered, h.greatest, Option.getD_none, Option.getD_some]
  intro hiff
  cases order with
  | asc =>
    have hserver : (9223372036854775807 : Int) < 4294967295 ∨
        (9223372036854775807 : Int) = 4294967295 ∧ x.id < y.id := hiff.mp (.inr ⟨trivial, hid⟩)
    omega
  | desc =>
    have hserver : (4294967295 : Int) < 9223372036854775807 := by decide
    have hdevice : (4294967295 : Int) < 4294967295 ∨ True ∧ y.id < x.id := hiff.mpr (.inl hserver)
    obtain hlt | ⟨-, hlt⟩ := hdevice
    · exact absurd hlt (by decide)
    · omega

/-! ### The two lists -/

/-- Distinct tracks are one before the other. -/
theorem before_total (hne : x.id ≠ y.id) (h : ¬ sort.sort.Before order y x) :
    sort.sort.Before order x y := by
  unfold ListSort.Before at *
  cases hx : sort.sort.part x <;> cases hy : sort.sort.part y <;>
    simp only [hx, hy, not_true_eq_false, not_false_eq_true] at h ⊢
  · exact (order.lt_of_ne fun he => hne (id_column sort .known he)).resolve_right h
  · exact (order.lt_of_ne fun he => hne (id_column sort .unknown he)).resolve_right h

theorem not_before_trans {z : Track} (hxy : ¬ sort.sort.Before order y x)
    (hyz : ¬ sort.sort.Before order z y) : ¬ sort.sort.Before order z x := by
  have htrans : ∀ {a b c : List Page.SortKey}, ¬ order.Lt b a → ¬ order.Lt c b →
      ¬ order.Lt c a := by
    intro a b c hab hbc
    cases order with
    | asc => exact not_lt_of_ge ((le_of_not_gt hab).trans (le_of_not_gt hbc))
    | desc => exact not_lt_of_ge ((le_of_not_gt hbc).trans (le_of_not_gt hab))
  unfold ListSort.Before at *
  cases hx : sort.sort.part x <;> cases hy : sort.sort.part y <;> cases hz : sort.sort.part z <;>
    simp only [hx, hy, hz, not_true_eq_false, not_false_eq_true] at hxy hyz ⊢
  · exact htrans hxy hyz
  · exact htrans hxy hyz

/-- The tracks of a device are sorted. -/
theorem heldOrder_sorted (hd : (tracks.map Track.id).Nodup) :
    (heldOrder sort order tracks).Pairwise fun a b =>
      a.id ≠ b.id ∧ sort.sort.Before order a.numbered b.numbered := by
  have htotal : Std.Total fun a b : Track =>
      ¬ sort.sort.Before order b.numbered a.numbered := by
    constructor
    intro a b
    by_cases hab : sort.sort.Before order b.numbered a.numbered
    · exact .inr (sort.sort.before_asymm _ _ hab)
    · exact .inl hab
  have htrans : IsTrans Track fun a b => ¬ sort.sort.Before order b.numbered a.numbered := by
    constructor
    intro a b c hab hbc
    exact not_before_trans hab hbc
  have hsorted := List.pairwise_insertionSort
    (fun a b : Track => ¬ sort.sort.Before order b.numbered a.numbered) tracks
  have hids : (heldOrder sort order tracks).Pairwise fun a b => a.id ≠ b.id := by
    have hperm := (List.perm_insertionSort
      (fun a b : Track => ¬ sort.sort.Before order b.numbered a.numbered) tracks).map Track.id
    exact List.pairwise_map.mp (hperm.nodup_iff.mpr hd)
  refine (hids.and hsorted).imp ?_
  intro a b h
  exact ⟨h.1, @before_total _ _ a.numbered b.numbered h.1 h.2⟩

theorem fits (hd : (tracks.map Track.id).Nodup) : sort.sort.Fits tracks := by
  have hlast : ∀ t, sort.sort.last t = .integer t.id := by
    intro t
    cases sort <;> rfl
  refine ⟨?_, ?_, ?_, ?_⟩
  · refine (List.pairwise_map.mp hd).imp ?_
    intro a b hne he
    rw [hlast, hlast, integer_eq] at he
    exact hne he
  · intro t _ column hc
    cases sort <;>
      simp only [TrackSort.sort, List.mem_cons, List.not_mem_nil, or_false] at hc
    · rw [hc]
      exact Value.noConfusion
    · obtain rfl | rfl := hc <;> exact Value.noConfusion
    · obtain rfl | rfl | rfl | rfl := hc <;> exact Value.noConfusion
    · rw [hc]
      exact Value.noConfusion
    · obtain rfl | rfl | rfl | rfl | rfl := hc <;> exact Value.noConfusion
    · rw [hc]
      exact Value.noConfusion
  · intro hu t _
    cases sort with
    | dateAdded => exact Value.noConfusion
    | duration => exact Value.noConfusion
    | _ => cases hu
  · intro hu t _
    cases sort with
    | name => exact ⟨_, rfl⟩
    | artist => exact ⟨_, rfl⟩
    | album => exact ⟨_, rfl⟩
    | _ => cases hu

/-- A device's list is the server's when no tracks clash, and only then. -/
theorem heldOrder_eq (hd : (tracks.map Track.id).Nodup) {list : List Track}
    (hp : list.Perm tracks) (hs : list.Pairwise (sort.sort.Before order)) :
    list = heldOrder sort order tracks ↔ ∀ x ∈ tracks, ∀ y ∈ tracks, ¬ Clash sort x y := by
  have hheld : (heldOrder sort order tracks).Perm tracks := List.perm_insertionSort _ _
  have hsorted := @heldOrder_sorted sort order _ hd
  constructor
  · intro he x hx y hy hclash
    subst he
    have hself : ∀ t, ¬ sort.sort.Before order t t :=
      fun t h => sort.sort.before_asymm _ _ h h
    have hsymm : Std.Symm fun a b : Track =>
        (sort.sort.Before order a.numbered b.numbered ↔ sort.sort.Before order a b) ∧
          (sort.sort.Before order b.numbered a.numbered ↔ sort.sort.Before order b a) :=
      ⟨fun _ _ h => h.symm⟩
    have hboth := (hsorted.and hs).imp fun {a b} h => And.intro (iff_of_true h.1.2 h.2)
      (iff_of_false (sort.sort.before_asymm _ _ h.1.2) (sort.sort.before_asymm _ _ h.2))
    have hall := hboth.forall_of_forall fun t _ =>
      ⟨iff_of_false (hself _) (hself _), iff_of_false (hself _) (hself _)⟩
    exact clash_before hclash (hall (hheld.mem_iff.mpr hx) (hheld.mem_iff.mpr hy)).1
  · intro hno
    have hserver : (heldOrder sort order tracks).Pairwise (sort.sort.Before order) := by
      refine hsorted.imp_of_mem ?_
      intro a b ha hb hab
      have ha' := hheld.mem_iff.mp ha
      have hb' := hheld.mem_iff.mp hb
      exact (before_congr hab.1 (hno a ha' b hb') (hno b hb' a ha')).mp hab.2
    exact sorted_unique sort.sort.before_asymm (hp.trans hheld.symm) hs hserver

/-- Lists are the same when their items' images are, if the items' images tell them apart. -/
theorem eq_of_map_eq {α β : Type} {f : α → β} {l l' : List α}
    (h : ∀ a ∈ l, ∀ b ∈ l', f a = f b → a = b) (he : l.map f = l'.map f) : l = l' := by
  induction l generalizing l' with
  | nil => exact (List.map_eq_nil_iff.mp he.symm).symm
  | cons a l ih =>
    obtain ⟨b, bs, rfl, hb, hbs⟩ := List.map_eq_cons_iff.mp he.symm
    have hab : a = b := h a List.mem_cons_self b List.mem_cons_self hb.symm
    have hrest : l = bs := by
      apply ih _ hbs.symm
      intro c hc d hd
      exact h c (List.mem_cons_of_mem _ hc) d (List.mem_cons_of_mem _ hd)
    rw [hab, hrest]

theorem pages_held (h : sort.label = field.name) (hd : (tracks.map Track.id).Nodup)
    {source : Source Track} (hsource : source.kept.Perm tracks) {limit : Nat} (hl : 1 ≤ limit) :
    (∃ pages, Followed (page source sort.sort order limit fun track => track.sortKeys.id) none
        pages ∧
      pages.flatten = sortedIds (tracks.map Track.sortKeys) field (decide (order = .desc))) ↔
      whole source sort.sort order = heldOrder sort order tracks := by
  have hfits : sort.sort.Fits source.kept := fits ((hsource.map Track.id).nodup_iff.mpr hd)
  have hperm : (whole source sort.sort order).Perm tracks := Page.whole_perm.trans hsource
  have hheld : (heldOrder sort order tracks).Perm tracks := List.perm_insertionSort _ _
  have hids : ∀ a ∈ whole source sort.sort order, ∀ b ∈ heldOrder sort order tracks,
      a.sortKeys.id = b.sortKeys.id → a = b := by
    intro a ha b hb he
    have hid : a.id = b.id := by rw [← a.id_key, ← b.id_key, he]
    exact List.inj_on_of_nodup_map hd (hperm.mem_iff.mp ha) (hheld.mem_iff.mp hb) hid
  obtain ⟨pages, hf, hc⟩ := @Page.pages_whole _ _ source sort.sort order hfits limit hl
    fun track => track.sortKeys.id
  rw [sortedIds_eq h hd]
  constructor
  · intro hex
    obtain ⟨pages', hf', he⟩ := hex
    rw [hf'.unique hf, hc.flatten] at he
    exact eq_of_map_eq hids he
  · intro he
    exact ⟨pages, hf, by rw [hc.flatten, he]⟩

/-- **A device and the server sort tracks alike.** For each sort that both define, in both
directions, the list a device makes of distinct tracks is the one that the server's pages make of
them, whatever the order of its rows and the length of a page, exactly when no two of the tracks
clash: a track with no number and one numbered by the greatest `u32`, alike in the album's key, the
album, the disc, and the date if that sorts them, where the unnumbered one has the smaller ID. -/
theorem sorts_agree (sort : TrackSort) (field : SortField) (h : sort.label = field.name)
    (order : Order) (tracks : List Track) (hd : (tracks.map Track.id).Nodup)
    (source : Source Track) (hsource : source.kept.Perm tracks) (limit : Nat) (hl : 1 ≤ limit) :
    (∃ pages, Followed (page source sort.sort order limit fun track => track.sortKeys.id) none
        pages ∧
      pages.flatten = sortedIds (tracks.map Track.sortKeys) field (decide (order = .desc))) ↔
      ∀ x ∈ tracks, ∀ y ∈ tracks, ¬ Clash sort x y := by
  rw [pages_held h hd hsource hl]
  have hfits : sort.sort.Fits source.kept := fits ((hsource.map Track.id).nodup_iff.mpr hd)
  exact heldOrder_eq hd (Page.whole_perm.trans hsource) (Page.whole_sorted hfits)

/-- A track of the album 1, on no disc. -/
def onAlbum (id : Int) (number : Option Int) (hid : 1 ≤ id ∧ id < 2 ^ 63)
    (hnumber : ∀ n ∈ number, 0 ≤ n ∧ n < 2 ^ 32) : Track :=
  { id := id
    sortKey := [97]
    artistSortKey := [98]
    albumSortKey := [99]
    albumId := 1
    discNumber := 0
    trackNumber := number
    releaseDate := none
    durationUs := 1
    addedAt := 0
    id_range := hid
    number_range := hnumber }

/-- A track with no number is listed after one with a number. -/
theorem sorts_agree_on_two :
    let tracks := [onAlbum 1 none (by decide) (by decide), onAlbum 2 (some 7) (by decide) (by decide)]
    ∃ pages, Followed (page ⟨tracks, fun _ => some true, Track.id⟩ (TrackSort.sort .album) .asc 1
        fun track => track.sortKeys.id) none pages ∧
      pages.flatten = sortedIds (tracks.map Track.sortKeys) .album false := by
  intro tracks
  refine (sorts_agree .album .album rfl .asc tracks (by decide) _ (.of_eq (by decide)) 1
    (by decide)).mpr ?_
  intro x _ y hy hclash
  have hnone : ∀ t ∈ tracks, t.trackNumber ≠ some 4294967295 := by decide
  exact hnone y hy hclash.greatest

/-- A track with no number, and one numbered by the greatest `u32`: the device lists the first one
first, and the server the second. -/
theorem sorts_differ :
    let tracks := [onAlbum 1 none (by decide) (by decide),
      onAlbum 2 (some 4294967295) (by decide) (by decide)]
    sortedIds (tracks.map Track.sortKeys) .album false = [1, 2] ∧
      ¬ ∃ pages, Followed (page ⟨tracks, fun _ => some true, Track.id⟩ (TrackSort.sort .album) .asc
          100 fun track => track.sortKeys.id) none pages ∧
        pages.flatten = sortedIds (tracks.map Track.sortKeys) .album false := by
  intro tracks
  refine ⟨by decide, ?_⟩
  have hd : (tracks.map Track.id).Nodup := by decide
  intro hex
  have hall : Source.kept ⟨tracks, fun _ => some true, Track.id⟩ = tracks := by decide
  have hsource : (Source.kept ⟨tracks, fun _ => some true, Track.id⟩).Perm tracks := .of_eq hall
  have heq := (@pages_held .album .album .asc tracks rfl hd _ hsource 100 (by decide)).mp hex
  have hno := (heldOrder_eq hd (Page.whole_perm.trans hsource)
    (Page.whole_sorted (fits (by rw [hall]; exact hd)))).mp heq
  exact hno _ List.mem_cons_self _ (List.mem_cons_of_mem _ List.mem_cons_self)
    ⟨⟨.inl rfl, rfl, rfl, rfl⟩, rfl, rfl, by decide⟩

end JewelCase.Tracks
