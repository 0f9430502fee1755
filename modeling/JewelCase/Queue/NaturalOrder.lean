import Mathlib.Data.List.Perm.Basic
import JewelCase.Library.Buckets
import JewelCase.Queue.Model

/-!
# The natural order

What turning shuffle off is for, on plain lists: the context is rows of a frozen base in some
order among rows added since, and goes back to the base's own order around the pivot, with each
addition kept before the base row it came before. No item is lost and none comes twice.
-/
namespace JewelCase.Queue

set_option autoImplicit false

open Library.Buckets

/-- A row of a shuffled context: an item added to it, or a row of the base. -/
inductive Place where
  | added (item : ItemId)
  | base (row : Nat)
deriving DecidableEq, Repr

/-- The base row a place reads. -/
def Place.base? : Place → Option Nat
  | .base b => some b
  | .added _ => none

/-- The item added at a place. -/
def Place.added? : Place → Option ItemId
  | .added item => some item
  | .base _ => none

/-- A shuffled context: the items of the base in their own order, the Manual Queue, the item
playing, and the context as places, passed and still ahead. -/
structure Shuffled where
  base : List ItemId
  manual : List ItemId
  current : Option ItemId
  passed : List Place
  ahead : List Place
deriving DecidableEq, Repr

namespace Shuffled

/-- The item of a place. -/
def item (m : Shuffled) : Place → Option ItemId
  | .added item => some item
  | .base b => m.base[b]?

/-- The places of the context. -/
def places (m : Shuffled) : List Place := m.passed ++ m.ahead

/-- The item playing if the base holds it, else the latest base row passed. -/
def pivot (m : Shuffled) : Option Nat :=
  (m.current.bind fun c => m.base.idxOf? c).or (m.passed.filterMap Place.base?).getLast?

/-- The first base row after the pivot. -/
def split (m : Shuffled) : Nat := m.pivot.elim 0 (· + 1)

/-- Whether the track of base row `b` is in the Manual Queue too, with its natural place after
the pivot. -/
def TwoPlace (m : Shuffled) (b : Nat) : Prop :=
  .base b ∈ m.passed ∧ m.split ≤ b ∧ ∃ item ∈ m.base[b]?, item ∈ m.manual

instance (m : Shuffled) (b : Nat) : Decidable (m.TwoPlace b) :=
  inferInstanceAs (Decidable (_ ∧ _ ∧ ∃ item ∈ m.base[b]?, item ∈ m.manual))

/-- The item at its natural place `b`: none if the row was removed or moved out, or if its
track keeps a passed place instead. -/
def natural (m : Shuffled) (b : Nat) : List ItemId :=
  if .base b ∈ m.places ∧ ¬ m.TwoPlace b then m.base[b]?.toList else []

/-- What a passed place adds after the natural rows passed: an item added, or a two-place
track. -/
def extra (m : Shuffled) : Place → List ItemId
  | .added item => [item]
  | .base b => if m.TwoPlace b then m.base[b]?.toList else []

/-- Whether a place is an addition. -/
def isAdded (p : Place) : Bool := p.base?.isNone

/-- The passed part in natural order. -/
def naturalPassed (m : Shuffled) : List ItemId :=
  (m.passed.takeWhile isAdded).filterMap Place.added? ++ (List.range' 0 m.split).flatMap m.natural ++
    (m.passed.dropWhile isAdded).flatMap m.extra

/-- The additions among places, each with the base row it goes before: its follower or the
front, or `none` for the end. Those before the first base row go to the front. -/
def anchors (split : Nat) : Bool → List Place → List (Option Nat × ItemId)
  | _, [] => []
  | _, .base _ :: places => anchors split true places
  | seen, .added item :: places =>
    (if seen then (places.filterMap Place.base?).head?.map (max · split) else some split, item) ::
      anchors split seen places

/-- The additions still ahead, with their anchors. -/
def aheadAnchors (m : Shuffled) : List (Option Nat × ItemId) :=
  anchors m.split (m.passed.any (!isAdded ·)) m.ahead

/-- The part still ahead in natural order: each addition just before its anchor. -/
def naturalAhead (m : Shuffled) : List ItemId :=
  (List.range' m.split (m.base.length + 1 - m.split)).flatMap (fun b =>
      (m.aheadAnchors.filter (·.1 = some b)).map (·.2) ++ m.natural b) ++
    (m.aheadAnchors.filter (·.1 = none)).map (·.2)

/-- A shuffled context of items once in the base, once in the context and once in Up Next. -/
structure Sound (m : Shuffled) : Prop where
  base_nodup : m.base.Nodup
  rows : ∀ b, .base b ∈ m.places → b < m.base.length
  rows_nodup : (m.places.filterMap Place.base?).Nodup
  up_next : ∀ p ∈ m.ahead, ∀ item ∈ m.item p, item ∉ m.manual ∧ m.current ≠ some item

/-! ### Nothing is lost -/

variable {m : Shuffled}

theorem split_le (h : m.Sound) : m.split ≤ m.base.length := by
  unfold split
  cases hp : m.pivot with
  | none => exact Nat.zero_le _
  | some b =>
    rw [Option.elim_some]
    unfold pivot at hp
    rw [Option.or_eq_some_iff] at hp
    rcases hp with hp | ⟨-, hp⟩
    · obtain ⟨c, -, hc⟩ := Option.bind_eq_some_iff.mp hp
      have := List.of_findIdx?_eq_some hc
      by_contra hlt
      rw [List.getElem?_eq_none (by omega)] at this
      simp at this
    · have hm := List.mem_of_getLast? hp
      obtain ⟨p, hpm, hb⟩ := List.mem_filterMap.mp hm
      cases p with
      | added item => cases hb
      | base b' =>
        obtain rfl : b' = b := by simpa [Place.base?] using hb
        exact h.rows b' (List.mem_append_left _ hpm)

theorem anchors_snd (split : Nat) (seen : Bool) (places : List Place) :
    (anchors split seen places).map (·.2) = places.filterMap Place.added? := by
  induction places generalizing seen with
  | nil => rfl
  | cons p places ih =>
    cases p with
    | base b =>
      rw [anchors, ih]
      rfl
    | added item =>
      rw [anchors, List.map_cons, ih]
      rfl

/-- An addition's anchor is from the front on, at most the end of the base. -/
theorem mem_anchors {split n : Nat} {seen : Bool} {places : List Place} (hs : split ≤ n)
    (hr : ∀ b, .base b ∈ places → b < n) {a : Nat} {item : ItemId}
    (h : (some a, item) ∈ anchors split seen places) : split ≤ a ∧ a ≤ n := by
  induction places generalizing seen with
  | nil => cases h
  | cons p places ih =>
    have hr' := fun b hb => hr b (List.mem_cons_of_mem _ hb)
    cases p with
    | base b => exact ih hr' h
    | added it =>
      rw [anchors, List.mem_cons] at h
      rcases h with h | h
      · have ha := (Prod.mk.inj h).1
        cases seen with
        | false =>
          obtain rfl : a = split := by simpa using ha
          exact ⟨Nat.le_refl _, hs⟩
        | true =>
          rw [if_pos rfl, eq_comm, Option.map_eq_some_iff] at ha
          obtain ⟨b, hb, rfl⟩ := ha
          obtain ⟨p, hp, hpb⟩ := List.mem_filterMap.mp (List.mem_of_head? hb)
          cases p with
          | added _ => cases hpb
          | base b' =>
            obtain rfl : b' = b := by simpa [Place.base?] using hpb
            have := hr' b' hp
            omega
      · exact ih hr' h

/-- The item playing is its own pivot where the base holds it. -/
theorem Sound.split_current (h : m.Sound) {b : Nat} {c : ItemId} (hc : m.current = some c)
    (hb : m.base[b]? = some c) : m.split = b + 1 := by
  have hidx : m.base.idxOf? c = some b := by
    obtain ⟨hlt, hget⟩ := List.getElem?_eq_some_iff.mp hb
    refine List.idxOf?_eq_some_iff.mpr ⟨hlt, by simp [hget], fun j hj => ?_⟩
    rw [← hget]
    intro he
    have := (List.Nodup.getElem_inj_iff h.base_nodup).mp (by simpa using he)
    omega
  rw [split, pivot, hc, Option.bind_some, hidx]
  rfl

/-- A two-place track, or nothing. -/
def twoPlaced (m : Shuffled) : Place → List ItemId
  | .added _ => []
  | .base b => if m.TwoPlace b then m.base[b]?.toList else []

theorem passed_perm (m : Shuffled) :
    m.naturalPassed.Perm (m.passed.filterMap Place.added? ++
      ((List.range' 0 m.split).flatMap m.natural ++ m.passed.flatMap m.twoPlaced)) := by
  have hextra : ∀ ps : List Place,
      (ps.flatMap m.extra).Perm (ps.filterMap Place.added? ++ ps.flatMap m.twoPlaced) := by
    intro ps
    have hsame : ps.flatMap m.extra = ps.flatMap fun p => p.added?.toList ++ m.twoPlaced p := by
      refine List.flatMap_congr fun p _ => ?_
      cases p <;> rfl
    rw [hsame, List.filterMap_eq_flatMap_toList]
    exact (List.flatMap_append_perm _ _ _).symm
  have hhead : (m.passed.takeWhile isAdded).flatMap m.twoPlaced = [] := by
    rw [List.flatMap_eq_nil_iff]
    intro p hp
    have := List.all_eq_true.mp List.all_takeWhile p hp
    cases p with
    | added item => rfl
    | base b => cases this
  have hsplit := List.takeWhile_append_dropWhile (p := isAdded) (l := m.passed)
  calc m.naturalPassed
      _ = (m.passed.takeWhile isAdded).filterMap Place.added? ++
            (List.range' 0 m.split).flatMap m.natural ++
            (m.passed.dropWhile isAdded).flatMap m.extra := rfl
      _ |>.Perm ((m.passed.takeWhile isAdded).filterMap Place.added? ++
            (List.range' 0 m.split).flatMap m.natural ++
            ((m.passed.dropWhile isAdded).filterMap Place.added? ++
              (m.passed.dropWhile isAdded).flatMap m.twoPlaced)) := (hextra _).append_left _
      _ |>.Perm ((m.passed.takeWhile isAdded).filterMap Place.added? ++
            (m.passed.dropWhile isAdded).filterMap Place.added? ++
            ((List.range' 0 m.split).flatMap m.natural ++
              (m.passed.dropWhile isAdded).flatMap m.twoPlaced)) := by
        rw [List.append_assoc, List.append_assoc]
        refine List.Perm.append_left _ ?_
        rw [← List.append_assoc, ← List.append_assoc]
        exact List.perm_append_comm.append_right _
      _ = _ := by
        rw [← List.filterMap_append, hsplit]
        congr 2
        conv_rhs => rw [← hsplit, List.flatMap_append, hhead, List.nil_append]

theorem ahead_perm (h : m.Sound) :
    m.naturalAhead.Perm (m.ahead.filterMap Place.added? ++
      (List.range' m.split (m.base.length + 1 - m.split)).flatMap m.natural) := by
  have hle := split_le h
  let anchored := m.aheadAnchors.filter (·.1.isSome)
  let key : Option Nat × ItemId → Nat := fun a => a.1.getD 0
  have hanch : ∀ a ∈ anchored, m.split ≤ key a ∧
      key a < m.split + (m.base.length + 1 - m.split) := by
    rintro ⟨a, item⟩ ha
    obtain ⟨hm, hs⟩ := List.mem_filter.mp ha
    obtain ⟨b, rfl⟩ := Option.isSome_iff_exists.mp hs
    have := mem_anchors hle (fun b hb => h.rows b (List.mem_append_right _ hb)) hm
    simp only [key, Option.getD_some]
    omega
  have hsort := List.perm_insertionSort (fun a b => key a ≤ key b) anchored
  have hbuckets := buckets_of_sorted (sorted_insertionSort key anchored)
    (fun a ha => hanch a (hsort.mem_iff.mp ha))
  simp only [funext (bucket_insertionSort key anchored)] at hbuckets
  have hat : ∀ b, (m.aheadAnchors.filter (·.1 = some b)) = bucket key anchored b := by
    intro b
    simp only [bucket, anchored, List.filter_filter]
    refine List.filter_congr ?_
    rintro ⟨a, item⟩ -
    cases a with
    | none => simp
    | some a => simp [key]
  have hnone : m.aheadAnchors.filter (·.1 = none) = m.aheadAnchors.filter (!·.1.isSome) := by
    refine List.filter_congr ?_
    rintro ⟨a, item⟩ -
    cases a <;> simp
  have hadded : (((List.range' m.split (m.base.length + 1 - m.split)).flatMap fun b =>
      (m.aheadAnchors.filter (·.1 = some b)).map (·.2)) ++
        (m.aheadAnchors.filter (·.1 = none)).map (·.2)).Perm (m.ahead.filterMap Place.added?) := by
    simp only [hat, hnone]
    rw [← List.map_flatMap, hbuckets, ← List.map_append, ← anchors_snd]
    refine List.Perm.map _ ?_
    exact (hsort.append_right _).trans (List.filter_append_perm _ _)
  refine List.Perm.trans ?_ (hadded.append_right _)
  rw [naturalAhead, List.append_assoc]
  refine ((List.flatMap_append_perm _ _ _).symm.append_right _).trans ?_
  rw [List.append_assoc]
  exact List.Perm.append_left _ List.perm_append_comm

theorem flatMap_filter {α β : Type} (p : α → Bool) (f : α → List β) (xs : List α) :
    (xs.filter p).flatMap f = xs.flatMap fun x => if p x then f x else [] := by
  induction xs with
  | nil => rfl
  | cons x xs ih =>
    cases hp : p x with
    | true => rw [List.filter_cons_of_pos hp, List.flatMap_cons, ih, List.flatMap_cons, hp]; rfl
    | false =>
      rw [List.filter_cons_of_neg (by simp [hp]), ih, List.flatMap_cons, hp]
      rfl

theorem base_perm (h : m.Sound) :
    ((List.range' 0 (m.base.length + 1)).flatMap m.natural ++ m.passed.flatMap m.twoPlaced).Perm
      ((m.places.filterMap Place.base?).flatMap fun b => m.base[b]?.toList) := by
  have hmem : ∀ {b : Nat} {ps : List Place}, b ∈ ps.filterMap Place.base? ↔ .base b ∈ ps := by
    intro b ps
    rw [List.mem_filterMap]
    constructor
    · rintro ⟨p, hp, hb⟩
      cases p with
      | added _ => cases hb
      | base b' =>
        obtain rfl : b' = b := by simpa [Place.base?] using hb
        exact hp
    · exact fun hp => ⟨_, hp, rfl⟩
  have hnat : (List.range' 0 (m.base.length + 1)).flatMap m.natural =
      ((List.range' 0 (m.base.length + 1)).filter
        fun b => decide (.base b ∈ m.places ∧ ¬ m.TwoPlace b)).flatMap fun b => m.base[b]?.toList := by
    rw [flatMap_filter]
    refine List.flatMap_congr fun b _ => ?_
    simp only [natural, decide_eq_true_eq]
  have htwo : m.passed.flatMap m.twoPlaced = ((m.passed.filterMap Place.base?).filter
      fun b => decide (m.TwoPlace b)).flatMap fun b => m.base[b]?.toList := by
    rw [flatMap_filter, List.filterMap_eq_flatMap_toList, List.flatMap_assoc]
    refine List.flatMap_congr fun p _ => ?_
    cases p with
    | added item => rfl
    | base b => simp [twoPlaced, Place.base?]
  have hpassed : (m.passed.filterMap Place.base?).filter (fun b => decide (m.TwoPlace b)) =
      (m.places.filterMap Place.base?).filter fun b => decide (m.TwoPlace b) := by
    have hnone : (m.ahead.filterMap Place.base?).filter (fun b => decide (m.TwoPlace b)) = [] := by
      rw [List.filter_eq_nil_iff]
      intro b hb htwo
      have hp := hmem.mpr (of_decide_eq_true htwo).1
      have hn := h.rows_nodup
      rw [places, List.filterMap_append, List.nodup_append] at hn
      exact hn.2.2 b hp b hb rfl
    rw [places, List.filterMap_append, List.filter_append, hnone, List.append_nil]
  rw [hnat, htwo, hpassed, ← List.flatMap_append]
  refine List.Perm.flatMap_right _ ?_
  have hrest : ((List.range' 0 (m.base.length + 1)).filter
      fun b => decide (.base b ∈ m.places ∧ ¬ m.TwoPlace b)).Perm
        ((m.places.filterMap Place.base?).filter fun b => !decide (m.TwoPlace b)) := by
    refine (List.perm_ext_iff_of_nodup ((List.nodup_range' ..).filter _)
      (h.rows_nodup.filter _)).mpr fun b => ?_
    simp only [List.mem_filter, List.mem_range'_1, hmem, decide_eq_true_eq, Bool.not_eq_true',
      decide_eq_false_iff_not]
    constructor
    · exact fun hb => hb.2
    · intro hb
      have := h.rows b hb.1
      exact ⟨by omega, hb⟩
  exact (hrest.append_right _).trans
    (List.perm_append_comm.trans (List.filter_append_perm _ _))

/-- **The natural order holds the context's items**, each as often as before. -/
theorem Sound.natural_perm (h : m.Sound) :
    (m.naturalPassed ++ m.naturalAhead).Perm (m.places.filterMap m.item) := by
  have hle := split_le h
  have hitems : (m.places.filterMap m.item).Perm (m.places.filterMap Place.added? ++
      (m.places.filterMap Place.base?).flatMap fun b => m.base[b]?.toList) := by
    have hsame : m.places.filterMap m.item = m.places.flatMap fun p =>
        p.added?.toList ++ p.base?.toList.flatMap fun b => m.base[b]?.toList := by
      rw [List.filterMap_eq_flatMap_toList]
      refine List.flatMap_congr fun p _ => ?_
      cases p <;> simp [item, Place.added?, Place.base?]
    rw [hsame, List.filterMap_eq_flatMap_toList, List.filterMap_eq_flatMap_toList,
      List.flatMap_assoc]
    exact (List.flatMap_append_perm _ _ _).symm
  refine List.Perm.trans ?_ hitems.symm
  have hrange : List.range' 0 (m.base.length + 1) =
      List.range' 0 m.split ++ List.range' m.split (m.base.length + 1 - m.split) := by
    have := @List.range'_append 0 m.split (m.base.length + 1 - m.split) 1
    rw [show m.split + (m.base.length + 1 - m.split) = m.base.length + 1 by omega,
      show 0 + 1 * m.split = m.split by omega] at this
    exact this.symm
  have hbase := base_perm h
  rw [hrange, List.flatMap_append] at hbase
  refine ((passed_perm m).append (ahead_perm h)).trans ?_
  rw [List.perm_iff_count] at hbase ⊢
  intro x
  have hx := hbase x
  simp only [places, List.filterMap_append, List.count_append] at hx ⊢
  omega

/-- What is ahead in natural order was added there, or is a base row from the front on that
keeps no other place. -/
theorem mem_naturalAhead {it : ItemId} (hi : it ∈ m.naturalAhead) :
    .added it ∈ m.ahead ∨ ∃ b, m.split ≤ b ∧ it ∈ m.natural b := by
  have hadded : ∀ a, (a, it) ∈ m.aheadAnchors → .added it ∈ m.ahead := by
    intro a ha
    have hm : it ∈ m.aheadAnchors.map (·.2) := List.mem_map.mpr ⟨_, ha, rfl⟩
    rw [aheadAnchors, anchors_snd] at hm
    obtain ⟨p, hp, hpa⟩ := List.mem_filterMap.mp hm
    cases p with
    | base b => cases hpa
    | added it' =>
      obtain rfl : it' = it := by simpa [Place.added?] using hpa
      exact hp
  rw [naturalAhead, List.mem_append, List.mem_flatMap] at hi
  rcases hi with ⟨b, hb, hi⟩ | hi
  · rw [List.mem_append] at hi
    rcases hi with hi | hi
    · obtain ⟨⟨a, it'⟩, ha, rfl⟩ := List.mem_map.mp hi
      exact Or.inl (hadded a (List.mem_of_mem_filter ha))
    · exact Or.inr ⟨b, (List.mem_range'_1.mp hb).1, hi⟩
  · obtain ⟨⟨a, it'⟩, ha, rfl⟩ := List.mem_map.mp hi
    exact Or.inl (hadded a (List.mem_of_mem_filter ha))

/-- **Nothing ahead in natural order plays or is in the Manual Queue.** -/
theorem Sound.naturalAhead_apart (h : m.Sound) {it : ItemId} (hi : it ∈ m.naturalAhead) :
    it ∉ m.manual ∧ m.current ≠ some it := by
  rcases mem_naturalAhead hi with ha | ⟨b, hsplit, hb⟩
  · exact h.up_next _ ha it rfl
  · rw [natural] at hb
    split at hb
    · rename_i hnat
      have hget : m.base[b]? = some it := Option.mem_toList.mp hb
      refine ⟨fun hman => ?_, fun hc => ?_⟩
      · rcases List.mem_append.mp hnat.1 with hp | hp
        · exact hnat.2 ⟨hp, hsplit, it, hget, hman⟩
        · exact (h.up_next _ hp it hget).1 hman
      · have := h.split_current hc hget
        omega
    · cases hb

/-- **The lists in natural order** are sound. -/
theorem Sound.natural_lists (h : m.Sound) {l : Lists} (hl : l.Sound)
    (hman : l.manual = m.manual) (hcur : l.current = m.current)
    (hord : l.order = m.places.filterMap m.item) :
    Lists.Sound ⟨m.manual, m.naturalPassed, m.naturalAhead, m.current⟩ := by
  have hperm := h.natural_perm
  rw [← hord] at hperm
  have hnodup := hperm.nodup_iff.mpr hl.order_nodup
  refine ⟨hnodup, ?_, ?_⟩
  · have hup := hl.upNext_nodup
    rw [Lists.upNext, hman, List.nodup_append] at hup
    rw [Lists.upNext, List.nodup_append]
    refine ⟨hup.1, (List.nodup_append.mp hnodup).2.1, ?_⟩
    rintro a ha b hb rfl
    exact (h.naturalAhead_apart hb).1 ha
  · intro it hit hm
    rw [Lists.upNext, List.mem_append] at hm
    rcases hm with hm | hm
    · refine hl.current_notin it (hcur ▸ hit) ?_
      rw [Lists.upNext, hman]
      exact List.mem_append_left _ hm
    · exact (h.naturalAhead_apart hm).2 hit

end Shuffled

end JewelCase.Queue
