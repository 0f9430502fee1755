import Mathlib.Data.List.Nodup

/-!
# Paced times

Times that each come some wait after every earlier one, the wait growing with how many those are.
A stretch of time no longer than the waits add up to holds few of them.
-/
namespace JewelCase.Library

set_option autoImplicit false

/-- Newest first: each time comes `wait n` after all of the `n` earlier ones. -/
def Paced (wait : Nat → Int) : List Int → Prop
  | [] => True
  | t :: ts => Paced wait ts ∧ ∀ earlier ∈ ts, earlier + wait ts.length ≤ t

/-- How long `n` times take to follow a first one. -/
def waited (wait : Nat → Int) : Nat → Int
  | 0 => 0
  | n + 1 => waited wait n + wait (n + 1)

variable {wait : Nat → Int}

/-- With some of the times left out, the rest are paced. -/
theorem Paced.sublist (hmono : ∀ {m n : Nat}, m ≤ n → wait m ≤ wait n) {ts us : List Int}
    (h : Paced wait ts) (hsub : us.Sublist ts) : Paced wait us := by
  induction hsub with
  | slnil => exact h
  | cons t hsub ih => exact ih h.1
  | cons_cons t hsub ih =>
    refine ⟨ih h.1, fun earlier hin => ?_⟩
    have := h.2 earlier (hsub.subset hin)
    have := hmono hsub.length_le
    omega

theorem waited_mono (hnonneg : ∀ n, 0 ≤ wait n) {m n : Nat} (hle : m ≤ n) :
    waited wait m ≤ waited wait n := by
  induction hle with
  | refl => exact Int.le_refl _
  | step _ ih => exact Int.le_trans ih (Int.le_add_of_nonneg_right (hnonneg _))

/-- The newest of paced times comes after all their waits. -/
theorem Paced.waited_lt {s t : Int} {ts : List Int} (h : Paced wait (t :: ts))
    (hafter : ∀ u ∈ t :: ts, s < u) : s + waited wait ts.length < t := by
  induction ts generalizing t with
  | nil =>
    have := hafter t List.mem_cons_self
    simpa [waited] using this
  | cons u us ih =>
    have hu := ih h.1 fun v hv => hafter v (List.mem_cons_of_mem _ hv)
    have hwait := h.2 u List.mem_cons_self
    rw [List.length_cons] at hwait ⊢
    rw [waited]
    omega

/-- A stretch holds at most as many paced times as have waits to fill it. -/
theorem Paced.length_le (hnonneg : ∀ n, 0 ≤ wait n) {ts : List Int} (h : Paced wait ts) {s stretch : Int}
    {n : Nat} (hin : ∀ t ∈ ts, s < t ∧ t ≤ s + stretch) (hwaits : stretch ≤ waited wait n) :
    ts.length ≤ n := by
  cases ts with
  | nil => exact Nat.zero_le _
  | cons t ts =>
    refine Nat.le_of_not_lt fun hmore => ?_
    have hlate := h.waited_lt fun u hu => (hin u hu).1
    have hwaited := waited_mono hnonneg (show n ≤ ts.length by
      rw [List.length_cons] at hmore
      omega)
    have hlast := (hin t List.mem_cons_self).2
    omega

end JewelCase.Library

/-!
## Timers held by fields

Timers that a program sets, clears and forgets through fields, one field for each kind, and the ones
pending, each of which may fire. A field may go on naming a timer that is no longer pending.
-/
namespace JewelCase.Library

set_option autoImplicit false

/-- What each field names, the timers pending with the field each was set to, and the next new one. -/
structure Timers (κ : Type) where
  field : κ → Option Nat
  pending : List (Nat × κ)
  next : Nat

namespace Timers

variable {κ : Type}

/-- No timer was set yet. -/
def none : Timers κ := ⟨fun _ => .none, [], 0⟩

/-- Clears the timer that a field names, if it is pending. -/
def clear (t : Timers κ) (which : κ) : Timers κ :=
  { t with pending := t.pending.filter fun timer => some timer.1 ≠ t.field which }

/-- Whether a timer set to the field is pending. -/
def Pending (t : Timers κ) (which : κ) : Prop := which ∈ t.pending.map Prod.snd

/-- What is pending is what the fields name, one timer for each at most, and no timer is in two. -/
structure Tidy (t : Timers κ) : Prop where
  named : ∀ timer ∈ t.pending, t.field timer.2 = some timer.1
  once : (t.pending.map Prod.snd).Nodup
  bounded : ∀ which id, t.field which = some id → id < t.next
  distinct : ∀ a b id, t.field a = some id → t.field b = some id → a = b

theorem tidy_none : (none : Timers κ).Tidy where
  named := by simp [none]
  once := by simp [none]
  bounded := by simp [none]
  distinct := by simp [none]

theorem pending_none (which : κ) : ¬ (none : Timers κ).Pending which := by simp [Pending, none]

variable {t : Timers κ} {which other : κ}

/-- A field of a tidy client that names no timer has none pending. -/
theorem Tidy.not_pending (h : t.Tidy) (hfield : t.field which = .none) : ¬ t.Pending which := by
  intro hpending
  obtain ⟨timer, hmem, rfl⟩ := List.mem_map.mp hpending
  rw [h.named timer hmem] at hfield
  cases hfield

theorem Tidy.clear (h : t.Tidy) : (t.clear which).Tidy where
  named timer htimer := h.named timer (List.mem_of_mem_filter htimer)
  once := h.once.sublist (List.filter_sublist.map Prod.snd)
  bounded := h.bounded
  distinct := h.distinct

/-- Clearing a field leaves every other field's timer. -/
theorem Tidy.pending_clear (h : t.Tidy) :
    (t.clear which).Pending other ↔ other ≠ which ∧ t.Pending other := by
  constructor
  · intro hpending
    obtain ⟨timer, hmem, rfl⟩ := List.mem_map.mp hpending
    obtain ⟨hmem, hne⟩ := List.mem_filter.mp hmem
    refine ⟨?_, List.mem_map_of_mem hmem⟩
    intro hsame
    exact of_decide_eq_true hne (hsame ▸ (h.named timer hmem).symm)
  · rintro ⟨hne, hpending⟩
    obtain ⟨timer, hmem, rfl⟩ := List.mem_map.mp hpending
    refine List.mem_map_of_mem (List.mem_filter.mpr ⟨hmem, decide_eq_true ?_⟩)
    intro hsame
    exact hne (h.distinct _ _ _ (h.named timer hmem) hsame.symm)

/-- Among some fields, the only one with a timer pending, which has one. -/
theorem Tidy.pending_eq (h : t.Tidy) {p : κ → Bool} (hp : p which = true)
    (hone : ∀ other, p other = true → (t.Pending other ↔ other = which)) :
    (t.pending.map Prod.snd).filter p = [which] := by
  have hperm : ((t.pending.map Prod.snd).filter p).Perm [which] := by
    rw [List.perm_ext_iff_of_nodup (h.once.filter p) (by simp)]
    intro other
    rw [List.mem_filter, List.mem_singleton]
    constructor
    · rintro ⟨hpending, hother⟩
      exact (hone other hother).mp hpending
    · rintro rfl
      exact ⟨(hone other hp).mpr rfl, hp⟩
  exact List.perm_singleton.mp hperm

@[simp] theorem field_clear : (t.clear which).field = t.field := rfl

/-! ### Setting, forgetting and firing -/

variable [DecidableEq κ]

/-- Sets a field to a new timer. -/
def set (t : Timers κ) (which : κ) : Timers κ where
  field other := if other = which then some t.next else t.field other
  pending := t.pending ++ [(t.next, which)]
  next := t.next + 1

/-- Has a field name no timer. -/
def forget (t : Timers κ) (which : κ) : Timers κ :=
  { t with field := fun other => if other = which then .none else t.field other }

/-- Takes a timer that fires from those pending. -/
def take (t : Timers κ) (timer : Nat × κ) : Timers κ :=
  { t with pending := t.pending.filter (· ≠ timer) }

theorem Tidy.set (h : t.Tidy) (hnot : ¬ t.Pending which) : (t.set which).Tidy where
  named timer htimer := by
    rcases List.mem_append.mp htimer with hold | hnew
    · have hne : timer.2 ≠ which := fun heq => hnot (heq ▸ List.mem_map_of_mem hold)
      simp only [Timers.set, if_neg hne]
      exact h.named timer hold
    · rw [List.mem_singleton.mp hnew]
      exact if_pos rfl
  once := by
    simp only [Timers.set, List.map_append, List.map_singleton]
    rw [List.nodup_append]
    refine ⟨h.once, by simp, fun a ha b hb heq => hnot ?_⟩
    rw [← List.mem_singleton.mp hb, ← heq]
    exact ha
  bounded other id hfield := by
    simp only [Timers.set] at *
    split at hfield
    · rw [← Option.some.inj hfield]
      exact Nat.lt_succ_self _
    · exact Nat.lt_succ_of_lt (h.bounded _ _ hfield)
  distinct a b id ha hb := by
    simp only [Timers.set] at ha hb
    split at ha <;> split at hb
    · simp_all
    · have := h.bounded _ _ hb
      rw [← Option.some.inj ha] at this
      exact absurd this (Nat.lt_irrefl _)
    · have := h.bounded _ _ ha
      rw [← Option.some.inj hb] at this
      exact absurd this (Nat.lt_irrefl _)
    · exact h.distinct _ _ _ ha hb

@[simp] theorem pending_set : (t.set which).Pending other ↔ t.Pending other ∨ other = which := by
  simp [Pending, Timers.set]

theorem Tidy.forget (h : t.Tidy) (hnot : ¬ t.Pending which) : (t.forget which).Tidy where
  named timer htimer := by
    have hne : timer.2 ≠ which := fun heq => hnot (heq ▸ List.mem_map_of_mem htimer)
    simp only [Timers.forget, if_neg hne]
    exact h.named timer htimer
  once := h.once
  bounded other id hfield := by
    simp only [Timers.forget] at hfield
    split at hfield
    · cases hfield
    · exact h.bounded _ _ hfield
  distinct a b id ha hb := by
    simp only [Timers.forget] at ha hb
    split at ha
    · cases ha
    · split at hb
      · cases hb
      · exact h.distinct _ _ _ ha hb

@[simp] theorem pending_forget : (t.forget which).Pending other ↔ t.Pending other := Iff.rfl

theorem Tidy.take (h : t.Tidy) (timer : Nat × κ) : (t.take timer).Tidy where
  named other hother := h.named other (List.mem_of_mem_filter hother)
  once := h.once.sublist (List.filter_sublist.map Prod.snd)
  bounded := h.bounded
  distinct := h.distinct

/-- A timer taken was the only one of its field. -/
theorem Tidy.pending_take (h : t.Tidy) {timer : Nat × κ} (htimer : timer ∈ t.pending) :
    (t.take timer).Pending other ↔ other ≠ timer.2 ∧ t.Pending other := by
  constructor
  · intro hpending
    obtain ⟨found, hmem, rfl⟩ := List.mem_map.mp hpending
    obtain ⟨hmem, hne⟩ := List.mem_filter.mp hmem
    refine ⟨?_, List.mem_map_of_mem hmem⟩
    intro hkind
    have hid := h.named found hmem
    rw [hkind, h.named timer htimer] at hid
    exact of_decide_eq_true hne (Prod.ext (Option.some.inj hid).symm hkind)
  · rintro ⟨hne, hpending⟩
    obtain ⟨found, hmem, rfl⟩ := List.mem_map.mp hpending
    refine List.mem_map_of_mem (List.mem_filter.mpr ⟨hmem, decide_eq_true ?_⟩)
    rintro rfl
    exact hne rfl

@[simp] theorem field_take (timer : Nat × κ) : (t.take timer).field = t.field := rfl

theorem field_set : (t.set which).field other = if other = which then some t.next else t.field other :=
  rfl

theorem field_forget :
    (t.forget which).field other = if other = which then .none else t.field other := rfl

end Timers

end JewelCase.Library
