import Mathlib.Data.List.Chain
import JewelCase.Library.Decimal

/-!
# A declared rate limit

`crates/plugins/src/manifest/rate_limit.rs`. A limit is a count and a period; requests are spaced
evenly, each the period over the count after the one before. A duration counts nanoseconds, so the
gap of a count that does not divide the period is short of it.
-/
namespace JewelCase.Plugins

set_option autoImplicit false

open Library.Decimal

inductive Period where
  | second | minute | hour
deriving DecidableEq, Repr

def Period.text : Period → List Char
  | .second => "s".toList
  | .minute => "min".toList
  | .hour => "h".toList

/-- `Duration::from_secs` of the period, in nanoseconds. -/
def Period.nanoseconds : Period → Nat
  | .second => 1000000000
  | .minute => 60 * 1000000000
  | .hour => 60 * 60 * 1000000000

def readPeriod (per : List Char) : Option Period :=
  if per = "s".toList then some .second
  else if per = "min".toList then some .minute
  else if per = "h".toList then some .hour
  else none

/-- `text` around its first `c`. -/
def splitOnce (c : Char) (text : List Char) : Option (List Char × List Char) :=
  match text.dropWhile (· ≠ c) with
  | [] => none
  | _ :: after => some (text.takeWhile (· ≠ c), after)

/-- The gap between requests that keeps to a rate limit. -/
def rateLimitGap (limit : List Char) : Option Nat :=
  match splitOnce '/' limit with
  | none => none
  | some (count, per) =>
    match readPeriod per with
    | none => none
    | some period =>
      let digits := count.all Char.isDigit && decide (count.head? ≠ some '0')
      if !digits || count.isEmpty || decide (count.length > 9) then none
      else some (period.nanoseconds / value count)

/-- How a count and a period are written. -/
def limitText (count : Nat) (period : Period) : List Char :=
  Nat.toDigits 10 count ++ '/' :: period.text

/-- The greatest count that a limit gives. -/
def maxCount : Nat := 999999999

/-! ### What is accepted -/

theorem splitOnce_append {c : Char} {before after : List Char} (h : ∀ x ∈ before, x ≠ c) :
    splitOnce c (before ++ c :: after) = some (before, after) := by
  have hpass : ∀ x ∈ before, decide (x ≠ c) = true := fun x hx => decide_eq_true (h x hx)
  have hdrop : (before ++ c :: after).dropWhile (· ≠ c) = c :: after := by
    rw [List.dropWhile_append_of_pos hpass, List.dropWhile_cons_of_neg (by simp)]
  have htake : (before ++ c :: after).takeWhile (· ≠ c) = before := by
    rw [List.takeWhile_append_of_pos hpass, List.takeWhile_cons_of_neg (by simp), List.append_nil]
  rw [splitOnce, hdrop, htake]

theorem splitOnce_eq_some {c : Char} {text before after : List Char}
    (h : splitOnce c text = some (before, after)) : text = before ++ c :: after := by
  have hsplit := @List.takeWhile_append_dropWhile _ (· ≠ c) text
  rw [splitOnce] at h
  cases hdrop : text.dropWhile (· ≠ c) with
  | nil =>
    rw [hdrop] at h
    cases h
  | cons x rest =>
    have hx : x = c := by
      have hhead := List.head?_dropWhile_not (· ≠ c) text
      rw [hdrop] at hhead
      simpa using hhead
    rw [hdrop] at h hsplit
    obtain ⟨rfl, rfl⟩ := Prod.mk.inj (Option.some.inj h)
    rw [hx] at hsplit
    exact hsplit.symm

theorem readPeriod_text (period : Period) : readPeriod period.text = some period := by
  cases period <;> decide

theorem text_of_readPeriod {per : List Char} {period : Period} (h : readPeriod per = some period) :
    per = period.text := by
  unfold readPeriod at h
  split at h
  · cases h
    assumption
  · split at h
    · cases h
      assumption
    · split at h
      · cases h
        assumption
      · cases h

/-- **The texts that are accepted**: a count from 1 to 999999999 as it is printed, a slash and a
period. -/
theorem rateLimitGap_eq_some {limit : List Char} {gap : Nat} :
    rateLimitGap limit = some gap ↔ ∃ count period, 1 ≤ count ∧ count ≤ maxCount ∧
      limit = limitText count period ∧ gap = period.nanoseconds / count := by
  constructor
  · intro h
    unfold rateLimitGap at h
    split at h
    · cases h
    · rename_i digits per hsplit
      split at h
      · cases h
      · rename_i period hperiod
        obtain rfl := text_of_readPeriod hperiod
        simp only at h
        split at h
        · cases h
        · rename_i hok
          rw [Bool.not_eq_true, Bool.or_eq_false_iff, Bool.or_eq_false_iff, Bool.not_eq_false',
            decide_eq_false_iff_not, Nat.not_lt, Bool.and_eq_true, decide_eq_true_eq,
            List.isEmpty_eq_false_iff, List.all_eq_true] at hok
          obtain ⟨⟨⟨hall, hzero⟩, hne⟩, hlen⟩ := hok
          cases digits with
          | nil => exact absurd rfl hne
          | cons c digits =>
            obtain ⟨hc, hrest⟩ := List.forall_mem_cons.mp hall
            have hzero' : c ≠ '0' := fun he => hzero (congrArg some he)
            have hge := le_value hc hzero' digits
            have hpow : 0 < 10 ^ digits.length := Nat.pow_pos (by decide)
            have hlt := value_lt hall
            have hbound : 10 ^ (c :: digits).length ≤ 10 ^ 9 :=
              Nat.pow_le_pow_right (by decide) hlen
            refine ⟨value (c :: digits), period, by omega, ?_, ?_, ?_⟩
            · rw [maxCount]
              omega
            · rw [limitText, toDigits_value hc hzero' hrest]
              exact splitOnce_eq_some hsplit
            · exact (Option.some.inj h).symm
  · rintro ⟨count, period, hpos, hmax, rfl, rfl⟩
    have hall := allDigits_toDigits count
    have hslash : ∀ x ∈ Nat.toDigits 10 count, x ≠ '/' := by
      rintro x hx rfl
      exact absurd (hall '/' hx) (by decide)
    have hlen : (Nat.toDigits 10 count).length ≤ 9 :=
      (Nat.length_toDigits_le_iff (by decide) (by decide)).mpr (by rw [maxCount] at hmax; omega)
    have hdigits : ((Nat.toDigits 10 count).all Char.isDigit &&
        decide ((Nat.toDigits 10 count).head? ≠ some '0')) = true := by
      rw [Bool.and_eq_true, decide_eq_true_eq, List.all_eq_true]
      exact ⟨hall, toDigits_head hpos⟩
    have hne : (Nat.toDigits 10 count).isEmpty = false := by
      rw [List.isEmpty_eq_false_iff]
      exact Nat.toDigits_ne_nil
    rw [rateLimitGap, limitText, splitOnce_append hslash]
    simp only [readPeriod_text, hdigits, hne, value_toDigits]
    rw [if_neg (by simpa using hlen)]

/-! ### What is kept -/

/-- Whether each of the requests at `times` is at least `gap` after the one before. -/
def Spaced (gap : Nat) (times : List Nat) : Prop := times.IsChain fun a b => a + gap ≤ b

instance (gap : Nat) (times : List Nat) : Decidable (Spaced gap times) :=
  inferInstanceAs (Decidable (times.IsChain fun a b => a + gap ≤ b))

/-- The requests of the `period` from `start`. -/
def within (start period : Nat) (times : List Nat) : List Nat :=
  times.filter fun t => decide (start ≤ t ∧ t < start + period)

/-- Whether requests `gap` apart keep to `count` in a `period`: one more than that span it, and none
holds more. -/
def KeepsTo (count period gap : Nat) : Prop :=
  (∀ times, Spaced gap times → times.length = count + 1 →
    ∀ first last, times.head? = some first → times.getLast? = some last → first + period ≤ last) ∧
  ∀ times, Spaced gap times → ∀ start, (within start period times).length ≤ count

variable {gap count period : Nat}

theorem Spaced.sublist {times some_ : List Nat} (h : Spaced gap times) (hs : some_.Sublist times) :
    Spaced gap some_ := by
  have htrans : ∀ a b c : Nat, a + gap ≤ b → b + gap ≤ c → a + gap ≤ c := by omega
  have : Trans (fun a b : Nat => a + gap ≤ b) (fun a b => a + gap ≤ b) (fun a b => a + gap ≤ b) :=
    ⟨fun hab hbc => htrans _ _ _ hab hbc⟩
  exact (List.isChain_iff_pairwise.mp h).sublist hs |>.isChain

/-- Spaced requests span as many gaps as there are between them. -/
theorem Spaced.span {first last : Nat} {times : List Nat} (h : Spaced gap (first :: times))
    (hlast : (first :: times).getLast? = some last) : first + times.length * gap ≤ last := by
  induction times generalizing first with
  | nil =>
    obtain rfl := Option.some.inj hlast
    simp
  | cons next times ih =>
    obtain ⟨hnext, hrest⟩ := List.isChain_cons_cons.mp h
    rw [List.getLast?_cons_cons] at hlast
    have hspan := ih hrest hlast
    rw [List.length_cons, Nat.succ_mul]
    omega

/-- Requests at every gap from the start. -/
theorem spaced_multiples (gap n : Nat) : Spaced gap ((List.range n).map (· * gap)) := by
  rw [Spaced, List.isChain_map]
  refine List.Pairwise.isChain (List.pairwise_lt_range.imp fun {a b} hab => ?_)
  have hmul := Nat.mul_le_mul_right gap (Nat.succ_le_iff.mpr hab)
  rwa [Nat.succ_mul] at hmul

/-- **Gaps keep to a count** exactly when that many of them fill the period. -/
theorem keepsTo_iff : KeepsTo count period gap ↔ period ≤ count * gap := by
  constructor
  · rintro ⟨hspan, -⟩
    have hlength : ((List.range (count + 1)).map (· * gap)).length = count + 1 := by
      rw [List.length_map, List.length_range]
    have hhead : ((List.range (count + 1)).map (· * gap)).head? = some 0 := by
      rw [List.range_succ_eq_map, List.map_cons, List.head?_cons, Nat.zero_mul]
    have hlast : ((List.range (count + 1)).map (· * gap)).getLast? = some (count * gap) := by
      rw [List.range_succ, List.map_append, List.map_singleton, List.getLast?_concat]
    have := hspan _ (spaced_multiples gap (count + 1)) hlength _ _ hhead hlast
    omega
  · intro hfill
    refine ⟨?_, ?_⟩
    · intro times hspaced hlength first last hfirst hlast
      obtain ⟨rest, rfl⟩ := List.head?_eq_some_iff.mp hfirst
      have hspan := hspaced.span hlast
      rw [List.length_cons] at hlength
      obtain rfl : rest.length = count := by omega
      omega
    · intro times hspaced start
      by_contra hmore
      have hsub : Spaced gap ((within start period times).take (count + 1)) :=
        hspaced.sublist ((List.take_sublist _ _).trans List.filter_sublist)
      have hlength : ((within start period times).take (count + 1)).length = count + 1 := by
        rw [List.length_take]
        omega
      have hin : ∀ t ∈ (within start period times).take (count + 1),
          start ≤ t ∧ t < start + period := by
        intro t ht
        exact of_decide_eq_true (List.mem_filter.mp (List.mem_of_mem_take ht)).2
      cases htaken : (within start period times).take (count + 1) with
      | nil =>
        rw [htaken] at hlength
        cases hlength
      | cons first rest =>
        rw [htaken] at hsub hlength hin
        obtain ⟨last, hlast⟩ : ∃ last, (first :: rest).getLast? = some last :=
          ⟨_, List.getLast?_eq_some_getLast (List.cons_ne_nil _ _)⟩
        have hspan := hsub.span hlast
        rw [List.length_cons] at hlength
        obtain rfl : rest.length = count := by omega
        have hfirst := hin first List.mem_cons_self
        have hend := hin last (List.mem_of_getLast? hlast)
        omega

/-- The accepted texts are the counts from 1 to 999999999 as printed, a slash and a period. The gap
of one keeps to its count exactly when the count divides the period's nanoseconds. -/
theorem rateLimitGap_keeps (limit : List Char) :
    ((rateLimitGap limit).isSome ↔
      ∃ count period, 1 ≤ count ∧ count ≤ maxCount ∧ limit = limitText count period) ∧
    ∀ count period, 1 ≤ count → count ≤ maxCount → limit = limitText count period →
      ((∃ gap, rateLimitGap limit = some gap ∧ KeepsTo count period.nanoseconds gap) ↔
        count ∣ period.nanoseconds) := by
  refine ⟨?_, ?_⟩
  · rw [Option.isSome_iff_exists]
    constructor
    · rintro ⟨gap, hgap⟩
      obtain ⟨count, period, hpos, hmax, hlimit, -⟩ := rateLimitGap_eq_some.1 hgap
      exact ⟨count, period, hpos, hmax, hlimit⟩
    · rintro ⟨count, period, hpos, hmax, hlimit⟩
      exact ⟨_, rateLimitGap_eq_some.2 ⟨count, period, hpos, hmax, hlimit, rfl⟩⟩
  · intro count period hpos hmax hlimit
    have hgap : rateLimitGap limit = some (period.nanoseconds / count) :=
      rateLimitGap_eq_some.2 ⟨count, period, hpos, hmax, hlimit, rfl⟩
    have hle := Nat.mul_div_le period.nanoseconds count
    constructor
    · rintro ⟨gap, hread, hkeeps⟩
      obtain rfl := Option.some.inj (hread.symm.trans hgap)
      exact ⟨_, Nat.le_antisymm (keepsTo_iff.1 hkeeps) hle⟩
    · rintro ⟨gap, he⟩
      refine ⟨_, hgap, keepsTo_iff.2 ?_⟩
      rw [he, Nat.mul_div_cancel_left _ hpos]

/-- Seven a second: eight requests at the gap come within a second. -/
theorem seven_a_second :
    rateLimitGap "7/s".toList = some 142857142 ∧
      ¬ KeepsTo 7 Period.second.nanoseconds 142857142 := by
  refine ⟨by decide, fun h => ?_⟩
  have hin : (within 0 Period.second.nanoseconds ((List.range 8).map (· * 142857142))).length = 8 := by
    decide
  have hfew := h.2 ((List.range 8).map (· * 142857142)) (by decide) 0
  rw [hin] at hfew
  exact absurd hfew (by decide)

end JewelCase.Plugins
