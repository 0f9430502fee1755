import Mathlib.Data.List.Sort
import Mathlib.Data.UInt

/-!
# Shaping a waveform

`shape_waveform` of `crates/core/src/waveform.rs` turns a track's levels, one byte a bin, into the
heights a client draws. The model takes every step that can fail as one that may: an index past the
end, a subtraction below 0, a division by 0, and a clamp between marks the wrong way round.
-/
namespace JewelCase.Waveform

set_option autoImplicit false

/-- Level steps per decibel. -/
def stepsPerDb : Nat := 2

/-- The height, of 255, at which a track's quietest sounding bins draw. -/
def floor : Nat := 24

/-- The narrowest range of levels spread over the full height, 6 dB. -/
def minSpan : Nat := 6 * stepsPerDb

def lowPercentile : Nat := 5
def highPercentile : Nat := 95

/-! ### Steps that can fail -/

def checkedSub (a b : Nat) : Option Nat := if b ≤ a then some (a - b) else none

def checkedDiv (a b : Nat) : Option Nat := if b = 0 then none else some (a / b)

def checkedClamp (level low high : Nat) : Option Nat :=
  if low ≤ high then some (max low (min level high)) else none

/-! ### Shaping -/

/-- The levels of the sounding bins, in order. -/
def sounding (rms : List UInt8) : List Nat :=
  ((rms.map UInt8.toNat).filter fun level => 0 < level).insertionSort (· ≤ ·)

/-- The levels between which bins are placed. -/
structure Marks where
  low : Nat
  high : Nat
  span : Nat
deriving DecidableEq, Repr

/-- The level at `percent` of the sounding bins, the last of which is at `last`. -/
def percentile (levels : List Nat) (last percent : Nat) : Option Nat := levels[last * percent / 100]?

def marks (levels : List Nat) (last : Nat) : Option Marks := do
  let high ← percentile levels last highPercentile
  let lowest ← percentile levels last lowPercentile
  -- `saturating_sub`, which is 0 below 0.
  let low := min lowest (high - minSpan)
  let span ← checkedSub high low
  some { low, high, span }

/-- The height of a sounding bin, before it is cast to a byte. -/
def Marks.above (m : Marks) (level : Nat) : Option Nat := do
  let clamped ← checkedClamp level m.low m.high
  let above ← checkedSub clamped m.low
  let step ← checkedDiv (above * (255 - floor) + m.span / 2) m.span
  some (floor + step)

/-- A bin's height; `as u8` keeps the low byte. -/
def Marks.height (m : Marks) (level : UInt8) : Option UInt8 :=
  if level.toNat = 0 then some 0 else (m.above level.toNat).map UInt8.ofNat

/-- The heights a client draws for bins with the RMS levels `rms`, one per bin. -/
def shapeWaveform (rms : List UInt8) : Option (List UInt8) :=
  match checkedSub (sounding rms).length 1 with
  | none => some (List.replicate rms.length 0)
  | some last => do
    let m ← marks (sounding rms) last
    rms.mapM m.height

example : shapeWaveform [0, 200, 210, 220, 230, 240, 250] =
    some [0, 24, 82, 140, 197, 255, 255] := by decide

example : shapeWaveform [0, 0, 0] = some [0, 0, 0] := by decide

/-! ### The marks -/

variable {rms : List UInt8} {m : Marks} {levels : List Nat} {last level : Nat}

/-- The high mark is above the low one: `minSpan` or more above it, or above 0. -/
structure Marks.Apart (m : Marks) : Prop where
  apart : m.low < m.high
  span : m.span = m.high - m.low
  high : m.high < 256

theorem mem_sounding {level : Nat} :
    level ∈ sounding rms ↔ 0 < level ∧ ∃ bin ∈ rms, bin.toNat = level := by
  rw [sounding, List.mem_insertionSort, List.mem_filter, List.mem_map, decide_eq_true_eq,
    and_comm]

theorem percentile_mem (hlast : last + 1 = levels.length) {percent : Nat} (hp : percent ≤ 100) :
    ∃ level ∈ levels, percentile levels last percent = some level := by
  have hle : last * percent / 100 ≤ last := by
    calc last * percent / 100 ≤ last * 100 / 100 :=
          Nat.div_le_div_right (Nat.mul_le_mul_left last hp)
      _ = last := Nat.mul_div_cancel last (by decide)
  have hlt : last * percent / 100 < levels.length := by omega
  exact ⟨_, List.getElem_mem hlt, List.getElem?_eq_getElem hlt⟩

/-- The marks of a track with a sounding bin. -/
theorem marks_apart (hlast : last + 1 = (sounding rms).length) :
    ∃ m lowest, marks (sounding rms) last = some m ∧ m.Apart ∧
      percentile (sounding rms) last highPercentile = some m.high ∧
      percentile (sounding rms) last lowPercentile = some lowest ∧
      m.low = min lowest (m.high - minSpan) := by
  obtain ⟨high, hmem, hhigh⟩ := percentile_mem hlast (show highPercentile ≤ 100 by decide)
  obtain ⟨lowest, -, hlowest⟩ := percentile_mem hlast (show lowPercentile ≤ 100 by decide)
  obtain ⟨hpos, bin, -, hbin⟩ := mem_sounding.1 hmem
  have hbyte : high < 256 := hbin ▸ bin.toNat_lt
  have hmin : minSpan = 12 := rfl
  have hlow : min lowest (high - minSpan) < high := by omega
  refine ⟨⟨min lowest (high - minSpan), high, high - min lowest (high - minSpan)⟩, lowest, ?_,
    ⟨hlow, rfl, hbyte⟩, hhigh, hlowest, rfl⟩
  rw [marks, hhigh, hlowest]
  simp [checkedSub]

/-! ### Heights -/

/-- How far a bin is above the low mark. -/
def Marks.rise (m : Marks) (level : Nat) : Nat := max m.low (min level m.high) - m.low

theorem Marks.Apart.rise_le (h : m.Apart) (level : Nat) : m.rise level ≤ m.span := by
  have hapart := h.apart
  have hspan := h.span
  unfold Marks.rise
  omega

theorem Marks.rise_mono {level level' : Nat} (hle : level ≤ level') :
    m.rise level ≤ m.rise level' := by
  unfold Marks.rise
  omega

/-- No step fails between marks that are apart. -/
theorem Marks.Apart.above (h : m.Apart) (level : Nat) :
    m.above level = some (floor + (m.rise level * (255 - floor) + m.span / 2) / m.span) := by
  have hapart := h.apart
  have hspan : m.span ≠ 0 := by
    rw [h.span]
    omega
  simp [Marks.above, Marks.rise, checkedClamp, checkedSub, checkedDiv, hapart.le, hspan]

/-- A height's step over the floor is at most the whole of it, however it is rounded. -/
theorem Marks.Apart.step_le (h : m.Apart) (level : Nat) :
    (m.rise level * (255 - floor) + m.span / 2) / m.span ≤ 255 - floor := by
  have hapart := h.apart
  have hspan := h.span
  have hrise := h.rise_le level
  have hpos : 0 < m.span := by omega
  have hhalf : m.span / 2 < m.span := Nat.div_lt_self hpos (by decide)
  rw [Nat.div_le_iff_le_mul_add_pred hpos]
  have hmul : m.rise level * (255 - floor) ≤ m.span * (255 - floor) :=
    Nat.mul_le_mul_right _ hrise
  omega

/-- The height of a sounding bin, as a number, is that of the byte it is cast to. -/
theorem Marks.Apart.height_sounding (h : m.Apart) {level : UInt8} (hpos : 0 < level.toNat) :
    ∃ height, m.above level.toNat = some height ∧ floor ≤ height ∧ height ≤ 255 ∧
      ∃ byte, m.height level = some byte ∧ byte.toNat = height := by
  obtain ⟨step, habove, hstep⟩ : ∃ step, m.above level.toNat = some (floor + step) ∧
      step ≤ 255 - floor := ⟨_, h.above _, h.step_le _⟩
  have hfloor : floor = 24 := rfl
  have hbyte : floor + step < 256 := by omega
  refine ⟨floor + step, habove, by omega, by omega, UInt8.ofNat (floor + step), ?_, ?_⟩
  · rw [Marks.height, if_neg (by omega), habove]
    rfl
  · exact UInt8.toNat_ofNat_of_lt' hbyte

/-- A higher level is never lower. -/
theorem Marks.Apart.above_mono (h : m.Apart) {level level' height height' : Nat}
    (hle : level ≤ level') (hheight : m.above level = some height)
    (hheight' : m.above level' = some height') : height ≤ height' := by
  rw [h.above] at hheight hheight'
  obtain rfl := Option.some.inj hheight
  obtain rfl := Option.some.inj hheight'
  have hmul : m.rise level * (255 - floor) ≤ m.rise level' * (255 - floor) :=
    Nat.mul_le_mul_right _ (Marks.rise_mono hle)
  exact Nat.add_le_add_left (Nat.div_le_div_right (Nat.add_le_add_right hmul _)) _

theorem Marks.Apart.above_low (h : m.Apart) (hle : level ≤ m.low) : m.above level = some 24 := by
  have hapart := h.apart
  have hspan := h.span
  have hrise : m.rise level = 0 := by
    unfold Marks.rise
    omega
  have hhalf : m.span / 2 / m.span = 0 :=
    Nat.div_eq_of_lt (Nat.div_lt_self (by omega) (by decide))
  rw [h.above, hrise, Nat.zero_mul, Nat.zero_add, hhalf]
  rfl

theorem Marks.Apart.above_high (h : m.Apart) (hle : m.high ≤ level) :
    m.above level = some 255 := by
  have hapart := h.apart
  have hspan := h.span
  have hrise : m.rise level = m.span := by
    unfold Marks.rise
    omega
  have hhalf : m.span / 2 / m.span = 0 :=
    Nat.div_eq_of_lt (Nat.div_lt_self (by omega) (by decide))
  rw [h.above, hrise, Nat.mul_add_div (by omega), hhalf]
  rfl

/-! ### Shaped waveforms -/

theorem mapM_some {α β : Type} {f : α → Option β} {xs : List α}
    (h : ∀ x ∈ xs, ∃ y, f x = some y) :
    ∃ ys, xs.mapM f = some ys ∧ ys.length = xs.length ∧
      ∀ (i : Nat) (x : α), xs[i]? = some x → f x = ys[i]? := by
  induction xs with
  | nil => exact ⟨[], rfl, rfl, by simp⟩
  | cons x xs ih =>
    obtain ⟨y, hy⟩ := h x List.mem_cons_self
    obtain ⟨ys, hys, hlength, hall⟩ := ih fun x' hx' => h x' (List.mem_cons_of_mem _ hx')
    refine ⟨y :: ys, by simp [hy, hys], by simp [hlength], ?_⟩
    intro i x' hx'
    cases i with
    | zero =>
      obtain rfl := Option.some.inj hx'
      exact hy
    | succ i => exact hall i x' hx'

theorem height_some (h : m.Apart) (level : UInt8) : ∃ byte, m.height level = some byte := by
  by_cases hzero : level.toNat = 0
  · exact ⟨0, by rw [Marks.height, if_pos hzero]⟩
  · obtain ⟨-, -, -, -, byte, hbyte, -⟩ := h.height_sounding (Nat.pos_of_ne_zero hzero)
    exact ⟨byte, hbyte⟩

/-- With no sounding bin every bin draws 0. -/
theorem shape_silent (h : ∀ bin ∈ rms, bin.toNat = 0) :
    shapeWaveform rms = some (List.replicate rms.length 0) := by
  have hnone : sounding rms = [] := by
    rw [List.eq_nil_iff_forall_not_mem]
    intro level hmem
    obtain ⟨hpos, bin, hbin, rfl⟩ := mem_sounding.1 hmem
    have hzero := h bin hbin
    omega
  rw [shapeWaveform, hnone]
  rfl

/-- What the heights of a track with a sounding bin are, by its marks. -/
structure Shaped (rms heights : List UInt8) (m : Marks) : Prop where
  length : heights.length = rms.length
  height : ∀ (i : Nat) (level : UInt8), rms[i]? = some level → m.height level = heights[i]?

theorem shape_sounding {bin : UInt8} (hbin : bin ∈ rms) (hpos : 0 < bin.toNat) :
    ∃ last m lowest heights, last + 1 = (sounding rms).length ∧
      marks (sounding rms) last = some m ∧ m.Apart ∧
      percentile (sounding rms) last highPercentile = some m.high ∧
      percentile (sounding rms) last lowPercentile = some lowest ∧
      m.low = min lowest (m.high - minSpan) ∧
      shapeWaveform rms = some heights ∧ Shaped rms heights m := by
  have hmem : bin.toNat ∈ sounding rms := mem_sounding.2 ⟨hpos, bin, hbin, rfl⟩
  have hlength : 1 ≤ (sounding rms).length := List.length_pos_of_mem hmem
  have hlast : (sounding rms).length - 1 + 1 = (sounding rms).length := by omega
  obtain ⟨m, lowest, hmarks, hapart, hhigh, hlowest, hlow⟩ := marks_apart hlast
  obtain ⟨heights, hheights, hlen, hall⟩ := mapM_some fun level (_ : level ∈ rms) =>
    height_some hapart level
  refine ⟨_, m, lowest, heights, hlast, hmarks, hapart, hhigh, hlowest, hlow, ?_, hlen, hall⟩
  rw [shapeWaveform, checkedSub, if_pos hlength]
  simp only [hmarks, Option.bind_eq_bind, Option.bind_some, hheights]

/-- A bin's height, by its marks. -/
theorem Shaped.at_bin {heights : List UInt8} (hs : Shaped rms heights m) (h : m.Apart) {i : Nat}
    {level height : UInt8} (hi : rms[i]? = some level) (hheight : heights[i]? = some height) :
    (level.toNat = 0 → height.toNat = 0) ∧
      (0 < level.toNat → m.above level.toNat = some height.toNat ∧ floor ≤ height.toNat) := by
  have heq : m.height level = some height := (hs.height i level hi).trans hheight
  constructor
  · intro hzero
    rw [Marks.height, if_pos hzero] at heq
    obtain rfl := Option.some.inj heq
    rfl
  · intro hpos
    obtain ⟨n, hn, hfloor, -, byte, hbyte, rfl⟩ := h.height_sounding hpos
    obtain rfl := Option.some.inj (hbyte.symm.trans heq)
    exact ⟨hn, hfloor⟩

/-- A higher level never gives a lower height. -/
theorem Shaped.mono {heights : List UInt8} (hs : Shaped rms heights m) (h : m.Apart) {i j : Nat}
    {level level' height height' : UInt8} (hi : rms[i]? = some level)
    (hj : rms[j]? = some level') (hheight : heights[i]? = some height)
    (hheight' : heights[j]? = some height') (hle : level.toNat ≤ level'.toNat) :
    height.toNat ≤ height'.toNat := by
  obtain ⟨hsilent, hsound⟩ := hs.at_bin h hi hheight
  rcases Nat.eq_zero_or_pos level.toNat with hzero | hpos
  · rw [hsilent hzero]
    exact Nat.zero_le _
  · obtain ⟨-, hsound'⟩ := hs.at_bin h hj hheight'
    exact h.above_mono hle (hsound hpos).1 (hsound' (by omega)).1

/-- **Every list of levels is shaped.** No index, subtraction, division or clamp fails. A silent bin
draws 0 and every other draws 24 or more, the number drawn being that of its byte, and a higher level
never draws lower. Where a bin sounds, the span is at least 1, sounding bins at or below the low mark
draw 24, and those at or above the high percentile draw 255. The low mark is the low percentile, or
`minSpan` below the high one where that is lower. -/
theorem shapeWaveform_draws (rms : List UInt8) :
    ∃ heights, shapeWaveform rms = some heights ∧ heights.length = rms.length ∧
      (∀ (i : Nat) (level height : UInt8), rms[i]? = some level → heights[i]? = some height →
        (level.toNat = 0 → height.toNat = 0) ∧ (0 < level.toNat → 24 ≤ height.toNat)) ∧
      (∀ (i j : Nat) (level level' height height' : UInt8), rms[i]? = some level →
        rms[j]? = some level' → heights[i]? = some height → heights[j]? = some height' →
          level.toNat ≤ level'.toNat → height.toNat ≤ height'.toNat) ∧
      ∀ bin ∈ rms, 0 < bin.toNat → ∃ last m lowest,
        last + 1 = (sounding rms).length ∧ marks (sounding rms) last = some m ∧
        1 ≤ m.span ∧ m.low ≤ m.high ∧ m.span = m.high - m.low ∧
        percentile (sounding rms) last highPercentile = some m.high ∧
        percentile (sounding rms) last lowPercentile = some lowest ∧
        m.low = min lowest (m.high - minSpan) ∧
        ∀ (i : Nat) (level height : UInt8), rms[i]? = some level → heights[i]? = some height →
          0 < level.toNat → m.above level.toNat = some height.toNat ∧
            (level.toNat ≤ m.low → height.toNat = 24) ∧
            (m.high ≤ level.toNat → height.toNat = 255) := by
  by_cases hsilent : ∀ bin ∈ rms, bin.toNat = 0
  · have hzero : ∀ (i : Nat) (level : UInt8), rms[i]? = some level → level.toNat = 0 :=
      fun i level hi => hsilent level (List.mem_of_getElem? hi)
    have hheight : ∀ (i : Nat) (height : UInt8),
        (List.replicate rms.length (0 : UInt8))[i]? = some height → height.toNat = 0 := by
      intro i height hi
      rw [List.eq_of_mem_replicate (List.mem_of_getElem? hi)]
      rfl
    refine ⟨_, shape_silent hsilent, List.length_replicate, ?_, ?_, ?_⟩
    · intro i level height hi hheight'
      refine ⟨fun _ => hheight i height hheight', fun hpos => ?_⟩
      exact absurd (hzero i level hi) (by omega)
    · intro i j level level' height height' _ _ hi _ _
      rw [hheight i height hi]
      exact Nat.zero_le _
    · intro bin hbin hpos
      exact absurd (hsilent bin hbin) (by omega)
  · simp only [not_forall] at hsilent
    obtain ⟨bin, hbin, hpos⟩ := hsilent
    obtain ⟨last, m, lowest, heights, hlast, hmarks, hapart, hhigh, hlowest, hlow, hheights,
      hshaped⟩ := shape_sounding hbin (Nat.pos_of_ne_zero hpos)
    have hbelow := hapart.apart
    have hspan := hapart.span
    refine ⟨heights, hheights, hshaped.length, ?_, ?_, ?_⟩
    · intro i level height hi hheight
      obtain ⟨hzero, hsound⟩ := hshaped.at_bin hapart hi hheight
      exact ⟨hzero, fun hpos => (hsound hpos).2⟩
    · intro i j level level' height height' hi hj hheight hheight' hle
      exact hshaped.mono hapart hi hj hheight hheight' hle
    · intro _ _ _
      refine ⟨last, m, lowest, hlast, hmarks, by omega, hbelow.le, hspan, hhigh, hlowest, hlow, ?_⟩
      intro i level height hi hheight hpos
      have habove := ((hshaped.at_bin hapart hi hheight).2 hpos).1
      refine ⟨habove, fun hle => ?_, fun hle => ?_⟩
      · exact Option.some.inj (habove.symm.trans (hapart.above_low hle))
      · exact Option.some.inj (habove.symm.trans (hapart.above_high hle))

/-- A track of one loudness draws full height, though its bins are at the low percentile: the marks
are `minSpan` apart. -/
theorem one_loudness_full :
    ¬ ∀ (rms heights : List UInt8) (last lowest : Nat), last + 1 = (sounding rms).length →
      percentile (sounding rms) last lowPercentile = some lowest →
      shapeWaveform rms = some heights →
      ∀ (i : Nat) (level height : UInt8), rms[i]? = some level → heights[i]? = some height →
        0 < level.toNat → level.toNat ≤ lowest → height.toNat = 24 := by
  intro h
  have hfloor := h [200] [255] 0 200 (by decide) (by decide) (by decide) 0 200 255 rfl rfl
    (by decide) (by decide)
  exact absurd hfloor (by decide)

end JewelCase.Waveform
