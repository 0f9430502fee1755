import JewelCase.Library.Bytes
import JewelCase.Library.Decimal
import JewelCase.Library.Lists
import JewelCase.Network.Limits

/-!
# Dates of tags

A date is a year, a year and a month, or a day. A tag's text is cut at the first `T` or space and
then at hyphens, and its first three parts are read as integers. Their reader takes a plus sign and
any number of leading zeros, and parts after the third are not read.
-/
namespace JewelCase.Scanner

open JewelCase.Library
open JewelCase.Library.Bytes (utf8 byteOrder)
open JewelCase.Library.Decimal (AllDigits value padded)
open JewelCase.Library.Lexical (order lexOrder)
open JewelCase.Network (trim)

set_option autoImplicit false

/-- A date at whatever precision the tag carried. -/
structure PartialDate where
  year : Nat
  month : Option Nat
  day : Option Nat
deriving DecidableEq, Repr

/-- `str::parse` of an unsigned integer up to `max`. -/
def parseUnsigned (max : Nat) (text : List Char) : Option Nat :=
  let digits := if text.head? = some '+' then text.tail else text
  if digits.isEmpty || !digits.all Char.isDigit then none
  else if value digits ≤ max then some (value digits) else none

/-- A part of a date as a number of a range, in an integer type that goes up to `max`. -/
def parsePart (max low high : Nat) (text : List Char) : Option Nat :=
  (parseUnsigned max text).filter fun n => decide (low ≤ n ∧ n ≤ high)

namespace PartialDate

/-- A tag's text up to a time. -/
def datePart (raw : List Char) : List Char :=
  (trim raw).takeWhile fun c => decide (c ≠ 'T' ∧ c ≠ ' ')

/-- The date of a year and the parts after it. -/
def ofParts : List (List Char) → Option PartialDate
  | [] => none
  | year :: parts => do
    let year ← parsePart 65535 1000 9999 year
    match parts with
    | [] => return ⟨year, none, none⟩
    | month :: parts =>
      let month ← parsePart 255 1 12 month
      match parts with
      | [] => return ⟨year, some month, none⟩
      | day :: _ =>
        let day ← parsePart 255 1 31 day
        return ⟨year, some month, some day⟩

def parse (raw : List Char) : Option PartialDate := ofParts ((datePart raw).splitOn '-')

/-- `YYYY`, `YYYY-MM`, or `YYYY-MM-DD`. -/
def display (date : PartialDate) : List Char :=
  padded 4 date.year ++
    match date.month with
    | none => []
    | some month =>
      '-' :: (padded 2 month ++
        match date.day with
        | none => []
        | some day => '-' :: padded 2 day)

/-- How two values compare, where none is less than any. -/
def optionOrder : Option Nat → Option Nat → Ordering
  | none, none => .eq
  | none, some _ => .lt
  | some _, none => .gt
  | some m, some n => order m n

/-- The dates' own order: by year, then by month, then by day. -/
def cmp (date other : PartialDate) : Ordering :=
  (order date.year other.year).then
    ((optionOrder date.month other.month).then (optionOrder date.day other.day))

/-! ### What is meant -/

/-- A text of at most `most` digits that writes `n`, from `low` to `high`. -/
def Field (most low high : Nat) (text : List Char) (n : Nat) : Prop :=
  AllDigits text ∧ text.length ≤ most ∧ value text = n ∧ low ≤ n ∧ n ≤ high

/-- A date as it is written: a year of four digits, and after hyphens a month and a day of one or
two. -/
inductive DateText : List Char → PartialDate → Prop
  | year {y : List Char} {year : Nat} :
      Field 4 1000 9999 y year → DateText y ⟨year, none, none⟩
  | month {y m : List Char} {year month : Nat} :
      Field 4 1000 9999 y year → Field 2 1 12 m month →
      DateText (y ++ '-' :: m) ⟨year, some month, none⟩
  | day {y m d : List Char} {year month day : Nat} :
      Field 4 1000 9999 y year → Field 2 1 12 m month → Field 2 1 31 d day →
      DateText (y ++ '-' :: (m ++ '-' :: d)) ⟨year, some month, some day⟩

/-- Whether a tag's text, without the whitespace around it, is a date, or one that a `T` or a space
and anything follow. -/
def Written (raw : List Char) (date : PartialDate) : Prop :=
  ∃ text rest, trim raw = text ++ rest ∧ DateText text date ∧
    ∀ c ∈ rest.head?, c = 'T' ∨ c = ' '

/-- What a date says: a month of twelve, and a day only with a month. -/
structure Valid (date : PartialDate) : Prop where
  year : 1000 ≤ date.year ∧ date.year ≤ 9999
  month : ∀ m ∈ date.month, 1 ≤ m ∧ m ≤ 12
  day : ∀ d ∈ date.day, 1 ≤ d ∧ d ≤ 31
  precision : date.month = none → date.day = none

/-- A text that an integer's reader takes as `n`, from `low` to `high`. -/
def Numeral (low high : Nat) (text : List Char) (n : Nat) : Prop :=
  ∃ digits, (text = digits ∨ text = '+' :: digits) ∧ digits ≠ [] ∧ AllDigits digits ∧
    value digits = n ∧ low ≤ n ∧ n ≤ high

/-- Whether an integer's reader takes a text as a number from `low` to `high`. -/
def Reads (low high : Nat) (text : List Char) : Prop := ∃ n, Numeral low high text n

/-- At most `most` digits and nothing else. -/
def Plain (most : Nat) (text : List Char) : Prop := AllDigits text ∧ text.length ≤ most

/-- Parts that an integer's reader takes as those of a date, though one has a plus sign or too many
digits, or there are more than three. -/
def Loose : List (List Char) → Prop
  | [] => False
  | [y] => Reads 1000 9999 y ∧ ¬ Plain 4 y
  | [y, m] => Reads 1000 9999 y ∧ Reads 1 12 m ∧ ¬ (Plain 4 y ∧ Plain 2 m)
  | [y, m, d] =>
    Reads 1000 9999 y ∧ Reads 1 12 m ∧ Reads 1 31 d ∧ ¬ (Plain 4 y ∧ Plain 2 m ∧ Plain 2 d)
  | y :: m :: d :: _ :: _ => Reads 1000 9999 y ∧ Reads 1 12 m ∧ Reads 1 31 d

/-! ### Parts -/

theorem parseUnsigned_eq_some {max n : Nat} {text : List Char} :
    parseUnsigned max text = some n ↔
      ∃ digits, (text = digits ∨ text = '+' :: digits) ∧ digits ≠ [] ∧ AllDigits digits ∧
        value digits = n ∧ n ≤ max := by
  have hread : ∀ digits : List Char,
      (if digits.isEmpty || !digits.all Char.isDigit then none
        else if value digits ≤ max then some (value digits) else none) = some n ↔
      digits ≠ [] ∧ AllDigits digits ∧ value digits = n ∧ n ≤ max := by
    intro digits
    split
    case isTrue hbad =>
      refine iff_of_false (by simp) ?_
      rintro ⟨hne, hall, _⟩
      rw [List.isEmpty_eq_false_iff.mpr hne, List.all_eq_true.mpr hall] at hbad
      cases hbad
    case isFalse hgood =>
      rw [Bool.or_eq_true, not_or, Bool.not_eq_true, List.isEmpty_eq_false_iff, Bool.not_eq_true,
        Bool.not_eq_false', List.all_eq_true] at hgood
      have hall : AllDigits digits := hgood.2
      rw [and_iff_right hgood.1, and_iff_right hall]
      split
      case isTrue hle =>
        rw [Option.some.injEq]
        exact ⟨fun h => ⟨h, h ▸ hle⟩, fun h => h.1⟩
      case isFalse hlt =>
        refine iff_of_false (by simp) ?_
        rintro ⟨rfl, hle⟩
        exact hlt hle
  unfold parseUnsigned
  rw [hread]
  split
  case isTrue hplus =>
    obtain ⟨rest, rfl⟩ := List.head?_eq_some_iff.mp hplus
    constructor
    · intro h
      exact ⟨rest, Or.inr rfl, h⟩
    · rintro ⟨digits, rfl | h, hne, hall, hvalue⟩
      · exact absurd (hall '+' List.mem_cons_self) (by decide)
      · obtain rfl := (List.cons.inj h).2
        exact ⟨hne, hall, hvalue⟩
  case isFalse hplus =>
    constructor
    · intro h
      exact ⟨text, Or.inl rfl, h⟩
    · rintro ⟨digits, rfl | rfl, h⟩
      · exact h
      · exact absurd rfl hplus

theorem parsePart_eq_some {max low high n : Nat} {text : List Char} (hmax : high ≤ max) :
    parsePart max low high text = some n ↔ Numeral low high text n := by
  rw [parsePart, Option.filter_eq_some_iff, parseUnsigned_eq_some, decide_eq_true_eq]
  constructor
  · rintro ⟨⟨digits, htext, hne, hall, hvalue, _⟩, hrange⟩
    exact ⟨digits, htext, hne, hall, hvalue, hrange⟩
  · rintro ⟨digits, htext, hne, hall, hvalue, hrange⟩
    exact ⟨⟨digits, htext, hne, hall, hvalue, Nat.le_trans hrange.2 hmax⟩, hrange⟩

/-- A field is a numeral that is digits and no more than it has room for. -/
theorem field_iff {most low high n : Nat} {text : List Char} (hlow : 0 < low) :
    Field most low high text n ↔ Numeral low high text n ∧ Plain most text := by
  constructor
  · rintro ⟨hall, hlen, hvalue, hrange⟩
    refine ⟨⟨text, Or.inl rfl, ?_, hall, hvalue, hrange⟩, hall, hlen⟩
    rintro rfl
    rw [Decimal.value_nil] at hvalue
    omega
  · rintro ⟨⟨digits, rfl | rfl, _, _, hvalue, hrange⟩, hall, hlen⟩
    · exact ⟨hall, hlen, hvalue, hrange⟩
    · exact absurd (hall '+' List.mem_cons_self) (by decide)

theorem Numeral.inj {low high n n' : Nat} {text : List Char} (h : Numeral low high text n)
    (h' : Numeral low high text n') : n = n' := by
  have hsome := (parsePart_eq_some (Nat.le_refl high)).mpr h
  rw [(parsePart_eq_some (Nat.le_refl high)).mpr h'] at hsome
  exact (Option.some.inj hsome).symm

/-- What three parts or fewer make, and what those of more. -/
theorem ofParts_eq_some {parts : List (List Char)} {date : PartialDate} :
    ofParts parts = some date ↔
      match parts with
      | [] => False
      | [y] => ∃ year, Numeral 1000 9999 y year ∧ date = ⟨year, none, none⟩
      | [y, m] => ∃ year, Numeral 1000 9999 y year ∧ ∃ month, Numeral 1 12 m month ∧
          date = ⟨year, some month, none⟩
      | y :: m :: d :: _ => ∃ year, Numeral 1000 9999 y year ∧ ∃ month, Numeral 1 12 m month ∧
          ∃ day, Numeral 1 31 d day ∧ date = ⟨year, some month, some day⟩ := by
  have hyear : 9999 ≤ 65535 := by decide
  have hmonth : 12 ≤ 255 := by decide
  have hday : 31 ≤ 255 := by decide
  match parts with
  | [] => simp [ofParts]
  | [y] =>
    simp only [ofParts, Option.bind_eq_bind, Option.bind_eq_some_iff, parsePart_eq_some hyear,
      Option.pure_def, Option.some.injEq, eq_comm (b := date)]
  | [y, m] =>
    simp only [ofParts, Option.bind_eq_bind, Option.bind_eq_some_iff, parsePart_eq_some hyear,
      parsePart_eq_some hmonth, Option.pure_def, Option.some.injEq, eq_comm (b := date)]
  | y :: m :: d :: _ =>
    simp only [ofParts, Option.bind_eq_bind, Option.bind_eq_some_iff, parsePart_eq_some hyear,
      parsePart_eq_some hmonth, parsePart_eq_some hday, Option.pure_def, Option.some.injEq,
      eq_comm (b := date)]

theorem allDigits_not_hyphen {text : List Char} (h : AllDigits text) : '-' ∉ text := fun hmem =>
  absurd (h '-' hmem) (by decide)

theorem Field.splitOn {most low high n : Nat} {text : List Char}
    (h : Field most low high text n) : text.splitOn '-' = [text] :=
  List.splitOn_eq_singleton (allDigits_not_hyphen h.1)

/-- A date is what is read of parts that are not loose. -/
theorem dateText_iff {text : List Char} {date : PartialDate} :
    DateText text date ↔
      ofParts (text.splitOn '-') = some date ∧ ¬ Loose (text.splitOn '-') := by
  have hyear : 0 < 1000 := by decide
  constructor
  · intro h
    cases h with
    | @year _ year hy =>
      have hread := (field_iff hyear).mp hy
      rw [hy.splitOn, ofParts_eq_some]
      exact ⟨⟨year, hread.1, rfl⟩, fun h => h.2 hread.2⟩
    | @month y m year month hy hm =>
      have hreadY := (field_iff hyear).mp hy
      have hreadM := (field_iff Nat.one_pos).mp hm
      rw [List.splitOn_append_cons_self, hy.splitOn, hm.splitOn, List.singleton_append,
        ofParts_eq_some]
      exact ⟨⟨year, hreadY.1, month, hreadM.1, rfl⟩, fun h => h.2.2 ⟨hreadY.2, hreadM.2⟩⟩
    | @day y m d year month day hy hm hd =>
      have hreadY := (field_iff hyear).mp hy
      have hreadM := (field_iff Nat.one_pos).mp hm
      have hreadD := (field_iff Nat.one_pos).mp hd
      rw [List.splitOn_append_cons_self, List.splitOn_append_cons_self, hy.splitOn, hm.splitOn,
        hd.splitOn, List.singleton_append, List.singleton_append, ofParts_eq_some]
      exact ⟨⟨year, hreadY.1, month, hreadM.1, day, hreadD.1, rfl⟩,
        fun h => h.2.2.2 ⟨hreadY.2, hreadM.2, hreadD.2⟩⟩
  · rintro ⟨hread, hloose⟩
    have htext : ['-'].intercalate (text.splitOn '-') = text := List.intercalate_splitOn '-'
    rw [ofParts_eq_some] at hread
    rw [← htext]
    generalize text.splitOn '-' = parts at hread hloose
    match parts, hread, hloose with
    | [y], hread, hloose =>
      obtain ⟨year, hy, rfl⟩ := hread
      have hplain : Plain 4 y := by
        by_contra hplain
        exact hloose ⟨⟨year, hy⟩, hplain⟩
      rw [List.intercalate_singleton]
      exact .year ((field_iff hyear).mpr ⟨hy, hplain⟩)
    | [y, m], hread, hloose =>
      obtain ⟨year, hy, month, hm, rfl⟩ := hread
      have hplain : Plain 4 y ∧ Plain 2 m := by
        by_contra hplain
        exact hloose ⟨⟨year, hy⟩, ⟨month, hm⟩, hplain⟩
      rw [List.intercalate_cons_cons, List.intercalate_singleton, List.append_assoc,
        List.singleton_append]
      exact .month ((field_iff hyear).mpr ⟨hy, hplain.1⟩)
        ((field_iff Nat.one_pos).mpr ⟨hm, hplain.2⟩)
    | [y, m, d], hread, hloose =>
      obtain ⟨year, hy, month, hm, day, hd, rfl⟩ := hread
      have hplain : Plain 4 y ∧ Plain 2 m ∧ Plain 2 d := by
        by_contra hplain
        exact hloose ⟨⟨year, hy⟩, ⟨month, hm⟩, ⟨day, hd⟩, hplain⟩
      rw [List.intercalate_cons_cons, List.intercalate_cons_cons, List.intercalate_singleton,
        List.append_assoc, List.singleton_append, List.append_assoc, List.singleton_append]
      exact .day ((field_iff hyear).mpr ⟨hy, hplain.1⟩)
        ((field_iff Nat.one_pos).mpr ⟨hm, hplain.2.1⟩)
        ((field_iff Nat.one_pos).mpr ⟨hd, hplain.2.2⟩)
    | y :: m :: d :: _ :: _, hread, hloose =>
      obtain ⟨year, hy, month, hm, day, hd, _⟩ := hread
      exact absurd ⟨⟨year, hy⟩, ⟨month, hm⟩, ⟨day, hd⟩⟩ hloose

/-- Loose parts are read as a date. -/
theorem Loose.read {parts : List (List Char)} (h : Loose parts) :
    ∃ date, ofParts parts = some date := by
  simp only [ofParts_eq_some]
  match parts, h with
  | [y], ⟨⟨year, hy⟩, _⟩ => exact ⟨_, year, hy, rfl⟩
  | [y, m], ⟨⟨year, hy⟩, ⟨month, hm⟩, _⟩ => exact ⟨_, year, hy, month, hm, rfl⟩
  | [y, m, d], ⟨⟨year, hy⟩, ⟨month, hm⟩, ⟨day, hd⟩, _⟩ =>
    exact ⟨_, year, hy, month, hm, day, hd, rfl⟩
  | y :: m :: d :: _ :: _, ⟨⟨year, hy⟩, ⟨month, hm⟩, ⟨day, hd⟩⟩ =>
    exact ⟨_, year, hy, month, hm, day, hd, rfl⟩

/-! ### Tags -/

theorem DateText.chars {text : List Char} {date : PartialDate} (h : DateText text date) :
    ∀ c ∈ text, c.isDigit = true ∨ c = '-' := by
  have hdigits : ∀ {most low high n : Nat} {part : List Char}, Field most low high part n →
      ∀ c ∈ part, c.isDigit = true ∨ c = '-' := fun h c hc => Or.inl (h.1 c hc)
  cases h with
  | year hy => exact hdigits hy
  | month hy hm =>
    rw [List.forall_mem_append, List.forall_mem_cons]
    exact ⟨hdigits hy, Or.inr rfl, hdigits hm⟩
  | day hy hm hd =>
    rw [List.forall_mem_append, List.forall_mem_cons, List.forall_mem_append, List.forall_mem_cons]
    exact ⟨hdigits hy, Or.inr rfl, hdigits hm, Or.inr rfl, hdigits hd⟩

/-- A tag is written as a date exactly if its part up to a time is one. -/
theorem written_iff_datePart {raw : List Char} {date : PartialDate} :
    Written raw date ↔ DateText (datePart raw) date := by
  constructor
  · rintro ⟨text, rest, htrim, htext, hrest⟩
    have hpass : ∀ c ∈ text, decide (c ≠ 'T' ∧ c ≠ ' ') = true := by
      intro c hc
      rw [decide_eq_true_eq]
      constructor
      · rintro rfl
        exact absurd (htext.chars _ hc) (by decide)
      · rintro rfl
        exact absurd (htext.chars _ hc) (by decide)
    have hstop : rest.takeWhile (fun c => decide (c ≠ 'T' ∧ c ≠ ' ')) = [] := by
      cases rest with
      | nil => rfl
      | cons c rest =>
        apply List.takeWhile_cons_of_neg
        rw [decide_eq_true_eq, not_and_or, not_not, not_not]
        exact hrest c rfl
    rw [datePart, htrim, List.takeWhile_append_of_pos hpass, hstop, List.append_nil]
    exact htext
  · intro h
    refine ⟨datePart raw, (trim raw).dropWhile fun c => decide (c ≠ 'T' ∧ c ≠ ' '),
      List.takeWhile_append_dropWhile.symm, h, ?_⟩
    intro c hc
    have hhead := List.head?_dropWhile_not (fun c => decide (c ≠ 'T' ∧ c ≠ ' ')) (trim raw)
    rw [Option.mem_def.mp hc] at hhead
    have hstop := of_decide_eq_false hhead
    rw [not_and_or, not_not, not_not] at hstop
    exact hstop

theorem written_iff {raw : List Char} {date : PartialDate} :
    Written raw date ↔
      parse raw = some date ∧ ¬ Loose ((datePart raw).splitOn '-') :=
  written_iff_datePart.trans dateText_iff

/-- A date that is read is one. -/
theorem parse_valid {raw : List Char} {date : PartialDate} (h : parse raw = some date) :
    date.Valid := by
  rw [parse, ofParts_eq_some] at h
  have hrange : ∀ {low high n : Nat} {text : List Char}, Numeral low high text n →
      low ≤ n ∧ n ≤ high := fun ⟨_, _, _, _, _, hrange⟩ => hrange
  have hnone : ∀ {p : Nat → Prop}, ∀ n ∈ (none : Option Nat), p n := fun _ hn => by cases hn
  have hsome : ∀ {p : Nat → Prop} {m : Nat}, p m → ∀ n ∈ some m, p n := by
    intro p m hm n hn
    obtain rfl := Option.mem_some.mp hn
    exact hm
  generalize (datePart raw).splitOn '-' = parts at h
  match parts, h with
  | [_], h =>
    obtain ⟨_, hy, rfl⟩ := h
    exact ⟨hrange hy, hnone, hnone, fun _ => rfl⟩
  | [_, _], h =>
    obtain ⟨_, hy, _, hm, rfl⟩ := h
    exact ⟨hrange hy, hsome (hrange hm), hnone, fun _ => rfl⟩
  | _ :: _ :: _ :: _, h =>
    obtain ⟨_, hy, _, hm, _, hd, rfl⟩ := h
    exact ⟨hrange hy, hsome (hrange hm), hsome (hrange hd), fun h => by cases h⟩

/-! ### Displayed dates -/

theorem field_padded {most low high n : Nat} (hmost : 0 < most) (hhigh : high < 10 ^ most)
    (h : low ≤ n ∧ n ≤ high) : Field most low high (padded most n) n :=
  ⟨Decimal.allDigits_padded most n,
    Nat.le_of_eq (Decimal.length_padded hmost (Nat.lt_of_le_of_lt h.2 hhigh)),
    Decimal.value_padded most n, h⟩

theorem dateText_display {date : PartialDate} (h : date.Valid) : DateText date.display date := by
  obtain ⟨year, month, day⟩ := date
  obtain ⟨hyear, hmonth, hday, hprecision⟩ := h
  have hy : Field 4 1000 9999 (padded 4 year) year := field_padded (by decide) (by decide) hyear
  cases month with
  | none =>
    obtain rfl : day = none := hprecision rfl
    rw [display, List.append_nil]
    exact .year hy
  | some month =>
    have hm : Field 2 1 12 (padded 2 month) month :=
      field_padded (by decide) (by decide) (hmonth month rfl)
    cases day with
    | none =>
      have hmonth := DateText.month hy hm
      rwa [← List.append_nil (padded 2 month)] at hmonth
    | some day =>
      exact .day hy hm (field_padded (by decide) (by decide) (hday day rfl))

/-- Text with no whitespace is not trimmed. -/
theorem trim_eq_self {text : List Char} (h : ∀ c ∈ text, Network.isWhitespace c = false) :
    trim text = text := by
  have hkeep : ∀ chars : List Char, (∀ c ∈ chars, Network.isWhitespace c = false) →
      chars.dropWhile Network.isWhitespace = chars := by
    intro chars hchars
    cases chars with
    | nil => rfl
    | cons c chars =>
      apply List.dropWhile_cons_of_neg
      rw [hchars c List.mem_cons_self]
      exact Bool.false_ne_true
  rw [trim, hkeep text h, hkeep text.reverse fun c hc => h c (List.mem_reverse.mp hc),
    List.reverse_reverse]

theorem not_whitespace {c : Char} (h : c.isDigit = true ∨ c = '-') :
    Network.isWhitespace c = false := by
  rcases h with h | rfl
  · have hbounds := Decimal.isDigit_iff.mp h
    have hall : ∀ n < 58, 48 ≤ n → Network.isWhitespace (Char.ofNat n) = false := by decide
    rw [← Char.ofNat_toNat c]
    exact hall c.toNat (Nat.lt_succ_of_le hbounds.2) hbounds.1
  · decide

/-- A date is read back from its text. -/
theorem parse_display {date : PartialDate} (h : date.Valid) : parse date.display = some date := by
  have htext := dateText_display h
  have htrim := trim_eq_self fun c hc => not_whitespace (htext.chars c hc)
  have hwritten : Written date.display date :=
    ⟨date.display, [], by rw [htrim, List.append_nil], htext, fun c hc => by cases hc⟩
  exact (written_iff.1 hwritten).1

/-! ### The order of displayed dates -/

/-- The text of what follows a year. -/
theorem display_eq (date : PartialDate) : date.display = padded 4 date.year ++
    (date.month.elim [] fun month =>
      '-' :: (padded 2 month ++ date.day.elim [] fun day => '-' :: (padded 2 day ++ []))) := by
  obtain ⟨year, month, day⟩ := date
  cases month with
  | none => rfl
  | some month =>
    cases day with
    | none => rfl
    | some day => rw [Option.elim_some, Option.elim_some, List.append_nil]; rfl

theorem lexOrder_padded {width m n : Nat} (hwidth : 0 < width) (hm : m < 10 ^ width)
    (hn : n < 10 ^ width) (text other : List Char) :
    lexOrder ((padded width m ++ text).map Char.toNat) ((padded width n ++ other).map Char.toNat) =
      (order m n).then (lexOrder (text.map Char.toNat) (other.map Char.toNat)) := by
  have hlen : (padded width m).length = (padded width n).length :=
    (Decimal.length_padded hwidth hm).trans (Decimal.length_padded hwidth hn).symm
  rw [List.map_append, List.map_append,
    Lexical.lexOrder_append (by rw [List.length_map, List.length_map, hlen]),
    Decimal.lexOrder_digits (Decimal.allDigits_padded width m) (Decimal.allDigits_padded width n)
      hlen, Decimal.value_padded, Decimal.value_padded]

/-- A part that may be left out, behind a hyphen. -/
theorem lexOrder_part {m n : Option Nat} (hm : ∀ k ∈ m, k < 100) (hn : ∀ k ∈ n, k < 100)
    (text other : Nat → List Char) :
    lexOrder ((m.elim [] fun k => '-' :: (padded 2 k ++ text k)).map Char.toNat)
        ((n.elim [] fun k => '-' :: (padded 2 k ++ other k)).map Char.toNat) =
      (optionOrder m n).then
        (m.elim .eq fun k => n.elim .eq fun l =>
          lexOrder ((text k).map Char.toNat) ((other l).map Char.toNat)) := by
  cases m with
  | none => cases n <;> rfl
  | some k =>
    cases n with
    | none => rfl
    | some l =>
      rw [Option.elim_some, Option.elim_some, List.map_cons, List.map_cons, Lexical.lexOrder_cons,
        Lexical.order_self, Ordering.eq_then,
        lexOrder_padded (by decide) (hm k rfl) (hn l rfl)]
      rfl

/-- Displayed dates compare as the dates do. -/
theorem byteOrder_display {date other : PartialDate} (h : date.Valid) (h' : other.Valid) :
    byteOrder (utf8 (String.ofList date.display)) (utf8 (String.ofList other.display)) =
      date.cmp other := by
  have hascii : ∀ {date : PartialDate}, date.Valid → ∀ c ∈ date.display, c.toNat < 128 := by
    intro date h c hc
    rcases (dateText_display h).chars c hc with hc | rfl
    · have hbounds := Decimal.isDigit_iff.mp hc
      omega
    · decide
  have hmonths : ∀ {date : PartialDate}, date.Valid → ∀ k ∈ date.month, k < 100 := by
    intro date h k hk
    have hle := (h.month k hk).2
    omega
  have hdays : ∀ {date : PartialDate}, date.Valid → ∀ k ∈ date.day, k < 100 := by
    intro date h k hk
    have hle := (h.day k hk).2
    omega
  have hyear := h.year.2
  have hyear' := h'.year.2
  have hprecision := h.precision
  have hprecision' := h'.precision
  rw [byteOrder, Bytes.utf8_ascii (hascii h), Bytes.utf8_ascii (hascii h'), display_eq, display_eq,
    lexOrder_padded (by decide) (by omega) (by omega),
    lexOrder_part (hmonths h) (hmonths h') _ _, cmp]
  congr 1
  cases hmonth : date.month with
  | none =>
    cases hmonth' : other.month with
    | none =>
      rw [hprecision hmonth, hprecision' hmonth']
      rfl
    | some month' => rfl
  | some month =>
    cases hmonth' : other.month with
    | none => rfl
    | some month' =>
      rw [Option.elim_some, Option.elim_some, lexOrder_part (hdays h) (hdays h')]
      cases date.day <;> cases other.day <;> simp [Lexical.lexOrder, List.compareLex]

/-! ### What `parse` accepts -/

/-- A part after a day is not read, so a text that is no date is read as one. -/
theorem fourth_part_read :
    ¬ ∀ raw date, parse raw = some date ↔ Written raw date := by
  intro h
  have hread : parse "1991-09-24-17".toList = some ⟨1991, some 9, some 24⟩ := by decide +kernel
  have hparts : (datePart "1991-09-24-17".toList).splitOn '-' =
      ["1991".toList, "09".toList, "24".toList, "17".toList] := by decide +kernel
  have hwritten := (h _ _).mp hread
  obtain ⟨hsame, hloose⟩ := written_iff.1 hwritten
  rw [hparts] at hloose
  rw [parse, hparts, ofParts_eq_some] at hsame
  obtain ⟨year, hyear, month, hmonth, day, hday, _⟩ := hsame
  exact hloose ⟨⟨year, hyear⟩, ⟨month, hmonth⟩, ⟨day, hday⟩⟩

/-- **A date is guessed only of loose parts.** A text is read as exactly the date that it writes
unless its parts are numerals of a date's ranges of which one has a plus sign or too many digits,
or which more parts follow. Every date is read back from its text, and dates are in the order of
their texts' bytes. -/
theorem parse_exact (raw : List Char) :
    ((∀ date, parse raw = some date ↔ Written raw date) ↔
      ¬ Loose ((datePart raw).splitOn '-')) ∧
    (∀ date, parse raw = some date → parse date.display = some date) ∧
    (∀ date other : PartialDate, date.Valid → other.Valid →
      byteOrder (utf8 (String.ofList date.display)) (utf8 (String.ofList other.display)) =
        date.cmp other) := by
  refine ⟨?_, ?_, ?_⟩
  · constructor
    · intro hexact hloose
      obtain ⟨date, hdate⟩ := hloose.read
      exact (written_iff.1 ((hexact date).mp hdate)).2 hloose
    · intro hloose date
      rw [written_iff, and_iff_left hloose]
  · intro date h
    exact parse_display (parse_valid h)
  · intro date other h h'
    exact byteOrder_display h h'

end PartialDate
end JewelCase.Scanner
