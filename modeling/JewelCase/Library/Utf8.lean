import Mathlib.Data.List.Basic

/-!
# UTF-8, read for better or worse

Bytes read as text, with `U+FFFD` for each longest start of a character that is not one.
-/
namespace JewelCase.Library.Utf8

set_option autoImplicit false

/-- Text decoded so far, and what a character under way still wants: how many bytes, the bounds of the
next one, and its code up to here. -/
structure Decoding where
  text : List Char
  wanted : Nat
  lower : Nat
  upper : Nat
  code : Nat
deriving DecidableEq, Repr

/-- Between two characters. -/
def Decoding.between (text : List Char) : Decoding := ⟨text, 0, 0x80, 0xBF, 0⟩

def replacement : Char := Char.ofNat 0xFFFD

/-- A byte that begins a character, or is none. -/
def lead (text : List Char) (b : Nat) : Decoding :=
  if b < 0x80 then .between (text ++ [Char.ofNat b])
  else if 0xC2 ≤ b ∧ b ≤ 0xDF then ⟨text, 1, 0x80, 0xBF, b - 0xC0⟩
  else if 0xE0 ≤ b ∧ b ≤ 0xEF then
    ⟨text, 2, if b = 0xE0 then 0xA0 else 0x80, if b = 0xED then 0x9F else 0xBF, b - 0xE0⟩
  else if 0xF0 ≤ b ∧ b ≤ 0xF4 then
    ⟨text, 3, if b = 0xF0 then 0x90 else 0x80, if b = 0xF4 then 0x8F else 0xBF, b - 0xF0⟩
  else .between (text ++ [replacement])

def Decoding.next (d : Decoding) (byte : UInt8) : Decoding :=
  let b := byte.toNat
  if d.wanted = 0 then lead d.text b
  else if d.lower ≤ b ∧ b ≤ d.upper then
    let code := d.code * 64 + (b - 0x80)
    if d.wanted = 1 then .between (d.text ++ [Char.ofNat code])
    else ⟨d.text, d.wanted - 1, 0x80, 0xBF, code⟩
  else lead (d.text ++ [replacement]) b

/-- `String::from_utf8_lossy` -/
def lossy (bytes : List UInt8) : List Char :=
  let d := bytes.foldl Decoding.next (.between [])
  if d.wanted = 0 then d.text else d.text ++ [replacement]

/-- The bytes of a text. -/
def encode (text : List Char) : List UInt8 := text.flatMap String.utf8EncodeChar

theorem toNat_byte {n : Nat} (h : n < 256) : (UInt8.ofNat n).toNat = n := by
  rw [UInt8.toNat_ofNat']
  exact Nat.mod_eq_of_lt h

/-- A byte that goes on with a character, and does not end it. -/
theorem next_more {d : Decoding} {n : Nat} (hbyte : n < 256) (hlower : d.lower ≤ n)
    (hupper : n ≤ d.upper) (hwanted : 1 < d.wanted) :
    d.next (UInt8.ofNat n) = ⟨d.text, d.wanted - 1, 0x80, 0xBF, d.code * 64 + (n - 0x80)⟩ := by
  unfold Decoding.next
  rw [toNat_byte hbyte, if_neg (by omega), if_pos ⟨hlower, hupper⟩, if_neg (by omega)]

theorem next_last {d : Decoding} {n : Nat} (hbyte : n < 256) (hlower : d.lower ≤ n)
    (hupper : n ≤ d.upper) (hwanted : d.wanted = 1) :
    d.next (UInt8.ofNat n) =
      .between (d.text ++ [Char.ofNat (d.code * 64 + (n - 0x80))]) := by
  unfold Decoding.next
  rw [toNat_byte hbyte, if_neg (by omega), if_pos ⟨hlower, hupper⟩, if_pos hwanted]

theorem next_lead {text : List Char} {n : Nat} (hbyte : n < 256) :
    (Decoding.between text).next (UInt8.ofNat n) = lead text n := by
  unfold Decoding.next Decoding.between
  dsimp only
  rw [if_pos rfl, toNat_byte hbyte]

/-- The bytes of one character are read as it. -/
theorem foldl_encodeChar (text : List Char) (c : Char) :
    (String.utf8EncodeChar c).foldl Decoding.next (.between text) = .between (text ++ [c]) := by
  have hvalid : c.toNat < 0xD800 ∨ 0xDFFF < c.toNat ∧ c.toNat < 0x110000 := c.valid
  have hc : Char.ofNat c.toNat = c := Char.ofNat_toNat c
  have hv : c.val.toNat = c.toNat := rfl
  simp only [String.utf8EncodeChar, hv]
  generalize c.toNat = v at hvalid hc
  split_ifs with hone htwo hthree
  · rw [List.foldl_cons, List.foldl_nil, next_lead (by omega), lead, if_pos (by omega), hc]
  · rw [List.foldl_cons, next_lead (by omega), lead, if_neg (by omega), if_pos (by omega),
      List.foldl_cons, next_last, List.foldl_nil]
    · rw [show (v / 64 % 32 + 192 - 192) * 64 + (v % 64 + 128 - 128) = v by omega, hc]
    all_goals grind
  · rw [List.foldl_cons, next_lead (by omega), lead, if_neg (by omega), if_neg (by omega),
      if_pos (by omega), List.foldl_cons, next_more, List.foldl_cons, next_last, List.foldl_nil]
    · rw [show ((v / 4096 % 16 + 224 - 224) * 64 + (v / 64 % 64 + 128 - 128)) * 64 +
        (v % 64 + 128 - 128) = v by omega, hc]
    all_goals grind
  · rw [List.foldl_cons, next_lead (by omega), lead, if_neg (by omega), if_neg (by omega),
      if_neg (by omega), if_pos (by omega), List.foldl_cons, next_more, List.foldl_cons, next_more,
      List.foldl_cons, next_last, List.foldl_nil]
    · rw [show (((v / 262144 % 8 + 240 - 240) * 64 + (v / 4096 % 64 + 128 - 128)) * 64 +
        (v / 64 % 64 + 128 - 128)) * 64 + (v % 64 + 128 - 128) = v by omega, hc]
    all_goals grind

theorem foldl_encode (text more : List Char) :
    (encode more).foldl Decoding.next (.between text) = .between (text ++ more) := by
  induction more generalizing text with
  | nil => rw [List.append_nil]; rfl
  | cons c more ih =>
    rw [encode, List.flatMap_cons, List.foldl_append, foldl_encodeChar]
    refine (ih _).trans ?_
    rw [List.append_assoc, List.singleton_append]

/-- **A text's bytes are read as the text.** -/
theorem lossy_encode (text : List Char) : lossy (encode text) = text := by
  rw [lossy, foldl_encode]
  rfl

end JewelCase.Library.Utf8
