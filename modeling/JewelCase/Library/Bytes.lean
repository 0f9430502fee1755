import JewelCase.Library.Decimal
import Mathlib.Algebra.GroupWithZero.Nat
import Mathlib.Data.List.Induction

/-!
# Numbers and text as bytes

Numbers big-endian, in a given count of bytes, and text in UTF-8. Each is read back from its bytes,
and no other bytes are read as it.
-/
namespace JewelCase.Library.Bytes

set_option autoImplicit false

/-- The lowest `k` bytes of a number, the highest first. -/
def toBe : Nat → Nat → List UInt8
  | 0, _ => []
  | k + 1, n => toBe k (n / 256) ++ [UInt8.ofNat n]

/-- The number that bytes write, the highest first. -/
def fromBe (bytes : List UInt8) : Nat :=
  bytes.foldl (fun n b => n * 256 + b.toNat) 0

variable {k n : Nat} {bytes : List UInt8}

@[simp] theorem length_toBe (k n : Nat) : (toBe k n).length = k := by
  induction k generalizing n with
  | zero => rfl
  | succ k ih => rw [toBe, List.length_append, ih, List.length_singleton]

@[simp] theorem fromBe_nil : fromBe [] = 0 := rfl

theorem fromBe_concat (bytes : List UInt8) (b : UInt8) :
    fromBe (bytes ++ [b]) = fromBe bytes * 256 + b.toNat := by
  simp only [fromBe, List.foldl_append, List.foldl_cons, List.foldl_nil]

theorem fromBe_toBe (h : n < 256 ^ k) : fromBe (toBe k n) = n := by
  induction k generalizing n with
  | zero =>
    rw [Nat.pow_zero] at h
    rw [toBe, fromBe_nil]
    omega
  | succ k ih =>
    have hdiv : n / 256 < 256 ^ k := by
      rw [Nat.pow_succ] at h
      omega
    rw [toBe, fromBe_concat, ih hdiv, UInt8.toNat_ofNat']
    omega

theorem fromBe_lt (bytes : List UInt8) : fromBe bytes < 256 ^ bytes.length := by
  induction bytes using List.reverseRecOn with
  | nil => exact Nat.one_pos
  | append_singleton bytes b ih =>
    have hb := b.toNat_lt
    rw [fromBe_concat, List.length_append, List.length_singleton, Nat.pow_succ]
    omega

/-- No other bytes than a number's own are read as it. -/
theorem toBe_fromBe (bytes : List UInt8) : toBe bytes.length (fromBe bytes) = bytes := by
  induction bytes using List.reverseRecOn with
  | nil => rfl
  | append_singleton bytes b ih =>
    have hb := b.toNat_lt
    have hdiv : (fromBe bytes * 256 + b.toNat) / 256 = fromBe bytes := by omega
    have hlast : UInt8.ofNat (fromBe bytes * 256 + b.toNat) = b := by
      apply UInt8.toNat_inj.mp
      rw [UInt8.toNat_ofNat']
      omega
    rw [List.length_append, List.length_singleton, toBe, fromBe_concat, hdiv, ih, hlast]

/-! ### Signed numbers -/

/-- The numbers that eight bytes hold in two's complement. -/
def Signed (i : Int) : Prop := -9223372036854775808 ≤ i ∧ i < 9223372036854775808

instance (i : Int) : Decidable (Signed i) := inferInstanceAs (Decidable (_ ∧ _))

/-- The eight bytes of a number in two's complement. -/
def signedBe (i : Int) : List UInt8 := toBe 8 (i % 18446744073709551616).toNat

def fromSignedBe (bytes : List UInt8) : Int :=
  if fromBe bytes < 9223372036854775808 then fromBe bytes
  else fromBe bytes - 18446744073709551616

theorem fromBe_lt_eight (hlen : bytes.length = 8) : fromBe bytes < 18446744073709551616 := by
  have hlt := fromBe_lt bytes
  rw [hlen] at hlt
  exact hlt

theorem fromSignedBe_signedBe {i : Int} (h : Signed i) : fromSignedBe (signedBe i) = i := by
  obtain ⟨hlow, hhigh⟩ := h
  have hbound : (i % 18446744073709551616).toNat < 18446744073709551616 := by omega
  rw [fromSignedBe, signedBe, fromBe_toBe (k := 8) hbound]
  split <;> omega

theorem signed_fromSignedBe (hlen : bytes.length = 8) : Signed (fromSignedBe bytes) := by
  have hlt := fromBe_lt_eight hlen
  unfold fromSignedBe Signed
  split <;> omega

theorem signedBe_fromSignedBe (hlen : bytes.length = 8) : signedBe (fromSignedBe bytes) = bytes := by
  have hlt := fromBe_lt_eight hlen
  have hsame : (fromSignedBe bytes % 18446744073709551616).toNat = fromBe bytes := by
    unfold fromSignedBe
    split <;> omega
  rw [signedBe, hsame, ← hlen, toBe_fromBe]

/-! ### Text -/

/-- A text's bytes. -/
def utf8 (text : String) : List UInt8 := text.toByteArray.data.toList

/-- The text whose bytes these are, if there is one. -/
def fromUtf8 (bytes : List UInt8) : Option String := String.fromUTF8? ⟨bytes.toArray⟩

theorem fromUtf8_eq_some {text : String} : fromUtf8 bytes = some text ↔ utf8 text = bytes := by
  unfold fromUtf8 String.fromUTF8? utf8
  split <;> rename_i hvalid
  · rw [Option.some.injEq, ← String.toByteArray_inj]
    constructor
    · intro h
      rw [← h]
      rfl
    · intro h
      apply ByteArray.ext
      apply Array.ext'
      rw [h]
      rfl
  · refine iff_of_false (by simp) ?_
    intro h
    apply hvalid
    rw [← h]
    exact text.isValidUTF8

theorem utf8_inj {text other : String} : utf8 text = utf8 other ↔ text = other := by
  constructor
  · intro h
    have hsame := fromUtf8_eq_some.2 h
    rw [fromUtf8_eq_some.2 rfl] at hsame
    exact (Option.some.inj hsame).symm
  · rintro rfl
    rfl

/-- How two texts' bytes compare, each as a number. -/
def byteOrder (bytes others : List UInt8) : Ordering :=
  Lexical.lexOrder (bytes.map UInt8.toNat) (others.map UInt8.toNat)

/-- ASCII is written in a byte a character. -/
theorem utf8_ascii {chars : List Char} (h : ∀ c ∈ chars, c.toNat < 128) :
    (utf8 (String.ofList chars)).map UInt8.toNat = chars.map Char.toNat := by
  rw [utf8, String.toByteArray_ofList, List.utf8Encode, List.data_toByteArray]
  induction chars with
  | nil => rfl
  | cons c chars ih =>
    obtain ⟨hc, hchars⟩ := List.forall_mem_cons.mp h
    have hone : String.utf8EncodeChar c = [UInt8.ofNat c.toNat] :=
      if_pos (Nat.le_of_lt_succ hc)
    have hsame : (UInt8.ofNat c.toNat).toNat = c.toNat := by
      rw [UInt8.toNat_ofNat']
      omega
    rw [List.flatMap_cons, List.map_append, ih hchars, hone, List.map_cons, List.map_cons, hsame]
    rfl

end JewelCase.Library.Bytes
