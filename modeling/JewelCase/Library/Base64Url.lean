import Mathlib.Data.List.GetD

/-!
# URL-safe base64

Without padding, and strict: three bytes are four symbols, the last one or two bytes are two or
three, and the bits that a last symbol has to spare are zero. So no two texts are read as the same
bytes, and what a longer text is read as starts with what a shorter start of it is.
-/
namespace JewelCase.Library.Base64Url

set_option autoImplicit false

/-- The symbols, by the six bits they write. -/
def alphabet : List Char :=
  ['A', 'B', 'C', 'D', 'E', 'F', 'G', 'H', 'I', 'J', 'K', 'L', 'M', 'N', 'O', 'P', 'Q', 'R', 'S',
   'T', 'U', 'V', 'W', 'X', 'Y', 'Z', 'a', 'b', 'c', 'd', 'e', 'f', 'g', 'h', 'i', 'j', 'k', 'l',
   'm', 'n', 'o', 'p', 'q', 'r', 's', 't', 'u', 'v', 'w', 'x', 'y', 'z', '0', '1', '2', '3', '4',
   '5', '6', '7', '8', '9', '-', '_']

def symbol (bits : Nat) : Char := alphabet.getD bits 'A'

/-- The six bits that a symbol writes. -/
def sextet (c : Char) : Option Nat := alphabet.findIdx? (· == c)

theorem sextet_symbol {bits : Nat} (h : bits < 64) : sextet (symbol bits) = some bits := by
  have hall : ∀ n < 64, sextet (symbol n) = some n := by decide
  exact hall bits h

theorem sextet_eq_some {c : Char} {bits : Nat} (h : sextet c = some bits) :
    bits < 64 ∧ symbol bits = c := by
  obtain ⟨hlt, hc, _⟩ := List.findIdx?_eq_some_iff_getElem.mp h
  have hlen : alphabet.length = 64 := rfl
  refine ⟨by omega, ?_⟩
  rw [symbol, List.getD_eq_getElem _ _ hlt]
  exact beq_iff_eq.mp hc

/-! ### Bytes in groups of six bits -/

def sextets : List UInt8 → List Nat
  | a :: b :: c :: rest =>
    a.toNat / 4 :: (a.toNat % 4 * 16 + b.toNat / 16) :: (b.toNat % 16 * 4 + c.toNat / 64) ::
      c.toNat % 64 :: sextets rest
  | [a, b] => [a.toNat / 4, a.toNat % 4 * 16 + b.toNat / 16, b.toNat % 16 * 4]
  | [a] => [a.toNat / 4, a.toNat % 4 * 16]
  | [] => []

/-- The bytes of groups of six bits, unless bits are left over or one to spare is set. -/
def unsextets : List Nat → Option (List UInt8)
  | p :: q :: r :: s :: rest =>
    (unsextets rest).map fun rest =>
      UInt8.ofNat (p * 4 + q / 16) :: UInt8.ofNat (q % 16 * 16 + r / 4) ::
        UInt8.ofNat (r % 4 * 64 + s) :: rest
  | [p, q, r] =>
    if r % 4 = 0 then
      some [UInt8.ofNat (p * 4 + q / 16), UInt8.ofNat (q % 16 * 16 + r / 4)]
    else none
  | [p, q] => if q % 16 = 0 then some [UInt8.ofNat (p * 4 + q / 16)] else none
  | [_] => none
  | [] => some []

theorem ofNat_eq {n : Nat} {b : UInt8} (h : n = b.toNat) : UInt8.ofNat n = b := by
  rw [h, UInt8.ofNat_toNat]

theorem sextets_lt (bytes : List UInt8) : ∀ n ∈ sextets bytes, n < 64 := by
  fun_induction sextets bytes with
  | case1 a b c rest ih =>
    have ha := a.toNat_lt
    have hb := b.toNat_lt
    have hc := c.toNat_lt
    simp only [List.mem_cons, forall_eq_or_imp]
    exact ⟨by omega, by omega, by omega, by omega, ih⟩
  | case2 a b =>
    have ha := a.toNat_lt
    have hb := b.toNat_lt
    simp only [List.mem_cons, forall_eq_or_imp, List.not_mem_nil, false_implies, implies_true,
      and_true]
    exact ⟨by omega, by omega, by omega⟩
  | case3 a =>
    have ha := a.toNat_lt
    simp only [List.mem_cons, forall_eq_or_imp, List.not_mem_nil, false_implies, implies_true,
      and_true]
    exact ⟨by omega, by omega⟩
  | case4 => simp

theorem unsextets_sextets (bytes : List UInt8) : unsextets (sextets bytes) = some bytes := by
  fun_induction sextets bytes with
  | case1 a b c rest ih =>
    have ha := a.toNat_lt
    have hb := b.toNat_lt
    have hc := c.toNat_lt
    rw [unsextets, ih, Option.map_some, ofNat_eq (b := a) (by omega), ofNat_eq (b := b) (by omega),
      ofNat_eq (b := c) (by omega)]
  | case2 a b =>
    have ha := a.toNat_lt
    have hb := b.toNat_lt
    rw [unsextets, if_pos (by omega), ofNat_eq (b := a) (by omega), ofNat_eq (b := b) (by omega)]
  | case3 a =>
    have ha := a.toNat_lt
    rw [unsextets, if_pos (by omega), ofNat_eq (b := a) (by omega)]
  | case4 => rfl

theorem sextets_unsextets {ns : List Nat} {bytes : List UInt8} (hns : ∀ n ∈ ns, n < 64)
    (h : unsextets ns = some bytes) : sextets bytes = ns := by
  fun_induction unsextets ns generalizing bytes with
  | case1 p q r s rest ih =>
    simp only [List.mem_cons, forall_eq_or_imp] at hns
    obtain ⟨hp, hq, hr, hs, hrest⟩ := hns
    obtain ⟨tail, htail, rfl⟩ := Option.map_eq_some_iff.mp h
    rw [sextets, ih hrest htail]
    simp only [UInt8.toNat_ofNat', List.cons.injEq, and_true]
    exact ⟨by omega, by omega, by omega, by omega⟩
  | case2 p q r hspare =>
    simp only [List.mem_cons, forall_eq_or_imp] at hns
    obtain ⟨hp, hq, hr, _⟩ := hns
    obtain rfl := Option.some.inj h
    simp only [sextets, UInt8.toNat_ofNat', List.cons.injEq, and_true]
    exact ⟨by omega, by omega, by omega⟩
  | case3 => cases h
  | case4 p q hspare =>
    simp only [List.mem_cons, forall_eq_or_imp] at hns
    obtain ⟨hp, hq, _⟩ := hns
    obtain rfl := Option.some.inj h
    simp only [sextets, UInt8.toNat_ofNat', List.cons.injEq, and_true]
    exact ⟨by omega, by omega⟩
  | case5 => cases h
  | case6 => cases h
  | case7 =>
    obtain rfl := Option.some.inj h
    rfl

/-- What groups are read as starts with what the first of them are. -/
theorem unsextets_append {ns more : List Nat} {bytes longer : List UInt8}
    (h : unsextets ns = some bytes) (hmore : unsextets (ns ++ more) = some longer) :
    bytes <+: longer := by
  fun_induction unsextets ns generalizing bytes longer with
  | case1 p q r s rest ih =>
    obtain ⟨tail, htail, rfl⟩ := Option.map_eq_some_iff.mp h
    obtain ⟨last, hlast, rfl⟩ := Option.map_eq_some_iff.mp hmore
    obtain ⟨extra, rfl⟩ := ih htail hlast
    exact ⟨extra, rfl⟩
  | case2 p q r hspare =>
    obtain rfl := Option.some.inj h
    match more, hmore with
    | [], hmore =>
      rw [List.append_nil, unsextets, if_pos hspare] at hmore
      exact ⟨[], Option.some.inj hmore⟩
    | s :: rest, hmore =>
      obtain ⟨last, _, rfl⟩ := Option.map_eq_some_iff.mp hmore
      exact ⟨_, rfl⟩
  | case3 => cases h
  | case4 p q hspare =>
    obtain rfl := Option.some.inj h
    match more, hmore with
    | [], hmore =>
      rw [List.append_nil, unsextets, if_pos hspare] at hmore
      exact ⟨[], Option.some.inj hmore⟩
    | [r], hmore =>
      change (if r % 4 = 0 then _ else none) = _ at hmore
      split at hmore
      · obtain rfl := Option.some.inj hmore
        exact ⟨_, rfl⟩
      · cases hmore
    | r :: s :: rest, hmore =>
      obtain ⟨last, _, rfl⟩ := Option.map_eq_some_iff.mp hmore
      exact ⟨_, rfl⟩
  | case5 => cases h
  | case6 => cases h
  | case7 =>
    obtain rfl := Option.some.inj h
    exact List.nil_prefix

/-! ### Bytes and symbols -/

def encode (bytes : List UInt8) : List Char := (sextets bytes).map symbol

def decode (text : List Char) : Option (List UInt8) := do
  unsextets (← text.mapM sextet)

theorem mapM_sextet_symbol {ns : List Nat} (h : ∀ n ∈ ns, n < 64) :
    (ns.map symbol).mapM sextet = some ns := by
  induction ns with
  | nil => rfl
  | cons n ns ih =>
    obtain ⟨hn, hns⟩ := List.forall_mem_cons.mp h
    rw [List.map_cons, List.mapM_cons, sextet_symbol hn, ih hns]
    rfl

theorem of_mapM_sextet {text : List Char} {ns : List Nat} (h : text.mapM sextet = some ns) :
    (∀ n ∈ ns, n < 64) ∧ ns.map symbol = text := by
  induction text generalizing ns with
  | nil =>
    obtain rfl := Option.some.inj h
    exact ⟨by simp, rfl⟩
  | cons c text ih =>
    rw [List.mapM_cons] at h
    obtain ⟨n, hn, h⟩ := Option.bind_eq_some_iff.mp h
    obtain ⟨rest, hrest, h⟩ := Option.bind_eq_some_iff.mp h
    obtain rfl := Option.some.inj h
    obtain ⟨hlt, hsymbol⟩ := sextet_eq_some hn
    obtain ⟨hall, htext⟩ := ih hrest
    exact ⟨List.forall_mem_cons.mpr ⟨hlt, hall⟩, by rw [List.map_cons, hsymbol, htext]⟩

/-- Bytes are read back from their text, and from no other. -/
theorem decode_eq_some {text : List Char} {bytes : List UInt8} :
    decode text = some bytes ↔ encode bytes = text := by
  constructor
  · intro h
    obtain ⟨ns, hns, hread⟩ := Option.bind_eq_some_iff.mp h
    obtain ⟨hlt, htext⟩ := of_mapM_sextet hns
    rw [encode, sextets_unsextets hlt hread, htext]
  · rintro rfl
    rw [decode, encode, mapM_sextet_symbol (sextets_lt bytes)]
    exact unsextets_sextets bytes

theorem decode_encode (bytes : List UInt8) : decode (encode bytes) = some bytes :=
  decode_eq_some.2 rfl

/-- What a text is read as starts with what a shorter start of it is read as. -/
theorem decode_append {text more : List Char} {bytes longer : List UInt8}
    (h : decode text = some bytes) (hmore : decode (text ++ more) = some longer) :
    bytes <+: longer := by
  obtain ⟨ns, hns, h⟩ := Option.bind_eq_some_iff.mp h
  obtain ⟨all, hall, hmore⟩ := Option.bind_eq_some_iff.mp hmore
  rw [List.mapM_append, hns, Option.bind_eq_bind, Option.bind_some] at hall
  obtain ⟨extra, _, hall⟩ := Option.bind_eq_some_iff.mp hall
  obtain rfl := Option.some.inj hall
  exact unsextets_append h hmore

end JewelCase.Library.Base64Url
