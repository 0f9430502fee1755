import JewelCase.Library.Base64Url
import JewelCase.Library.Bytes
import JewelCase.Library.PrefixCode
import JewelCase.Page.Keyset

/-!
# The text of a cursor

A cursor's bytes are its label, then each value: a type byte and its bytes, with a length before
text and blobs. The whole is URL-safe base64. A text is read as a cursor only if it is what that
cursor's label and values are written as.
-/
namespace JewelCase.Page.CursorText

open JewelCase.Library
open JewelCase.Library.Bytes

set_option autoImplicit false

def NULL : UInt8 := 0
def INTEGER : UInt8 := 1
def REAL : UInt8 := 2
def TEXT : UInt8 := 3
def BLOB : UInt8 := 4

/-! ### Writing -/

/-- Appends `bytes` to `out` after their length. `none` is the panic at 4 GiB. -/
def putBytes (out bytes : List UInt8) : Option (List UInt8) :=
  if bytes.length < 2 ^ 32 then some (out ++ toBe 4 bytes.length ++ bytes) else none

/-- Appends a value to `out`. An integer that is no `i64` has no bytes. -/
def putValue (out : List UInt8) : Value → Option (List UInt8)
  | .null => some (out ++ [NULL])
  | .integer i => if Signed i then some (out ++ [INTEGER] ++ signedBe i) else none
  | .real bits => some (out ++ [REAL] ++ toBe 8 bits.toNat)
  | .text t => putBytes (out ++ [TEXT]) (utf8 t)
  | .blob b => putBytes (out ++ [BLOB]) b

def encodeBytes (label : String) (after : List Value) : Option (List UInt8) := do
  let bytes ← putBytes [] (utf8 label)
  after.foldlM putValue bytes

/-- A text code for bytes, such as the base64 that `BASE64URL` is. -/
structure Engine where
  encode : List UInt8 → String
  /-- `none` for a text that the code does not accept. -/
  decode : String → Option (List UInt8)

/-- Makes the cursor for the page after the row whose sort values are `after`. -/
def encode (engine : Engine) (label : String) (after : List Value) : Option String :=
  (encodeBytes label after).map engine.encode

/-! ### Reading -/

/-- A cursor's bytes that are left to read. -/
abbrev Reader := List UInt8

namespace Reader

/-- The next `n` bytes, or `none` if fewer are left. -/
def take (reader : Reader) (n : Nat) : Option (List UInt8 × Reader) :=
  if n ≤ reader.length then some (List.take n reader, List.drop n reader) else none

/-- The next byte. -/
def byte (reader : Reader) : Option (UInt8 × Reader) := do
  let (head, reader) ← take reader 1
  return (← head[0]?, reader)

/-- The next eight bytes, as an integer's or a real's. -/
def eight (reader : Reader) : Option (List UInt8 × Reader) := take reader 8

/-- A length-prefixed run of bytes. -/
def bytes (reader : Reader) : Option (List UInt8 × Reader) := do
  let (len, reader) ← take reader 4
  take reader (fromBe len)

/-- The value after its type byte. -/
def valueOf (tag : UInt8) (reader : Reader) : Option (Value × Reader) :=
  if tag = NULL then some (.null, reader)
  else if tag = INTEGER then do
    let (i, reader) ← eight reader
    return (.integer (fromSignedBe i), reader)
  else if tag = REAL then do
    let (r, reader) ← eight reader
    return (.real (BitVec.ofNat 64 (fromBe r)), reader)
  else if tag = TEXT then do
    let (t, reader) ← bytes reader
    return (.text (← fromUtf8 t), reader)
  else if tag = BLOB then do
    let (b, reader) ← bytes reader
    return (.blob b, reader)
  else none

/-- The next value. -/
def value (reader : Reader) : Option (Value × Reader) := do
  let (tag, reader) ← byte reader
  valueOf tag reader

end Reader

def readBytes (input : List UInt8) (label : String) (columns : Nat) : Option (List Value) := do
  let (found, reader) ← Reader.bytes input
  if found ≠ utf8 label then none
  else
    let (values, reader) ← readMany Reader.value columns reader
    if reader.isEmpty then some values else none

/-- `decode`, with `none` for anything that is not such a cursor. -/
def read (engine : Engine) (text : String) (label : String) (columns : Nat) :
    Option (List Value) := do
  readBytes (← engine.decode text) label columns

/-- Reads a cursor made by `encode` with the same label and as many sort values. -/
def decode (engine : Engine) (text : String) (label : String) (columns : Nat) :
    Except String (List Value) :=
  match read engine text label columns with
  | some values => .ok values
  | none => .error "cursor is not valid for this list"

/-! ### What each read takes -/

namespace Reader

variable {reader rest : Reader}

theorem take_eq_some {n : Nat} {head : List UInt8} :
    take reader n = some (head, rest) ↔ head.length = n ∧ reader = head ++ rest := by
  unfold take
  split
  case isTrue hle =>
    rw [Option.some.injEq, Prod.mk.injEq]
    constructor
    · rintro ⟨rfl, rfl⟩
      exact ⟨List.length_take_of_le hle, (List.take_append_drop n reader).symm⟩
    · rintro ⟨rfl, rfl⟩
      exact ⟨List.take_left, List.drop_left⟩
  case isFalse hlt =>
    refine iff_of_false (by simp) ?_
    rintro ⟨rfl, rfl⟩
    rw [List.length_append] at hlt
    omega

theorem byte_eq_some {b : UInt8} : byte reader = some (b, rest) ↔ reader = b :: rest := by
  constructor
  · intro h
    obtain ⟨⟨head, left⟩, htake, h⟩ := Option.bind_eq_some_iff.mp h
    obtain ⟨first, hfirst, h⟩ := Option.bind_eq_some_iff.mp h
    obtain ⟨rfl, rfl⟩ := Prod.mk.inj (Option.some.inj h)
    obtain ⟨hlen, rfl⟩ := take_eq_some.1 htake
    obtain ⟨only, rfl⟩ := List.length_eq_one_iff.mp hlen
    obtain rfl := Option.some.inj hfirst
    rfl
  · rintro rfl
    rw [byte, take_eq_some.2 (show [b].length = 1 ∧ b :: rest = [b] ++ rest from ⟨rfl, rfl⟩)]
    rfl

theorem bytes_eq_some {run : List UInt8} :
    bytes reader = some (run, rest) ↔
      run.length < 2 ^ 32 ∧ reader = toBe 4 run.length ++ run ++ rest := by
  constructor
  · intro h
    obtain ⟨⟨len, left⟩, hlen, hrun⟩ := Option.bind_eq_some_iff.mp h
    obtain ⟨hfour, rfl⟩ := take_eq_some.1 hlen
    obtain ⟨hsame, rfl⟩ := take_eq_some.1 hrun
    have hlt := fromBe_lt len
    rw [hfour] at hlt
    have hword := toBe_fromBe len
    rw [hfour, ← hsame] at hword
    exact ⟨hsame ▸ hlt, by rw [hword, List.append_assoc]⟩
  · rintro ⟨hlt, rfl⟩
    have hlen : take (toBe 4 run.length ++ run ++ rest) 4 =
        some (toBe 4 run.length, run ++ rest) :=
      take_eq_some.2 ⟨length_toBe 4 _, List.append_assoc ..⟩
    have hrun : take (run ++ rest) (fromBe (toBe 4 run.length)) = some (run, rest) :=
      take_eq_some.2 ⟨(fromBe_toBe hlt).symm, rfl⟩
    rw [bytes, hlen]
    exact hrun

theorem value_eq_some {v : Value} :
    value reader = some (v, rest) ↔
      ∃ tag left, reader = tag :: left ∧ valueOf tag left = some (v, rest) := by
  unfold value
  rw [Option.bind_eq_bind, Option.bind_eq_some_iff]
  constructor
  · rintro ⟨⟨tag, left⟩, hbyte, hvalue⟩
    exact ⟨tag, left, byte_eq_some.1 hbyte, hvalue⟩
  · rintro ⟨tag, left, hbyte, hvalue⟩
    exact ⟨(tag, left), byte_eq_some.2 hbyte, hvalue⟩

end Reader

/-! ### Values -/

theorem putBytes_append (out word bytes : List UInt8) :
    putBytes (out ++ word) bytes = (putBytes word bytes).map (out ++ ·) := by
  unfold putBytes
  split
  · simp only [Option.map_some, List.append_assoc]
  · rfl

theorem putValue_adds : Adds putValue := by
  intro out v
  cases v with
  | null => rfl
  | integer i =>
    rw [putValue, putValue]
    split
    · simp only [Option.map_some, List.append_assoc, List.nil_append]
    · rfl
  | real bits => simp only [putValue, Option.map_some, List.append_assoc, List.nil_append]
  | text t => exact putBytes_append out [TEXT] (utf8 t)
  | blob b => exact putBytes_append out [BLOB] b

theorem putBytes_eq_some {out bytes word : List UInt8} :
    putBytes out bytes = some word ↔
      bytes.length < 2 ^ 32 ∧ word = out ++ (toBe 4 bytes.length ++ bytes) := by
  unfold putBytes
  split
  · rw [Option.some.injEq, List.append_assoc, eq_comm, and_iff_right ‹_›]
  · exact iff_of_false (by simp) fun h => absurd h.1 ‹_›

/-- What a value is written as is read back from the front of any bytes. -/
theorem value_putValue {v : Value} {word : List UInt8} (hword : putValue [] v = some word)
    (rest : List UInt8) : Reader.value (word ++ rest) = some (v, rest) := by
  have height : ∀ head : List UInt8, head.length = 8 →
      Reader.eight (head ++ rest) = some (head, rest) :=
    fun head hlen => Reader.take_eq_some.mpr ⟨hlen, rfl⟩
  apply Reader.value_eq_some.mpr
  cases v with
  | null =>
    obtain rfl := Option.some.inj hword
    exact ⟨NULL, rest, rfl, rfl⟩
  | integer i =>
    rw [putValue] at hword
    split at hword
    case isFalse => cases hword
    case isTrue hi =>
      obtain rfl := Option.some.inj hword
      refine ⟨INTEGER, signedBe i ++ rest, rfl, ?_⟩
      rw [Reader.valueOf, if_neg (by decide), if_pos rfl, height (signedBe i) (length_toBe 8 _)]
      exact congrArg (fun i => some (Value.integer i, rest)) (fromSignedBe_signedBe hi)
  | real bits =>
    obtain rfl := Option.some.inj hword
    refine ⟨REAL, toBe 8 bits.toNat ++ rest, rfl, ?_⟩
    have hbits : BitVec.ofNat 64 (fromBe (toBe 8 bits.toNat)) = bits := by
      rw [fromBe_toBe (k := 8) bits.isLt, BitVec.ofNat_toNat, BitVec.setWidth_eq]
    rw [Reader.valueOf, if_neg (by decide), if_neg (by decide), if_pos rfl,
      height _ (length_toBe 8 _)]
    exact congrArg (fun bits => some (Value.real bits, rest)) hbits
  | text t =>
    obtain ⟨hlt, rfl⟩ := putBytes_eq_some.1 hword
    refine ⟨TEXT, toBe 4 (utf8 t).length ++ utf8 t ++ rest, rfl, ?_⟩
    rw [Reader.valueOf, if_neg (by decide), if_neg (by decide), if_neg (by decide), if_pos rfl,
      Reader.bytes_eq_some.mpr ⟨hlt, rfl⟩]
    simp only [Option.bind_eq_bind, Option.bind_some, fromUtf8_eq_some.2 rfl, Option.pure_def]
  | blob b =>
    obtain ⟨hlt, rfl⟩ := putBytes_eq_some.1 hword
    refine ⟨BLOB, toBe 4 b.length ++ b ++ rest, rfl, ?_⟩
    rw [Reader.valueOf, if_neg (by decide), if_neg (by decide), if_neg (by decide),
      if_neg (by decide), if_pos rfl, Reader.bytes_eq_some.mpr ⟨hlt, rfl⟩]
    rfl

/-- Only what values are written as is read as one. -/
theorem putValue_of_value {v : Value} {reader rest : Reader}
    (h : Reader.value reader = some (v, rest)) :
    ∃ word, putValue [] v = some word ∧ reader = word ++ rest := by
  obtain ⟨tag, left, rfl, hvalue⟩ := Reader.value_eq_some.mp h
  unfold Reader.valueOf at hvalue
  split at hvalue
  case isTrue htag =>
    obtain ⟨rfl, rfl⟩ := Prod.mk.inj (Option.some.inj hvalue)
    exact ⟨[NULL], rfl, congrArg (· :: left) htag⟩
  split at hvalue
  case isTrue htag =>
    obtain ⟨⟨head, left⟩, htake, hvalue⟩ := Option.bind_eq_some_iff.mp hvalue
    obtain ⟨rfl, rfl⟩ := Prod.mk.inj (Option.some.inj hvalue)
    obtain ⟨hlen, rfl⟩ := Reader.take_eq_some.mp htake
    refine ⟨[INTEGER] ++ head, ?_, congrArg (· :: (head ++ left)) htag⟩
    rw [putValue, if_pos (signed_fromSignedBe hlen), signedBe_fromSignedBe hlen]
    rfl
  split at hvalue
  case isTrue htag =>
    obtain ⟨⟨head, left⟩, htake, hvalue⟩ := Option.bind_eq_some_iff.mp hvalue
    obtain ⟨rfl, rfl⟩ := Prod.mk.inj (Option.some.inj hvalue)
    obtain ⟨hlen, rfl⟩ := Reader.take_eq_some.mp htake
    refine ⟨[REAL] ++ head, ?_, congrArg (· :: (head ++ left)) htag⟩
    have hbits : toBe 8 (BitVec.ofNat 64 (fromBe head)).toNat = head := by
      rw [BitVec.toNat_ofNat, Nat.mod_eq_of_lt (fromBe_lt_eight hlen), ← hlen, toBe_fromBe]
    rw [putValue, hbits]
    rfl
  split at hvalue
  case isTrue htag =>
    obtain ⟨⟨run, left⟩, hrun, hvalue⟩ := Option.bind_eq_some_iff.mp hvalue
    obtain ⟨t, ht, hvalue⟩ := Option.bind_eq_some_iff.mp hvalue
    obtain ⟨rfl, rfl⟩ := Prod.mk.inj (Option.some.inj hvalue)
    obtain ⟨hlt, rfl⟩ := Reader.bytes_eq_some.mp hrun
    refine ⟨[TEXT] ++ (toBe 4 run.length ++ run), ?_,
      congrArg (· :: (toBe 4 run.length ++ run ++ left)) htag⟩
    rw [putValue, fromUtf8_eq_some.1 ht]
    exact putBytes_eq_some.2 ⟨hlt, rfl⟩
  split at hvalue
  case isTrue htag =>
    obtain ⟨⟨run, left⟩, hrun, hvalue⟩ := Option.bind_eq_some_iff.mp hvalue
    obtain ⟨rfl, rfl⟩ := Prod.mk.inj (Option.some.inj hvalue)
    obtain ⟨hlt, rfl⟩ := Reader.bytes_eq_some.mp hrun
    exact ⟨[BLOB] ++ (toBe 4 run.length ++ run), putBytes_eq_some.2 ⟨hlt, rfl⟩,
      congrArg (· :: (toBe 4 run.length ++ run ++ left)) htag⟩
  · cases hvalue

theorem bytesCode : PrefixCode (putBytes []) Reader.bytes where
  read_write := by
    intro run word hword rest
    obtain ⟨hlt, rfl⟩ := putBytes_eq_some.1 hword
    exact Reader.bytes_eq_some.mpr ⟨hlt, rfl⟩
  write_read := by
    intro reader run rest h
    obtain ⟨hlt, rfl⟩ := Reader.bytes_eq_some.mp h
    exact ⟨_, putBytes_eq_some.2 ⟨hlt, rfl⟩, rfl⟩

theorem valueCode : PrefixCode (putValue []) Reader.value :=
  ⟨value_putValue, putValue_of_value⟩

/-! ### Cursors -/

theorem encodeBytes_eq_some {label : String} {values : List Value} {input : List UInt8} :
    encodeBytes label values = some input ↔
      ∃ head tail, putBytes [] (utf8 label) = some head ∧
        values.foldlM putValue [] = some tail ∧ input = head ++ tail := by
  unfold encodeBytes
  rw [Option.bind_eq_bind, Option.bind_eq_some_iff]
  constructor
  · rintro ⟨head, hhead, h⟩
    rw [putValue_adds.foldlM] at h
    obtain ⟨tail, htail, rfl⟩ := Option.map_eq_some_iff.mp h
    exact ⟨head, tail, hhead, htail, rfl⟩
  · rintro ⟨head, tail, hhead, htail, rfl⟩
    exact ⟨head, hhead, by rw [putValue_adds.foldlM, htail]; rfl⟩

/-- Bytes are read as a list's values exactly if they are what its label and the values are
written as. -/
theorem readBytes_eq_some {input : List UInt8} {label : String} {n : Nat} {values : List Value} :
    readBytes input label n = some values ↔
      values.length = n ∧ encodeBytes label values = some input := by
  rw [encodeBytes_eq_some]
  constructor
  · intro h
    obtain ⟨⟨found, reader⟩, hfound, hrest⟩ := Option.bind_eq_some_iff.mp h
    obtain ⟨head, hhead, rfl⟩ := bytesCode.write_read hfound
    change (if found ≠ utf8 label then none else _) = _ at hrest
    split at hrest
    case isTrue => cases hrest
    case isFalse hlabel =>
      obtain ⟨⟨as, rest⟩, hmany, h⟩ := Option.bind_eq_some_iff.mp hrest
      change (if rest.isEmpty then some as else none) = _ at h
      split at h
      case isFalse => cases h
      case isTrue hempty =>
        obtain rfl := Option.some.inj h
        obtain rfl := List.isEmpty_iff.mp hempty
        obtain ⟨hlen, tail, htail, rfl⟩ := valueCode.of_readMany putValue_adds hmany
        rw [not_not] at hlabel
        subst hlabel
        exact ⟨hlen, head, tail, hhead, htail, by rw [List.append_nil]⟩
  · rintro ⟨rfl, head, tail, hhead, htail, rfl⟩
    have hmany := valueCode.readMany_foldlM putValue_adds htail []
    rw [List.append_nil] at hmany
    rw [readBytes, bytesCode.read_write hhead]
    change (if utf8 label ≠ utf8 label then none else _) = _
    rw [if_neg (not_not.mpr rfl), hmany]
    rfl

/-- What the cursors rely on: an accepted text and its bytes are each read off the other. -/
structure Engine.Bijective (engine : Engine) : Prop where
  decode_encode : ∀ bytes, engine.decode (engine.encode bytes) = some bytes
  encode_decode : ∀ text bytes, engine.decode text = some bytes → engine.encode bytes = text

variable {engine : Engine}

theorem encode_eq_some (hengine : engine.Bijective) {label : String} {values : List Value}
    {text : String} :
    encode engine label values = some text ↔
      ∃ bytes, encodeBytes label values = some bytes ∧ engine.decode text = some bytes := by
  unfold encode
  rw [Option.map_eq_some_iff]
  constructor
  · rintro ⟨bytes, hbytes, rfl⟩
    exact ⟨bytes, hbytes, hengine.decode_encode bytes⟩
  · rintro ⟨bytes, hbytes, htext⟩
    exact ⟨bytes, hbytes, hengine.encode_decode text bytes htext⟩

/-- A text is read as a list's values exactly if it is the cursor that they make. -/
theorem decode_eq_ok (hengine : engine.Bijective) {text label : String} {n : Nat}
    {values : List Value} :
    decode engine text label n = .ok values ↔
      values.length = n ∧ encode engine label values = some text := by
  have hread : decode engine text label n = .ok values ↔
      read engine text label n = some values := by
    unfold decode
    split
    case h_1 found h => rw [h, Except.ok.injEq, Option.some.injEq]
    case h_2 h => rw [h]; exact iff_of_false (by simp) (by simp)
  rw [hread, encode_eq_some hengine]
  constructor
  · intro h
    obtain ⟨bytes, htext, h⟩ := Option.bind_eq_some_iff.mp h
    obtain ⟨hlen, hbytes⟩ := readBytes_eq_some.1 h
    exact ⟨hlen, bytes, hbytes, htext⟩
  · rintro ⟨hlen, bytes, hbytes, htext⟩
    rw [read, htext]
    exact readBytes_eq_some.2 ⟨hlen, hbytes⟩

theorem decode_error_of_ne {text label : String} {n : Nat}
    (h : ∀ values, decode engine text label n ≠ .ok values) :
    decode engine text label n = .error "cursor is not valid for this list" := by
  unfold decode at h ⊢
  split
  case h_1 values hread => exact absurd (by rw [hread]) (h values)
  case h_2 => rfl

theorem value_nil : Reader.value [] = none := rfl

/-- No two cursors have one text. -/
theorem encode_inj (hengine : engine.Bijective) {label other text : String}
    {values others : List Value} (h : encode engine label values = some text)
    (hother : encode engine other others = some text) : label = other ∧ values = others := by
  obtain ⟨bytes, hbytes, htext⟩ := (encode_eq_some hengine).1 h
  obtain ⟨_, hothers, hsame⟩ := (encode_eq_some hengine).1 hother
  obtain rfl := Option.some.inj (htext.symm.trans hsame)
  obtain ⟨head, tail, hhead, htail, rfl⟩ := encodeBytes_eq_some.1 hbytes
  obtain ⟨head', tail', hhead', htail', heq⟩ := encodeBytes_eq_some.1 hothers
  have hread := bytesCode.read_write hhead tail
  rw [heq, bytesCode.read_write hhead' tail'] at hread
  obtain ⟨hlabel, rfl⟩ := Prod.mk.inj (Option.some.inj hread)
  exact ⟨(utf8_inj.1 hlabel).symm, valueCode.foldlM_inj putValue_adds value_nil htail htail'⟩

/-- What a text is read as is written as that text, so a text that goes on is no cursor of the same
list, where the code's longer texts are longer bytes. -/
theorem decode_append (hengine : engine.Bijective)
    (hstarts : ∀ text more bytes longer, engine.decode text = some bytes →
      engine.decode (text ++ more) = some longer → bytes <+: longer)
    {text more label : String} {n : Nat} {values others : List Value}
    (h : decode engine text label n = .ok values)
    (hmore : decode engine (text ++ more) label n = .ok others) : more = "" := by
  obtain ⟨hlen, hencode⟩ := (decode_eq_ok hengine).1 h
  obtain ⟨hlen', hencode'⟩ := (decode_eq_ok hengine).1 hmore
  obtain ⟨bytes, hbytes, htext⟩ := (encode_eq_some hengine).1 hencode
  obtain ⟨longer, hlonger, htext'⟩ := (encode_eq_some hengine).1 hencode'
  obtain ⟨extra, rfl⟩ := hstarts text more bytes longer htext htext'
  obtain ⟨head, tail, hhead, htail, rfl⟩ := encodeBytes_eq_some.1 hbytes
  obtain ⟨head', tail', hhead', htail', heq⟩ := encodeBytes_eq_some.1 hlonger
  obtain rfl := Option.some.inj (hhead.symm.trans hhead')
  rw [List.append_assoc, List.append_cancel_left_eq] at heq
  have hread := valueCode.readMany_foldlM putValue_adds htail extra
  have hread' := valueCode.readMany_foldlM putValue_adds htail' []
  rw [List.append_nil, ← heq, hlen', ← hlen, hread] at hread'
  obtain rfl := (Prod.mk.inj (Option.some.inj hread')).2
  rw [List.append_nil] at htext'
  have hsame : text ++ more = text :=
    (hengine.encode_decode _ _ htext').symm.trans (hengine.encode_decode _ _ htext)
  have hnone := congrArg String.toList hsame
  rw [String.toList_append] at hnone
  exact String.toList_eq_nil_iff.mp (List.append_right_eq_self.mp hnone)

/-! ### What has a cursor -/

/-- Whether a value is one that the database holds, and under 4 GiB. -/
def Fits : Value → Prop
  | .null => True
  | .integer i => Signed i
  | .real _ => True
  | .text t => (utf8 t).length < 2 ^ 32
  | .blob b => b.length < 2 ^ 32

theorem putValue_isSome {v : Value} : (putValue [] v).isSome ↔ Fits v := by
  cases v with
  | null => exact iff_of_true rfl trivial
  | real bits => exact iff_of_true rfl trivial
  | integer i =>
    rw [putValue, Fits]
    split <;> simp_all
  | text t =>
    rw [putValue, Fits, putBytes]
    split <;> simp_all
  | blob b =>
    rw [putValue, Fits, putBytes]
    split <;> simp_all

/-- A cursor is made exactly if the label and the values fit one. -/
theorem encode_isSome {label : String} {values : List Value} :
    (encode engine label values).isSome ↔ (utf8 label).length < 2 ^ 32 ∧ ∀ v ∈ values, Fits v := by
  have hvalues : (values.foldlM putValue []).isSome ↔ ∀ v ∈ values, Fits v := by
    rw [putValue_adds.foldlM_isSome]
    exact forall₂_congr fun v _ => putValue_isSome
  rw [encode, Option.isSome_map, encodeBytes, ← hvalues, putBytes]
  split
  case isTrue hlt =>
    rw [and_iff_right hlt, Option.bind_eq_bind, Option.bind_some, putValue_adds.foldlM,
      Option.isSome_map]
  case isFalse hlt => exact iff_of_false (by simp) fun h => hlt h.1

/-- A cursor's text is read as the cursor is: by its label and the number of its values. -/
theorem decode_encode (hengine : engine.Bijective) {cursor : Cursor} {text : String}
    (h : encode engine cursor.label cursor.values = some text) (label : String) (n : Nat) :
    decode engine text label n = cursor.decode label n := by
  unfold Cursor.decode
  split
  case isTrue hsame =>
    obtain ⟨rfl, rfl⟩ := hsame
    exact (decode_eq_ok hengine).2 ⟨rfl, h⟩
  case isFalse hother =>
    apply decode_error_of_ne
    intro values hvalues
    obtain ⟨hlen, hencode⟩ := (decode_eq_ok hengine).1 hvalues
    obtain ⟨hlabel, rfl⟩ := encode_inj hengine h hencode
    exact hother ⟨hlabel, hlen⟩

/-- **Cursors are a faithful code**, over any text code for bytes that is one and reads longer texts
as longer bytes. A list's values are read back from their cursor, and a text is read as `n` values of
a list only if it is the cursor they make. So another list's cursor, or one of another number of
values, is refused, and so is one cut short or gone on with. Every read takes what is there, and
nothing where less is left. -/
theorem cursor_faithful (engine : Engine) (hengine : engine.Bijective)
    (hstarts : ∀ text more bytes longer, engine.decode text = some bytes →
      engine.decode (text ++ more) = some longer → bytes <+: longer) (label : String) :
    (∀ values, (utf8 label).length < 2 ^ 32 → (∀ v ∈ values, Fits v) →
      ∃ text, encode engine label values = some text ∧
        decode engine text label values.length = .ok values) ∧
    (∀ text n values, decode engine text label n = .ok values →
      values.length = n ∧ encode engine label values = some text) ∧
    (∀ values text other n, encode engine label values = some text →
      other ≠ label ∨ n ≠ values.length →
      decode engine text other n = .error "cursor is not valid for this list") ∧
    (∀ text more n values others, decode engine text label n = .ok values →
      decode engine (text ++ more) label n = .ok others → more = "") ∧
    (∀ reader n, (List.length reader < n → Reader.take reader n = none) ∧
      ∀ head rest, Reader.take reader n = some (head, rest) →
        head.length = n ∧ reader = head ++ rest) ∧
    (∀ reader v rest, Reader.value reader = some (v, rest) →
      ∃ word, putValue [] v = some word ∧ reader = word ++ rest) := by
  refine ⟨?_, ?_, ?_, ?_, ?_, ?_⟩
  · intro values hlabel hvalues
    obtain ⟨text, htext⟩ := Option.isSome_iff_exists.mp (encode_isSome.2 ⟨hlabel, hvalues⟩)
    exact ⟨text, htext, (decode_eq_ok hengine).2 ⟨rfl, htext⟩⟩
  · intro text n values h
    exact (decode_eq_ok hengine).1 h
  · intro values text other n h hother
    rw [@decode_encode engine hengine ⟨label, values⟩ text h, Cursor.decode]
    apply if_neg
    rintro ⟨rfl, rfl⟩
    rcases hother with hother | hother
    · exact hother rfl
    · exact hother rfl
  · intro text more n values others h hmore
    exact decode_append hengine hstarts h hmore
  · intro reader n
    exact ⟨fun hlt => if_neg (Nat.not_le.mpr hlt), fun _ _ h => Reader.take_eq_some.mp h⟩
  · intro reader v rest h
    exact putValue_of_value h

/-- URL-safe base64 without padding. -/
def BASE64URL : Engine where
  encode bytes := String.ofList (Base64Url.encode bytes)
  decode text := Base64Url.decode text.toList

theorem bijective_base64url : BASE64URL.Bijective where
  decode_encode bytes := by
    show Base64Url.decode (String.ofList (Base64Url.encode bytes)).toList = some bytes
    rw [String.toList_ofList, Base64Url.decode_encode]
  encode_decode text bytes h := by
    show String.ofList (Base64Url.encode bytes) = text
    rw [Base64Url.decode_eq_some.mp h, String.ofList_toList]

/-- A cursor of one `NULL` is a label's length, the label and a type byte. It is read back, and
refused for another list, for two values, with padding and where the text goes on. -/
theorem cursor_faithful_base64url :
    encode BASE64URL "a" [.null] = some "AAAAAWEA" ∧
      decode BASE64URL "AAAAAWEA" "a" 1 = .ok [.null] ∧
      decode BASE64URL "AAAAAWEA" "b" 1 = .error "cursor is not valid for this list" ∧
      decode BASE64URL "AAAAAWEA" "a" 2 = .error "cursor is not valid for this list" ∧
      decode BASE64URL "AAAAAWEA==" "a" 1 = .error "cursor is not valid for this list" ∧
      ∀ more others, decode BASE64URL ("AAAAAWEA" ++ more) "a" 1 = .ok others → more = "" := by
  have hfaithful := cursor_faithful BASE64URL bijective_base64url
    (fun text more bytes longer h hmore => by
      refine @Base64Url.decode_append text.toList more.toList bytes longer h ?_
      rw [← String.toList_append]
      exact hmore) "a"
  obtain ⟨hback, -, hother, hmore, -, -⟩ := hfaithful
  have htext : encode BASE64URL "a" [.null] = some "AAAAAWEA" := by decide +kernel
  obtain ⟨text, hsame, hread⟩ := hback [.null] (by decide +kernel) (by simp [Fits])
  obtain rfl := Option.some.inj (htext.symm.trans hsame)
  exact ⟨htext, hread, hother [.null] _ "b" 1 htext (.inl (by decide)),
    hother [.null] _ "a" 2 htext (.inr (by decide)), by decide +kernel,
    fun more others h => hmore _ more 1 _ others hread h⟩

end JewelCase.Page.CursorText
