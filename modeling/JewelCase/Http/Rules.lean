import JewelCase.Library.Intervals
import JewelCase.Network.Replies

/-!
# Which addresses and destinations a plugin may reach

`crates/plugins/src/rules.rs`. The URL parser is a parameter. A refusal's text is its constructor.
-/
namespace JewelCase.Http

open JewelCase.Library (Block)
open JewelCase.Network.Cache (Text IpAddr)

set_option autoImplicit false

/-! ### Addresses -/

/-- `Ipv4Addr::new` -/
def ipv4 (a b c d : BitVec 8) : BitVec 32 := a ++ b ++ c ++ d

/-- `Ipv6Addr::new` -/
def ipv6 (a b c d e f g h : BitVec 16) : BitVec 128 := a ++ b ++ c ++ d ++ e ++ f ++ g ++ h

/-- Alibaba Cloud's metadata service. -/
def METADATA_V4 : BitVec 32 := ipv4 100 100 100 200

/-- AWS's metadata service over IPv6. -/
def METADATA_V6 : BitVec 128 := ipv6 0xfd00 0xec2 0 0 0 0 0 0x254

/-- `Ipv4Addr::octets` -/
def octet (ip : BitVec 32) (i : Nat) : BitVec 8 := (ip >>> (24 - 8 * i)).setWidth 8

/-- What an address is to a plugin's requests. -/
inductive Reach where
  /-- Reached at any destination. -/
  | everywhere
  /-- Reached only at a destination that names the host outright. -/
  | named
  | never
deriving DecidableEq, Repr

def loopback : Block 32 := ⟨ipv4 127 0 0 0, 8⟩
def linkLocal : Block 32 := ⟨ipv4 169 254 0 0, 16⟩
def privateUse : List (Block 32) :=
  [⟨ipv4 10 0 0 0, 8⟩, ⟨ipv4 172 16 0 0, 12⟩, ⟨ipv4 192 168 0 0, 16⟩]
def loopbackV6 : BitVec 128 := 1
def linkLocalV6 : Block 128 := ⟨ipv6 0xfe80 0 0 0 0 0 0 0, 10⟩
def uniqueLocal : Block 128 := ⟨ipv6 0xfc00 0 0 0 0 0 0 0, 7⟩

/-- `IpAddr::to_canonical`: an IPv4 address mapped into IPv6 as itself. -/
def toCanonical : IpAddr → IpAddr
  | .v4 ip => .v4 ip
  | .v6 ip => if ip >>> 32 = 0xffff then .v4 (ip.setWidth 32) else .v6 ip

/-- What an address is to a plugin's requests. -/
def reach (ip : IpAddr) : Reach :=
  match toCanonical ip with
  | .v4 ip =>
    let first := octet ip 0
    let second := octet ip 1
    if loopback.Contains ip ∨ linkLocal.Contains ip ∨ first = 0 ∨ ip = METADATA_V4 then .never
    else if (∃ block ∈ privateUse, block.Contains ip) ∨ (first = 100 ∧ second &&& 0xc0 = 64) then
      .named
    else .everywhere
  | .v6 ip =>
    if ip = loopbackV6 ∨ linkLocalV6.Contains ip ∨ ip = 0 ∨ ip = METADATA_V6 then .never
    else if uniqueLocal.Contains ip then .named
    else .everywhere

/-! ### Addresses as text -/

/-- `char::to_digit` -/
def toDigit (radix : Nat) (c : Char) : Option Nat :=
  let digit :=
    if '0' ≤ c ∧ c ≤ '9' then some (c.toNat - '0'.toNat)
    else if 'a' ≤ c ∧ c ≤ 'z' then some (c.toNat - 'a'.toNat + 10)
    else if 'A' ≤ c ∧ c ≤ 'Z' then some (c.toNat - 'A'.toNat + 10)
    else none
  digit.filter fun digit => digit < radix

/-- The digits a text starts with, as a number below `bound`, and the rest. -/
def readNumber (radix maxDigits bound : Nat) (zeroPrefix : Bool) (text : Text) :
    Option (Nat × Text) :=
  let digits := (text.takeWhile fun c => (toDigit radix c).isSome).filterMap (toDigit radix)
  let value := digits.foldl (fun value digit => value * radix + digit) 0
  if digits = [] ∨ maxDigits < digits.length then none
  else if ¬ zeroPrefix ∧ digits.head? = some 0 ∧ 1 < digits.length then none
  else if value < bound then some (value, text.drop digits.length)
  else none

def readChar (c : Char) : Text → Option Text
  | [] => none
  | first :: rest => if first = c then some rest else none

/-- After a separator, but for the first. -/
def readSeparator (separator : Char) (index : Nat) (text : Text) : Option Text :=
  if index = 0 then some text else readChar separator text

def readIpv4 (text : Text) : Option (BitVec 32 × Text) := do
  let (a, text) ← readNumber 10 3 256 false text
  let (b, text) ← readNumber 10 3 256 false (← readChar '.' text)
  let (c, text) ← readNumber 10 3 256 false (← readChar '.' text)
  let (d, text) ← readNumber 10 3 256 false (← readChar '.' text)
  return (ipv4 a b c d, text)

/-- At most `limit` groups, from the one at `index` on, whether they end in an IPv4 address, and
the rest. -/
def readGroups : Nat → Nat → Text → List (BitVec 16) × Bool × Text
  | 0, _, text => ([], false, text)
  | limit + 1, index, text =>
    let embedded := if 0 < limit then (readSeparator ':' index text).bind readIpv4 else none
    match embedded with
    | some (ip, rest) => ([(ip >>> 16).setWidth 16, ip.setWidth 16], true, rest)
    | none =>
      match (readSeparator ':' index text).bind (readNumber 16 4 65536 true) with
      | some (group, rest) =>
        let (groups, ipv4, rest) := readGroups limit (index + 1) rest
        (BitVec.ofNat 16 group :: groups, ipv4, rest)
      | none => ([], false, text)

/-- Groups as an address. -/
def ofGroups (groups : List (BitVec 16)) : BitVec 128 :=
  groups.foldl (fun ip group => ip <<< 16 ||| group.setWidth 128) 0

def readIpv6 (text : Text) : Option (BitVec 128 × Text) :=
  let (head, ipv4, rest) := readGroups 8 0 text
  if head.length = 8 then some (ofGroups head, rest)
  else if ipv4 then none
  else
    (readChar ':' rest).bind fun rest => (readChar ':' rest).map fun rest =>
      let (tail, _, rest) := readGroups (7 - head.length) 0 rest
      (ofGroups (head ++ List.replicate (8 - head.length - tail.length) 0 ++ tail), rest)

/-- `IpAddr::from_str` -/
def parseIp (text : Text) : Option IpAddr :=
  match (readIpv4 text).map (fun read => (IpAddr.v4 read.1, read.2)) |>.or
      ((readIpv6 text).map fun read => (IpAddr.v6 read.1, read.2)) with
  | some (ip, []) => some ip
  | _ => none

example : parseIp "127.0.0.1".toList = some (.v4 (ipv4 127 0 0 1)) := by decide +kernel
example : parseIp "::ffff:7f00:1".toList = some (.v6 (ipv6 0 0 0 0 0 0xffff 0x7f00 1)) := by
  decide +kernel
example : parseIp "127.1".toList = none := by decide +kernel

/-! ### Destinations -/

/-- Why a request may not go somewhere. -/
inductive Refusal where
  | notUrl
  | scheme (scheme : Text)
  | noHost
  | endsWithDot (host : Text)
  | notApproved (host : Text)
  /-- A private address, which only a destination that names its host reaches. -/
  | unnamed (ip : IpAddr)
  | never (ip : IpAddr)
deriving DecidableEq, Repr

/-- `str::eq_ignore_ascii_case` -/
def eqIgnoreAsciiCase (a b : Text) : Bool :=
  Network.Cache.toAsciiLowercase a = Network.Cache.toAsciiLowercase b

/-- Whether a destination names a host outright. -/
def names (host : Text) (destinations : List Text) : Bool :=
  destinations.any fun destination => eqIgnoreAsciiCase destination host

/-- Whether destinations let a plugin reach a host: one names it, or is `*`. -/
def destinationAllowed (host : Text) (destinations : List Text) : Bool :=
  destinations.any (fun destination => destination = ['*']) || names host destinations

def mayReach (host : Text) (ip : IpAddr) (destinations : List Text) (reach : IpAddr → Reach) :
    Except Refusal Unit :=
  match reach ip with
  | .everywhere => .ok ()
  | .named => if names host destinations then .ok () else .error (.unnamed ip)
  | .never => .error (.never ip)

/-- A URL as parsed. -/
structure Url where
  scheme : Text
  host : Option Text
  port : Option Nat
  /-- The whole of it, as the parser writes it. -/
  text : Text
deriving DecidableEq, Repr

def http : Text := "http".toList
def https : Text := "https".toList

/-- A host without the brackets that the parser writes an IPv6 address in. -/
def bare (host : Text) : Text :=
  match host with
  | '[' :: rest => if rest.getLast? = some ']' then rest.dropLast else host
  | _ => host

section
variable (parse : Text → Option Url)

/-- Whether a URL may be fetched. Answers it as parsed. -/
def allowed (text : Text) (destinations : List Text) (reach : IpAddr → Reach) :
    Except Refusal Url :=
  match parse text with
  | none => .error .notUrl
  | some url =>
    if url.scheme ≠ https ∧ url.scheme ≠ http then .error (.scheme url.scheme)
    else
      match url.host with
      | none => .error .noHost
      | some host =>
        if host.getLast? = some '.' then .error (.endsWithDot host)
        else if ¬ destinationAllowed host destinations then .error (.notApproved host)
        else
          match parseIp (bare host) with
          | some ip => (mayReach host ip destinations reach).map fun _ => url
          | none => .ok url

/-- The host of an http(s) URL, or nothing. -/
def hostOf (text : Text) : Text :=
  (((parse text).filter fun url => url.scheme = http ∨ url.scheme = https).bind Url.host).getD []

end

end JewelCase.Http

/-!
## Which addresses are never reached, and which are private

The blocks of addresses that `reach` keeps a plugin from, in each spelling: an IPv4 address is also
the IPv6 one it is mapped into.
-/
namespace JewelCase.Http

open JewelCase.Library (Block)
open JewelCase.Network.Cache (IpAddr)

set_option autoImplicit false

/-- The first bits of an IPv4 address mapped into IPv6. -/
def MAPPED : BitVec 96 := 0xffff

/-- Blocks of addresses of both kinds. An IPv4 address counts as itself and as mapped. -/
structure Blocks where
  v4 : List (Block 32)
  v6 : List (Block 128)

def Blocks.Holds (blocks : Blocks) : IpAddr → Prop
  | .v4 ip => ∃ block ∈ blocks.v4, block.Contains ip
  | .v6 ip => ∃ block ∈ blocks.v6 ++ blocks.v4.map (Block.under MAPPED), block.Contains ip

instance (blocks : Blocks) (ip : IpAddr) : Decidable (blocks.Holds ip) :=
  match ip with
  | .v4 _ => inferInstanceAs (Decidable (∃ _ ∈ _, _))
  | .v6 _ => inferInstanceAs (Decidable (∃ _ ∈ _, _))

/-- Loopback, link-local, unspecified and cloud metadata addresses. -/
def neverReached : Blocks where
  v4 := [loopback, linkLocal, ⟨0, 8⟩, ⟨METADATA_V4, 32⟩]
  v6 := [⟨loopbackV6, 128⟩, linkLocalV6, ⟨0, 128⟩, ⟨METADATA_V6, 128⟩]

/-- Private ranges, shared address space and unique local addresses. -/
def privateBlocks : Blocks where
  v4 := privateUse ++ [⟨ipv4 100 64 0 0, 10⟩]
  v6 := [uniqueLocal]

/-! ### One kind of address -/

/-- A mapped address is in the blocks of the address it is. -/
theorem Blocks.holds_mapped {blocks : Blocks} (hv4 : ∀ block ∈ blocks.v4, block.length ≤ 32)
    (hv6 : ∀ block ∈ blocks.v6, ∀ ip : BitVec 128, ip >>> 32 = 0xffff → ¬ block.Contains ip)
    (ip : BitVec 128) : blocks.Holds (.v6 ip) ↔
      if ip >>> 32 = 0xffff then blocks.Holds (.v4 (ip.setWidth 32))
      else ∃ block ∈ blocks.v6, block.Contains ip := by
  have hhigh : ip >>> 32 = 0xffff ↔ ip.toNat / 2 ^ 32 = MAPPED.toNat := by
    rw [← BitVec.toNat_inj, BitVec.toNat_ushiftRight, Nat.shiftRight_eq_div_pow]
    rfl
  have hunder : (∃ block ∈ blocks.v4.map (Block.under MAPPED), block.Contains ip) ↔
      ip >>> 32 = 0xffff ∧ blocks.Holds (.v4 (ip.setWidth 32)) := by
    rw [hhigh]
    constructor
    · rintro ⟨under, hmem, hcontains⟩
      obtain ⟨block, hblock, rfl⟩ := List.mem_map.mp hmem
      obtain ⟨hstart, hend⟩ := (Block.contains_under (hv4 block hblock)).mp hcontains
      exact ⟨hstart, block, hblock, hend⟩
    · rintro ⟨hstart, block, hblock, hend⟩
      exact ⟨block.under MAPPED, List.mem_map_of_mem hblock,
        (Block.contains_under (hv4 block hblock)).mpr ⟨hstart, hend⟩⟩
  have hsplit : blocks.Holds (.v6 ip) ↔ (∃ block ∈ blocks.v6, block.Contains ip) ∨
      ∃ block ∈ blocks.v4.map (Block.under MAPPED), block.Contains ip := by
    simp only [Holds, List.mem_append, or_and_right, exists_or]
  rw [hsplit, hunder]
  split_ifs with hmapped
  · constructor
    · rintro (⟨block, hblock, hcontains⟩ | ⟨-, hholds⟩)
      · exact absurd hcontains (hv6 block hblock ip hmapped)
      · exact hholds
    · exact fun hholds => Or.inr ⟨hmapped, hholds⟩
  · constructor
    · rintro (hholds | ⟨hother, -⟩)
      · exact hholds
      · exact absurd hother hmapped
    · exact Or.inl

/-- The first byte of an address is zero. -/
theorem octet_zero {ip : BitVec 32} : octet ip 0 = 0 ↔ (⟨0, 8⟩ : Block 32).Contains ip := by
  have hbyte : (0 : BitVec 8).toNat = 0 := rfl
  have hfirst : (0 : BitVec 32).toNat = 0 := rfl
  rw [Block.contains_iff, octet, ← BitVec.toNat_inj, BitVec.toNat_setWidth,
    BitVec.toNat_ushiftRight, Nat.shiftRight_eq_div_pow, hbyte, hfirst]
  have hlt := ip.isLt
  simp only [Nat.reduceMul, Nat.reduceSub, Nat.reducePow]
  omega

/-- The first ten bits of an address are those of shared address space. -/
theorem octets_shared {ip : BitVec 32} : octet ip 0 = 100 ∧ octet ip 1 &&& 0xc0 = 64 ↔
    (⟨ipv4 100 64 0 0, 10⟩ : Block 32).Contains ip := by
  have hmask : ∀ second : BitVec 8, second &&& 0xc0 = 64 ↔ second.toNat / 64 = 1 := by
    decide +kernel
  have hbyte : (100 : BitVec 8).toNat = 100 := rfl
  have hfirst : (ipv4 100 64 0 0).toNat = 100 * 2 ^ 24 + 64 * 2 ^ 16 := by decide
  rw [hmask, Block.contains_iff, octet, octet, ← BitVec.toNat_inj, BitVec.toNat_setWidth,
    BitVec.toNat_setWidth, BitVec.toNat_ushiftRight, BitVec.toNat_ushiftRight,
    Nat.shiftRight_eq_div_pow, Nat.shiftRight_eq_div_pow, hbyte, hfirst]
  have hlt := ip.isLt
  simp only [Nat.reduceMul, Nat.reduceSub, Nat.reducePow]
  omega

theorem never_v4 {ip : BitVec 32} :
    (loopback.Contains ip ∨ linkLocal.Contains ip ∨ octet ip 0 = 0 ∨ ip = METADATA_V4) ↔
      neverReached.Holds (.v4 ip) := by
  rw [octet_zero, ← Block.contains_whole]
  simp [Blocks.Holds, neverReached]

theorem private_v4 {ip : BitVec 32} :
    ((∃ block ∈ privateUse, block.Contains ip) ∨ octet ip 0 = 100 ∧ octet ip 1 &&& 0xc0 = 64) ↔
      privateBlocks.Holds (.v4 ip) := by
  rw [octets_shared]
  simp only [Blocks.Holds, privateBlocks, List.mem_append, List.mem_singleton, or_and_right,
    exists_or, exists_eq_left]

theorem never_v6 {ip : BitVec 128} :
    (ip = loopbackV6 ∨ linkLocalV6.Contains ip ∨ ip = 0 ∨ ip = METADATA_V6) ↔
      ∃ block ∈ neverReached.v6, block.Contains ip := by
  have hwhole : ∀ first : BitVec 128, ip = first ↔ (⟨first, 128⟩ : Block 128).Contains ip :=
    fun _ => Block.contains_whole.symm
  rw [hwhole loopbackV6, hwhole 0, hwhole METADATA_V6]
  simp [neverReached]

/-- A mapped address is in none of the IPv6 blocks. -/
theorem mapped_not_v6 : ∀ block ∈ neverReached.v6 ++ privateBlocks.v6, ∀ ip : BitVec 128,
    ip >>> 32 = 0xffff → ¬ block.Contains ip := by
  intro block hblock ip hmapped hcontains
  have hhigh : ip.toNat / 2 ^ 32 = 0xffff := by
    rw [← Nat.shiftRight_eq_div_pow, ← BitVec.toNat_ushiftRight, hmapped]
    rfl
  have hlt : ip.toNat < 2 ^ 48 := by omega
  have hfirst : ∀ first : BitVec 128, ip = first → first.toNat / 2 ^ 32 = 0xffff := by
    rintro first rfl
    exact hhigh
  have hsmall : ∀ bits, 48 ≤ bits → ip.toNat / 2 ^ bits = 0 := fun bits hbits =>
    Nat.div_eq_of_lt (hlt.trans_le (Nat.pow_le_pow_right (by decide) hbits))
  simp only [neverReached, privateBlocks, List.cons_append, List.nil_append, List.mem_cons,
    List.not_mem_nil, or_false] at hblock
  obtain rfl | rfl | rfl | rfl | rfl := hblock
  · exact absurd (hfirst _ (Block.contains_whole.1 hcontains)) (by decide)
  · rw [Block.contains_iff, hsmall _ (by decide)] at hcontains
    exact absurd hcontains (by decide)
  · exact absurd (hfirst _ (Block.contains_whole.1 hcontains)) (by decide)
  · exact absurd (hfirst _ (Block.contains_whole.1 hcontains)) (by decide)
  · rw [Block.contains_iff, hsmall _ (by decide)] at hcontains
    exact absurd hcontains (by decide)

/-! ### What `reach` answers -/

theorem neverReached_v6 (ip : BitVec 128) : neverReached.Holds (.v6 ip) ↔
    if ip >>> 32 = 0xffff then neverReached.Holds (.v4 (ip.setWidth 32))
    else ∃ block ∈ neverReached.v6, block.Contains ip :=
  Blocks.holds_mapped (by decide) (fun block hblock =>
    mapped_not_v6 block (List.mem_append_left _ hblock)) ip

theorem privateBlocks_v6 (ip : BitVec 128) : privateBlocks.Holds (.v6 ip) ↔
    if ip >>> 32 = 0xffff then privateBlocks.Holds (.v4 (ip.setWidth 32))
    else ∃ block ∈ privateBlocks.v6, block.Contains ip :=
  Blocks.holds_mapped (by decide) (fun block hblock =>
    mapped_not_v6 block (List.mem_append_right _ hblock)) ip

/-- **What an address is**: one in the blocks never reached is not, in any spelling, and else one in
the private blocks is private. -/
theorem reach_eq (ip : IpAddr) : reach ip =
    if neverReached.Holds ip then .never
    else if privateBlocks.Holds ip then .named
    else .everywhere := by
  have hv4 : ∀ ip : BitVec 32, reach (.v4 ip) =
      if neverReached.Holds (.v4 ip) then .never
      else if privateBlocks.Holds (.v4 ip) then .named
      else .everywhere := by
    intro ip
    simp only [reach, toCanonical, never_v4, private_v4]
  cases ip with
  | v4 ip => exact hv4 ip
  | v6 ip =>
    simp only [neverReached_v6, privateBlocks_v6]
    by_cases hmapped : ip >>> 32 = 0xffff
    · have hsame : reach (.v6 ip) = reach (.v4 (ip.setWidth 32)) := by
        simp only [reach, toCanonical, hmapped, if_true]
      rw [hsame, hv4]
      simp only [hmapped, if_true]
    · simp only [reach, toCanonical, hmapped, if_false, never_v6]
      simp [privateBlocks]

end JewelCase.Http
