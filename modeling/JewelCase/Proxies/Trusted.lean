import JewelCase.Http.Rules

/-!
# Addresses as text

`IpAddr::from_str`: an IPv4 address in four decimal numbers, or an IPv6 one in groups of hex digits,
where `::` stands for groups of zeros and the last two groups may be an IPv4 address.
-/
namespace JewelCase.Proxies

set_option autoImplicit false

open JewelCase.Network.Cache (Text IpAddr)

/-- `char::to_digit` -/
def digit (radix : Nat) (c : Char) : Option Nat :=
  let value :=
    if '0' ≤ c ∧ c ≤ '9' then some (c.toNat - 48)
    else if 'a' ≤ c ∧ c ≤ 'z' then some (c.toNat - 87)
    else if 'A' ≤ c ∧ c ≤ 'Z' then some (c.toNat - 55)
    else none
  value.filter (· < radix)

/-- A number below `bound` in at most `maxDigits` digits, and what follows them. -/
def readNumber (radix maxDigits : Nat) (zeroPrefix : Bool) (bound : Nat) (text : Text) :
    Option (Nat × Text) :=
  let digits := text.takeWhile fun c => (digit radix c).isSome
  let value := digits.foldl (fun value c => value * radix + (digit radix c).getD 0) 0
  if digits = [] ∨ maxDigits < digits.length then none
  else if !zeroPrefix && digits.head? = some '0' && decide (1 < digits.length) then none
  else if value < bound then some (value, text.drop digits.length)
  else none

/-- The separator that stands before every part but the first. -/
def readSeparator (separator : Char) (first : Bool) (text : Text) : Option Text :=
  if first then some text
  else
    match text with
    | [] => none
    | c :: rest => if c = separator then some rest else none

/-- So many octets. -/
def readOctets : Nat → Bool → Text → Option (List Nat × Text)
  | 0, _, text => some ([], text)
  | left + 1, first, text => do
    let text ← readSeparator '.' first text
    let (octet, text) ← readNumber 10 3 false 256 text
    let (octets, text) ← readOctets left false text
    some (octet :: octets, text)

def readIpv4Addr (text : Text) : Option (List Nat × Text) := readOctets 4 true text

/-- At most so many groups, and whether they end in an IPv4 address. -/
def readGroups : Nat → Bool → Text → List Nat × Bool × Text
  | 0, _, text => ([], false, text)
  | left + 1, first, text =>
    let start := readSeparator ':' first text
    -- An IPv4 address takes two groups.
    match (if left = 0 then none else start.bind readIpv4Addr) with
    | some (octets, rest) =>
      ([octets.getD 0 0 * 256 + octets.getD 1 0, octets.getD 2 0 * 256 + octets.getD 3 0], true, rest)
    | none =>
      match start.bind (readNumber 16 4 true 65536) with
      | none => ([], false, text)
      | some (group, rest) =>
        let (groups, ipv4, rest) := readGroups left false rest
        (group :: groups, ipv4, rest)

def readIpv6Addr (text : Text) : Option (List Nat × Text) :=
  let (head, ipv4, rest) := readGroups 8 true text
  if head.length = 8 then some (head, rest)
  -- No IPv4 address may stand before `::`.
  else if ipv4 then none
  else
    match rest with
    | ':' :: ':' :: rest =>
      -- `::` stands for one group at least.
      let (tail, _, rest) := readGroups (8 - (head.length + 1)) true rest
      some (head ++ List.replicate (8 - head.length - tail.length) 0 ++ tail, rest)
    | _ => none

/-- The bits of an address, its parts in order. -/
def bitsOf (base : Nat) (parts : List Nat) : Nat := parts.foldl (fun bits part => bits * base + part) 0

/-- `IpAddr::from_str` -/
def parseIp (text : Text) : Option IpAddr :=
  match readIpv4Addr text with
  | some (octets, rest) => if rest = [] then some (.v4 (BitVec.ofNat 32 (bitsOf 256 octets))) else none
  | none =>
    match readIpv6Addr text with
    | some (groups, rest) =>
      if rest = [] then some (.v6 (BitVec.ofNat 128 (bitsOf 65536 groups))) else none
    | none => none

end JewelCase.Proxies

/-!
## The proxies the server trusts

`crates/server/src/config/trusted_proxies.rs`: the peers whose `X-Forwarded-*` headers the server
believes, as addresses and networks.
-/
namespace JewelCase.Proxies

set_option autoImplicit false

open JewelCase.Library (Block)
open JewelCase.Network (trim parseU64)
open JewelCase.Network.Cache (Text IpAddr)
open JewelCase.Http (toCanonical)

/-- How many bits an address has. -/
def width : IpAddr → Nat
  | .v4 _ => 32
  | .v6 _ => 128

/-- An address, and how many of its leading bits a peer shares with it to be in the network. -/
structure Network where
  address : IpAddr
  bits : Nat
  fits : bits ≤ width address
  /-- A mapped peer is compared as IPv4, so a mapped address would never match. -/
  canonical : toCanonical address = address
deriving DecidableEq

/-- Whether an address starts with the leading bits of the network's. -/
def Network.Contains (network : Network) (ip : IpAddr) : Prop :=
  match network.address, ip with
  | .v4 first, .v4 ip => (⟨first, network.bits⟩ : Block 32).Contains ip
  | .v6 first, .v6 ip => (⟨first, network.bits⟩ : Block 128).Contains ip
  | _, _ => False

/-- The proxies the server trusts. -/
structure TrustedProxies where
  networks : List Network
deriving DecidableEq

/-- Loopback: `127.0.0.0/8` and `::1`. -/
def TrustedProxies.default : TrustedProxies :=
  ⟨[⟨.v4 (Http.ipv4 127 0 0 1), 8, by decide, rfl⟩, ⟨.v6 1, 128, by decide, by decide⟩]⟩

/-- Whether `peer` is one of them. An IPv4 address mapped into IPv6 counts as itself. -/
def TrustedProxies.trusts (trusted : TrustedProxies) (peer : IpAddr) : Bool :=
  let peer := toCanonical peer
  trusted.networks.any fun network =>
    -- Where the two first differ must come after the bits the network fixes.
    match network.address, peer with
    | .v4 a, .v4 b => decide (network.bits ≤ (a ^^^ b).clz.toNat)
    | .v6 a, .v6 b => decide (network.bits ≤ (a ^^^ b).clz.toNat)
    | _, _ => false

/-- `str::split_once` at `/` -/
def splitOnce (entry : Text) : Text × Option Text :=
  if entry.contains '/' then
    (entry.takeWhile (· ≠ '/'), some (entry.dropWhile (· ≠ '/')).tail)
  else (entry, none)

/-- `str::parse::<u32>` -/
def parseU32 (text : Text) : Option Nat := (parseU64 text).filter (· < 2 ^ 32)

/-- Reads one entry: an address, which is a network of itself alone, or a network in CIDR notation. An
IPv4 address mapped into IPv6 is refused. -/
def network (entry : Text) : Option Network :=
  let (address, bits) := splitOnce entry
  match parseIp address with
  | none => none
  | some address =>
    if hcanonical : toCanonical address = address then
      match bits with
      | none => some ⟨address, width address, Nat.le_refl _, hcanonical⟩
      | some bits =>
        match parseU32 bits with
        | none => none
        | some bits =>
          if hfits : bits ≤ width address then some ⟨address, bits, hfits, hcanonical⟩ else none
    else none

/-- The entries of a comma-separated list. -/
def listed (value : Text) : List Text := (value.splitOn ',').map trim

/-- Reads a comma-separated list of addresses and networks, such as `172.16.0.0/12, ::1`. -/
def parse (value : Text) : Except String TrustedProxies :=
  match (listed value).mapM network with
  | some networks => .ok ⟨networks⟩
  | none =>
    .error "addresses or networks separated by commas, such as 127.0.0.1,172.16.0.0/12,::1"

/-! ### Leading bits -/

/-- Two addresses share their first bits if they first differ after them. -/
theorem le_clz_xor_iff {w : Nat} {a b : BitVec w} {bits : Nat} (hw : 0 < w) (hbits : bits ≤ w) :
    bits ≤ (a ^^^ b).clz.toNat ↔ (⟨a, bits⟩ : Block w).Contains b := by
  have hshift : (⟨a, bits⟩ : Block w).Contains b ↔ (a ^^^ b) >>> (w - bits) = 0#w := by
    rw [Block.Contains, BitVec.ushiftRight_xor_distrib]
    constructor
    · intro h
      rw [h, BitVec.xor_self]
    · intro h
      exact (BitVec.xor_eq_zero_iff.mp h).symm
  have hzero : (a ^^^ b) >>> (w - bits) = 0#w ↔ (a ^^^ b).toNat < 2 ^ (w - bits) := by
    rw [← BitVec.toNat_inj, BitVec.toNat_ushiftRight, Nat.shiftRight_eq_div_pow,
      BitVec.toNat_ofNat, Nat.zero_mod, Nat.div_eq_zero_iff_lt (Nat.two_pow_pos _)]
  rw [hshift, hzero]
  generalize a ^^^ b = x
  constructor
  · intro h
    exact BitVec.toNat_lt_two_pow_sub_clz.trans_le
      (Nat.pow_le_pow_right Nat.two_pos (Nat.sub_le_sub_left h w))
  · intro h
    by_cases hx : x = 0#w
    · rw [BitVec.clz_eq_iff_eq_zero.mpr hx, BitVec.natCast_eq_ofNat, BitVec.toNat_ofNat,
        Nat.mod_eq_of_lt Nat.lt_two_pow_self]
      exact hbits
    · by_contra hlt
      have hle := BitVec.two_pow_sub_clz_le_toNat_of_ne_zero hw hx
      have hpow := (Nat.pow_lt_pow_iff_right (by decide)).mp (hle.trans_lt h)
      omega

/-- **Who is trusted**: whoever a network contains, a mapped address as the IPv4 address it is. -/
theorem TrustedProxies.trusts_iff (trusted : TrustedProxies) (ip : IpAddr) :
    trusted.trusts ip = true ↔ ∃ network ∈ trusted.networks, network.Contains (toCanonical ip) := by
  unfold trusts
  rw [List.any_eq_true]
  refine exists_congr fun network => and_congr_right fun _ => ?_
  obtain ⟨address, bits, hfits, hcanonical⟩ := network
  unfold Network.Contains
  dsimp only
  generalize toCanonical ip = peer
  cases address with
  | v4 a =>
    cases peer with
    | v4 b => exact decide_eq_true_iff.trans (le_clz_xor_iff (by decide) hfits)
    | v6 b => exact iff_of_false Bool.false_ne_true id
  | v6 a =>
    cases peer with
    | v4 b => exact iff_of_false Bool.false_ne_true id
    | v6 b => exact decide_eq_true_iff.trans (le_clz_xor_iff (by decide) hfits)

theorem toCanonical_idem (ip : IpAddr) : toCanonical (toCanonical ip) = toCanonical ip := by
  cases ip with
  | v4 ip => rfl
  | v6 ip =>
    by_cases h : ip >>> 32 = 0xffff
    · rw [show toCanonical (.v6 ip) = .v4 (ip.setWidth 32) from if_pos h]
      rfl
    · have hself : toCanonical (.v6 ip) = .v6 ip := if_neg h
      rw [hself, hself]

@[simp] theorem trusts_toCanonical (trusted : TrustedProxies) (ip : IpAddr) :
    trusted.trusts (toCanonical ip) = trusted.trusts ip := by
  unfold TrustedProxies.trusts
  rw [toCanonical_idem]

/-! ### The list -/

theorem mem_mapM {α β : Type} {f : α → Option β} {items : List α} {read : List β}
    (h : items.mapM f = some read) (y : β) : y ∈ read ↔ ∃ x ∈ items, f x = some y := by
  induction items generalizing read with
  | nil =>
    rw [List.mapM_nil] at h
    cases h
    simp
  | cons x rest ih =>
    rw [List.mapM_cons] at h
    cases hx : f x with
    | none => rw [hx] at h; cases h
    | some z =>
      cases hrest : rest.mapM f with
      | none => rw [hx, hrest] at h; cases h
      | some read' =>
        rw [hx, hrest] at h
        cases h
        rw [List.mem_cons, ih hrest]
        simp [hx, eq_comm]

/-- A list that was read has the networks of its entries. -/
theorem mem_parse {value : Text} {trusted : TrustedProxies} (h : parse value = .ok trusted)
    (n : Network) : n ∈ trusted.networks ↔ ∃ entry ∈ listed value, network entry = some n := by
  unfold parse at h
  split at h
  · rename_i networks hread
    cases h
    exact mem_mapM hread n
  · cases h

end JewelCase.Proxies
