import JewelCase.Proxies.Trusted

/-!
# Where a request comes from

`crates/server/src/api/origin.rs`: the client's address, and whether it reached the server over https,
including behind proxies. Only a peer that is trusted is believed about what it forwards.
-/
namespace JewelCase.Proxies

set_option autoImplicit false

open JewelCase.Network (trim)
open JewelCase.Network.Cache (Text IpAddr toAsciiLowercase)
open JewelCase.Http (toCanonical)

def FORWARDED_FOR : String := "x-forwarded-for"
def FORWARDED_PROTO : String := "x-forwarded-proto"

/-- The bytes of a header's value. -/
abbrev Line := List UInt8

/-- `HeaderMap`: header lines in order, names in lowercase. -/
abbrev Headers := List (String × Line)

def Headers.getAll (headers : Headers) (name : String) : List Line :=
  (headers.filter fun header => header.1 = name).map Prod.snd

/-- Whether a line is visible ASCII, tabs included. -/
def Line.visible (line : Line) : Bool :=
  line.all fun byte => decide (32 ≤ byte.toNat ∧ byte.toNat < 127 ∨ byte.toNat = 9)

def Line.text (line : Line) : Text := line.map fun byte => Char.ofNat byte.toNat

/-- `HeaderValue::to_str` -/
def Line.toStr (line : Line) : Option Text := if Line.visible line then some (Line.text line) else none

/-- The entries of a line. One that is not visible ASCII is one empty entry rather than none, so a
walk stops there rather than skipping it. -/
def entries (line : Line) : List Text := listed ((Line.toStr line).getD [])

/-- Where a request comes from, as its peer and the proxies the server trusts tell it. -/
structure Origin where
  client : IpAddr
  https : Bool
  /-- Whether the peer is a trusted proxy. -/
  proxied : Bool
deriving DecidableEq, Repr

/-- The entries of the forwarded header `name`, if the peer is a trusted proxy. -/
def Origin.forwarded (origin : Origin) (headers : Headers) (name : String) : List Text :=
  (if origin.proxied then headers.getAll name else []).flatMap entries

/-- The walk back through the proxies, the nearest first. It stops at the first address that is not a
trusted proxy, or at anything that is not an address. -/
def walk (trusted : TrustedProxies) : IpAddr → List Text → IpAddr
  | client, [] => client
  | client, hop :: rest =>
    match parseIp hop with
    | none => client
    | some hop =>
      let client := toCanonical hop
      if !trusted.trusts client then client else walk trusted client rest

/-- Where a request from `peer` with `headers` comes from. -/
def Origin.new (peer : IpAddr) (headers : Headers) (trusted : TrustedProxies) : Origin :=
  let peer := toCanonical peer
  let origin : Origin := ⟨peer, false, trusted.trusts peer⟩
  let https := match (origin.forwarded headers FORWARDED_PROTO).head? with
    | some proto => decide (toAsciiLowercase proto = "https".toList)
    | none => false
  -- Each proxy appends the address it heard from, so the nearest comes last.
  let client := walk trusted peer (origin.forwarded headers FORWARDED_FOR).reverse
  { origin with client, https }

/-! ### Proxies -/

/-- A proxy that passes a request on. -/
structure Hop where
  proxy : IpAddr
  /-- Whether it appends after a comma on the last line, if there is one. -/
  comma : Bool
  /-- How it writes the address it heard from. -/
  wrote : Line
deriving DecidableEq, Repr

/-- Appends the address that it heard from. -/
def Hop.append (hop : Hop) (lines : List Line) : List Line :=
  match lines.getLast? with
  | none => [hop.wrote]
  | some last =>
    if hop.comma then lines.dropLast ++ [last ++ (','.toUInt8 :: hop.wrote)]
    else lines ++ [hop.wrote]

/-- The client's own lines as they arrive through proxies, the nearest first. -/
def passed (own : List Line) : List Hop → List Line
  | [] => own
  | hop :: far => hop.append (passed own far)

/-- Who the nearest of the proxies is, or the client itself. -/
def heard (client : IpAddr) : List Hop → IpAddr
  | [] => client
  | hop :: _ => hop.proxy

/-- Whether a line is an address as text: `ip`, in either form, with nothing around it but blanks. -/
def Line.Says (line : Line) (ip : IpAddr) : Prop :=
  Line.visible line = true ∧ ',' ∉ Line.text line ∧
    (parseIp (trim (Line.text line))).map toCanonical = some (toCanonical ip)

/-- Whether all of the proxies are trusted, and each wrote the address that it heard from. -/
def Truthful (trusted : TrustedProxies) (client : IpAddr) : List Hop → Prop
  | [] => True
  | hop :: far => trusted.trusts hop.proxy = true ∧ Line.Says hop.wrote (heard client far) ∧
      Truthful trusted client far

/-- Whether one of the proxies appended to a line that is not visible text. -/
def Unreadable (own : List Line) : List Hop → Prop
  | [] => False
  | hop :: far => (hop.comma = true ∧ ∃ line, (passed own far).getLast? = some line ∧
      Line.visible line = false) ∨ Unreadable own far

end JewelCase.Proxies

/-!
## No client forges where it comes from

What a proxy appends is the last entry that is read, so a walk back over truthful proxies comes to the
client before it comes to anything that the client wrote.
-/
namespace JewelCase.Proxies

set_option autoImplicit false

open JewelCase.Network (trim)
open JewelCase.Network.Cache (Text IpAddr)
open JewelCase.Http (toCanonical)

variable {trusted : TrustedProxies} {client : IpAddr} {hop : Hop}

/-! ### Entries -/

theorem entries_visible {line : Line} (h : Line.visible line = true) :
    entries line = listed (Line.text line) := by
  rw [entries, Line.toStr, if_pos h]
  rfl

theorem entries_not_visible {line : Line} (h : Line.visible line = false) : entries line = [[]] := by
  rw [entries, Line.toStr, h]
  rfl

theorem entries_wrote {line : Line} {ip : IpAddr} (h : Line.Says line ip) :
    entries line = [trim (Line.text line)] := by
  rw [entries_visible h.1, listed, List.splitOn_eq_singleton h.2.1]
  rfl

theorem visible_comma (last wrote : Line) : Line.visible (last ++ (','.toUInt8 :: wrote)) =
    (Line.visible last && Line.visible wrote) := by
  rw [Line.visible, List.all_append, List.all_cons]
  rfl

/-- What follows a comma is an entry of its own. -/
theorem entries_comma {last wrote : Line} {ip : IpAddr} (hlast : Line.visible last = true)
    (h : Line.Says wrote ip) :
    entries (last ++ (','.toUInt8 :: wrote)) = entries last ++ [trim (Line.text wrote)] := by
  have hvisible : Line.visible (last ++ (','.toUInt8 :: wrote)) = true := by
    rw [visible_comma, hlast, h.1]
    rfl
  have htext : Line.text (last ++ (','.toUInt8 :: wrote)) =
      Line.text last ++ (',' :: Line.text wrote) := List.map_append
  rw [← entries_wrote h, entries_visible hvisible, entries_visible hlast, entries_visible h.1, htext,
    listed, List.splitOn_append_cons_self, List.map_append]
  rfl

/-- **What a proxy appends** is the last entry, unless it is appended to a line that is not visible
text, which stays one empty entry. -/
theorem entries_append (lines : List Line) {ip : IpAddr} (h : Line.Says hop.wrote ip) :
    ((hop.append lines).flatMap entries =
        lines.flatMap entries ++ [trim (Line.text hop.wrote)]) ∨
      (hop.comma = true ∧ ∃ last, lines.getLast? = some last ∧ Line.visible last = false) ∧
        ∃ before, (hop.append lines).flatMap entries = before ++ [[]] := by
  unfold Hop.append
  cases hlines : lines.getLast? with
  | none =>
    rw [List.getLast?_eq_none_iff.mp hlines]
    exact .inl (by simp [entries_wrote h])
  | some last =>
    dsimp only
    obtain ⟨init, rfl⟩ := List.getLast?_eq_some_iff.mp hlines
    cases hcomma : hop.comma with
    | false =>
      rw [if_neg (by decide), List.flatMap_append, List.flatMap_singleton, entries_wrote h]
      exact .inl rfl
    | true =>
      rw [if_pos rfl, List.dropLast_concat, List.flatMap_append, List.flatMap_singleton,
        List.flatMap_append, List.flatMap_singleton]
      cases hlast : Line.visible last with
      | true => exact .inl (by rw [entries_comma hlast h, List.append_assoc])
      | false =>
        refine .inr ⟨⟨rfl, last, rfl, hlast⟩, init.flatMap entries, ?_⟩
        rw [entries_not_visible (by rw [visible_comma, hlast]; rfl)]

/-! ### The walk -/

theorem parse_wrote {line : Line} {ip : IpAddr} (h : Line.Says line ip) :
    ∃ found, parseIp (trim (Line.text line)) = some found ∧ toCanonical found = toCanonical ip :=
  Option.map_eq_some_iff.mp h.2.2

/-- **The walk back over truthful proxies** comes to the client, unless a line that is not visible text
stops it at one of them. -/
theorem walk_passed (own : List Line) (hclient : trusted.trusts client = false) (far : List Hop)
    (htruthful : Truthful trusted client (hop :: far)) :
    let found := walk trusted (toCanonical hop.proxy)
      ((passed own (hop :: far)).flatMap entries).reverse
    found = toCanonical client ∨
      (∃ hop' ∈ hop :: far, found = toCanonical hop'.proxy) ∧ Unreadable own (hop :: far) := by
  induction far generalizing hop with
  | nil =>
    obtain ⟨-, hsays, -⟩ := htruthful
    obtain ⟨found, hparse, hfound⟩ := parse_wrote hsays
    rcases entries_append (passed own []) hsays with hentries | ⟨hstop, before, hentries⟩
    · left
      have hfar : trusted.trusts (toCanonical client) = false := by rw [trusts_toCanonical, hclient]
      rw [passed, hentries, List.reverse_append, List.reverse_singleton, List.singleton_append, walk,
        hparse]
      dsimp only
      rw [hfound, show heard client [] = client from rfl, hfar]
      rfl
    · right
      refine ⟨⟨hop, List.mem_cons_self, ?_⟩, .inl hstop⟩
      rw [passed, hentries, List.reverse_append]
      rfl
  | cons next far ih =>
    obtain ⟨-, hsays, hfar⟩ := htruthful
    obtain ⟨found, hparse, hfound⟩ := parse_wrote hsays
    rcases entries_append (passed own (next :: far)) hsays with
      hentries | ⟨hstop, before, hentries⟩
    · have hnext : trusted.trusts (toCanonical next.proxy) = true := by
        rw [trusts_toCanonical, hfar.1]
      rw [passed, hentries, List.reverse_append, List.reverse_singleton, List.singleton_append, walk,
        hparse]
      dsimp only
      rw [hfound, show heard client (next :: far) = next.proxy from rfl, hnext]
      rcases ih hfar with hclient | ⟨⟨hop', hmem, heq⟩, hstopped⟩
      · exact .inl hclient
      · exact .inr ⟨⟨hop', List.mem_cons_of_mem _ hmem, heq⟩, .inr hstopped⟩
    · right
      refine ⟨⟨hop, List.mem_cons_self, ?_⟩, .inl hstop⟩
      rw [passed, hentries, List.reverse_append]
      rfl

/-! ### Origins -/

/-- A peer that is not trusted is itself the client, whatever it sends. -/
theorem new_untrusted {peer : IpAddr} (h : trusted.trusts peer = false) (headers : Headers) :
    Origin.new peer headers trusted = ⟨toCanonical peer, false, false⟩ := by
  unfold Origin.new
  dsimp only
  rw [trusts_toCanonical, h]
  rfl

/-- The client of a request from a trusted peer. -/
theorem new_client {peer : IpAddr} (h : trusted.trusts peer = true) (headers : Headers) :
    (Origin.new peer headers trusted).client = walk trusted (toCanonical peer)
      ((headers.getAll FORWARDED_FOR).flatMap entries).reverse := by
  unfold Origin.new
  dsimp only
  rw [trusts_toCanonical, h]
  rfl

/-- **No client forges where it comes from.** Whatever the client's own lines are, and whatever else
is sent, a request through truthful proxies comes from the client, or from one of the proxies where a
line that one of them appended to is not visible text. A peer that is not trusted is the client, and
not over https. And whoever an entry of the list contains is trusted, and no one else. -/
theorem client_not_forged :
    (∀ (trusted : TrustedProxies) (client : IpAddr) (own : List Line) (hop : Hop) (far : List Hop)
      (headers : Headers), trusted.trusts client = false → Truthful trusted client (hop :: far) →
      headers.getAll FORWARDED_FOR = passed own (hop :: far) →
      let origin := Origin.new hop.proxy headers trusted
      origin.client = toCanonical client ∨
        (∃ hop' ∈ hop :: far, origin.client = toCanonical hop'.proxy) ∧
          Unreadable own (hop :: far)) ∧
    (∀ (trusted : TrustedProxies) (peer : IpAddr) (headers : Headers),
      trusted.trusts peer = false →
      (Origin.new peer headers trusted).client = toCanonical peer ∧
        (Origin.new peer headers trusted).https = false) ∧
    (∀ (trusted : TrustedProxies) (ip : IpAddr), trusted.trusts ip = true ↔
      ∃ network ∈ trusted.networks, network.Contains (toCanonical ip)) ∧
    ∀ (value : Text) (trusted : TrustedProxies), parse value = .ok trusted → ∀ n,
      n ∈ trusted.networks ↔ ∃ entry ∈ listed value, network entry = some n := by
  refine ⟨?_, ?_, TrustedProxies.trusts_iff, fun _ _ => mem_parse⟩
  · intro trusted client own hop far headers hclient htruthful hheaders origin
    have hwalk := walk_passed own hclient far htruthful
    rw [← hheaders, ← new_client htruthful.1] at hwalk
    exact hwalk
  · intro trusted peer headers hpeer
    rw [new_untrusted hpeer]
    exact ⟨rfl, rfl⟩

/-- A client behind two proxies of `10.0.0.0/8` writes an address of theirs, which one of them appends
to. The request is the client's, and without them it is not over https. -/
theorem client_not_forged_through_two :
    let trusted : TrustedProxies := ⟨[⟨.v4 (Http.ipv4 10 0 0 0), 8, by decide, rfl⟩]⟩
    let client : IpAddr := .v4 (Http.ipv4 203 0 113 7)
    let near : Hop := ⟨.v4 (Http.ipv4 10 0 0 2), false, "10.0.0.3".toList.map Char.toUInt8⟩
    let far : Hop := ⟨.v4 (Http.ipv4 10 0 0 3), true, "203.0.113.7".toList.map Char.toUInt8⟩
    let own : List Line := ["198.51.100.1, 10.0.0.9".toList.map Char.toUInt8]
    let headers : Headers := (passed own [near, far]).map fun line => (FORWARDED_FOR, line)
    (Origin.new near.proxy headers trusted).client = client ∧
      (Origin.new client headers trusted).client = client ∧
        (Origin.new client [(FORWARDED_PROTO, "https".toList.map Char.toUInt8)] trusted).https =
          false := by
  intro trusted client near far own headers
  have hclient : trusted.trusts client = false := by decide +kernel
  have htruthful : Truthful trusted client [near, far] := by
    refine ⟨by decide +kernel, ⟨by decide +kernel, by decide +kernel, by decide +kernel⟩,
      by decide +kernel, ⟨by decide +kernel, by decide +kernel, by decide +kernel⟩, trivial⟩
  have hpassed : headers.getAll FORWARDED_FOR = passed own [near, far] := by decide +kernel
  obtain ⟨hforwarded, hdirect, -, -⟩ := client_not_forged
  refine ⟨?_, (hdirect trusted client headers hclient).1, (hdirect trusted client _ hclient).2⟩
  obtain hsame | ⟨-, ⟨hcomma, -⟩ | ⟨-, line, hline, hvisible⟩ | hnone⟩ :=
    hforwarded trusted client own near [far] headers hclient htruthful hpassed
  · exact hsame
  · cases hcomma
  · obtain rfl := Option.some.inj hline
    exact absurd hvisible (by decide +kernel)
  · exact hnone.elim

end JewelCase.Proxies
