import Mathlib.Algebra.GroupWithZero.Nat
import Mathlib.Algebra.Ring.Int.Defs
import Mathlib.Data.Char
import Mathlib.Data.List.Lex
import Mathlib.Data.List.Sort
import Mathlib.Data.Prod.Lex
import JewelCase.Network.Limits

/-!
# Replies and how long they may be reused

`crates/plugins/src/network/cache.rs`: the key a reply is kept for, what a reply says of its age,
and how long it may be reused without asking again. Text is a list of characters.
-/
namespace JewelCase.Network.Cache

set_option autoImplicit false

abbrev Text := List Char

/-- A header's name and value. -/
abbrev Header := Text × Text

/-- The largest reply body kept. -/
def MAX_ENTRY : Nat := 2 * 2 ^ 20

/-- The longest a reply is reused for without asking again, whatever it says. -/
def MAX_LIFETIME [Clock] : Nat := 24 * 60 * 60 * SECOND

/-- Statuses kept. -/
def STATUSES : List Nat := [200, 203, 204, 300, 301, 404, 410]

/-- Request headers by which a plugin manages caching itself. -/
def OWN_CACHING : List Text :=
  ["cache-control".toList, "pragma".toList, "if-match".toList, "if-none-match".toList,
    "if-modified-since".toList, "if-unmodified-since".toList, "if-range".toList, "range".toList]

/-- The bytes of a text. -/
def len (text : Text) : Nat := (text.map Char.utf8Size).sum

/-- `str::to_ascii_lowercase` -/
def toAsciiLowercase (text : Text) : Text := text.map Char.toLower

/-! ### Keys -/

/-- What a run can see. -/
structure Visible where
  library : Int
  user : Option Int
  libraryRead : Bool
  listeningActivity : Bool
  searchActivity : Bool
deriving DecidableEq, Repr

/-- Which request a reply answers. -/
structure Key where
  visible : Visible
  url : Text
  /-- Every header the plugin sent, names in lowercase, sorted. -/
  headers : List Header
deriving DecidableEq, Repr

/-- Headers with their names in lowercase. -/
def lowercased (headers : List Header) : List Header :=
  headers.map fun header => (toAsciiLowercase header.1, header.2)

/-- The key for a request, or none if it manages its own caching. -/
def Key.new (visible : Visible) (url : Text) (headers : List Header) : Option Key :=
  let headers := lowercased headers
  if headers.any fun header => OWN_CACHING.contains header.1 then none
  else some ⟨visible, url, headers.insertionSort fun a b => toLex a ≤ toLex b⟩

def sizeOf (headers : List Header) : Nat :=
  (headers.map fun header => len header.1 + len header.2).sum

def Key.size (key : Key) : Nat := len key.url + sizeOf key.headers

/-! ### Replies -/

inductive IpAddr where
  | v4 (bits : BitVec 32)
  | v6 (bits : BitVec 128)
deriving DecidableEq, Repr

structure Reply where
  status : Nat
  /-- Names in lowercase. -/
  headers : List Header
  body : List UInt8
  url : Text
  addr : Option IpAddr
deriving DecidableEq, Repr

/-- The value of a header. -/
def Reply.header (reply : Reply) (name : String) : Option Text :=
  (reply.headers.find? fun header => header.1 = name.toList).map Prod.snd

/-- The age it arrived with, in seconds: 0 if it says none. -/
def Reply.age (reply : Reply) : Nat :=
  ((reply.header "age").bind fun age => parseU64 (trim age)).getD 0

/-- As the cache answers with it, `kept` after it arrived. -/
def Reply.aged [Clock] (reply : Reply) (kept : Nat) : Reply :=
  let age := min (reply.age + kept / SECOND) (2 ^ 64 - 1)
  { reply with headers :=
      (reply.headers.filter fun header => header.1 ≠ "age".toList) ++ [("age".toList, Nat.toDigits 10 age)] }

def Reply.size (reply : Reply) : Nat :=
  reply.body.length + len reply.url + sizeOf reply.headers

/-- The headers that ask whether a reply is still current: none if it has no validator. -/
def conditions (stale : Reply) : List Header :=
  ((stale.header "etag").map fun etag => ("if-none-match".toList, etag)).toList ++
    ((stale.header "last-modified").map fun modified =>
      ("if-modified-since".toList, modified)).toList

/-! ### Lifetimes -/

/-- Every value of a header. -/
def Reply.all (reply : Reply) (name : String) : List Text :=
  (reply.headers.filter fun header => header.1 = name.toList).map Prod.snd

/-- `str::split_once` at `=` -/
def splitOnce (text : Text) : Option (Text × Text) :=
  if '=' ∈ text then
    some (text.takeWhile (· ≠ '='), (text.dropWhile (· ≠ '=')).tail)
  else none

/-- `str::trim_matches` of quotes -/
def trimQuotes (text : Text) : Text :=
  ((text.dropWhile (· = '"')).reverse.dropWhile (· = '"')).reverse

/-- One directive of a `Cache-Control`. -/
def directive (text : Text) : Text × Option Text :=
  match splitOnce text with
  | some (name, value) => (toAsciiLowercase (trim name), some (trimQuotes (trim value)))
  | none => (toAsciiLowercase (trim text), none)

def Reply.directives (reply : Reply) : List (Text × Option Text) :=
  ((reply.all "cache-control").flatMap fun value => value.splitOn ',').map directive

def Reply.has (reply : Reply) (name : String) : Bool :=
  reply.directives.any fun directive => directive.1 = name.toList

variable [Clock]

def Reply.seconds (reply : Reply) (name : String) : Option Nat :=
  let value := (reply.directives.find? fun directive => directive.1 = name.toList).bind Prod.snd
  (value.bind parseU64).map fun seconds => seconds * SECOND

/-- A time of the wall clock: its seconds fill 64 bits. -/
structure SystemTime where
  time : Int
  lower : -2 ^ 63 * SECOND ≤ time
  upper : time < 2 ^ 63 * SECOND

variable (parseHttpDate : Text → Option SystemTime)

/-- How long a reply says it may be reused, from when it was sent. -/
def Reply.saidLifetime (reply : Reply) (clock : SystemTime) : Nat :=
  if reply.has "no-cache" then 0
  else
    match (reply.seconds "s-maxage").or (reply.seconds "max-age") with
    | some maxAge => maxAge
    | none =>
      match reply.header "expires" with
      | some expires =>
        let sent := ((reply.header "date").bind parseHttpDate).getD clock
        -- An `Expires` that is not a date, such as `0`, means already expired.
        ((parseHttpDate expires).map fun expiry => (expiry.time - sent.time).toNat).getD 0
      | none => 0

/-- How long a reply may be reused without asking again, or none if it may not be kept. -/
def lifetime (reply : Reply) (clock : SystemTime) : Option Nat :=
  if reply.status ∉ STATUSES ∨ MAX_ENTRY < reply.body.length then none
  else if (reply.header "set-cookie").isSome ∨ ∃ value ∈ reply.all "vary", trim value = ['*'] then
    none
  else if reply.has "no-store" ∨ reply.has "private" then none
  else
    let lifetime := min (reply.saidLifetime parseHttpDate clock - reply.age * SECOND) MAX_LIFETIME
    let validated := (reply.header "etag").isSome || (reply.header "last-modified").isSome
    if 0 < lifetime ∨ validated then some lifetime else none

end JewelCase.Network.Cache
