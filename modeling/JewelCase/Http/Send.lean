import JewelCase.Http.Rules
import JewelCase.Network.Kept
import JewelCase.Plugins.Grants

/-!
# Requests of plugins

`crates/plugins/src/host/http.rs` and `http/guard.rs`. The URL parser and how a client resolves a
redirect's location are parameters. Several requests run at once: each is one step from where it
waits to where it next waits, and what the network answers is the step's own. A client connects to
the address a URL's host is, or else to one its resolver answers, and may use a connection again for
URLs of the same origin.
-/
namespace JewelCase.Http

open JewelCase.Network (Clock)
open JewelCase.Network.Cache (Text IpAddr Header Reply Key Visible Inner SystemTime)
open JewelCase.Plugins (Permission)

set_option autoImplicit false

/-- The largest request or reply body. -/
def MAX_BODY : Nat := 16 * 2 ^ 20

/-- The most redirects a request follows in a row. -/
def MAX_REDIRECTS : Nat := 5

/-- Headers the host sets. -/
def RESERVED : List Text :=
  ["host".toList, "content-length".toList, "transfer-encoding".toList, "connection".toList,
    "upgrade".toList, "te".toList, "trailer".toList]

inductive Method where
  | get
  | head
  | post
  | put
  | patch
  | delete
deriving DecidableEq, Repr

structure Request where
  method : Method
  url : Text
  headers : List Header
  body : List UInt8
deriving DecidableEq, Repr

/-- What a run may do. -/
structure Grants where
  plugin : String
  library : Int
  user : Option Int
  permissions : List Permission
  destinations : List Text
deriving DecidableEq, Repr

/-- Why a request has no reply. -/
inductive Error where
  | notGranted
  /-- The URL is refused, and the host it names. -/
  | refused (host : Text) (why : Refusal)
  | bodyTooLarge
  /-- A header that the host sets. -/
  | reserved (name : Text)
  | rateLimited
  | tooManyRedirects
  | redirectedElsewhere (why : Refusal)
  /-- None of a name's addresses is in reach. -/
  | forbidden (host : Text) (why : Refusal)
  | replyTooLarge
  | failed
deriving DecidableEq, Repr

/-- What a run can see. -/
def Grants.visible (grants : Grants) : Visible where
  library := grants.library
  user := grants.user
  libraryRead := grants.permissions.contains .libraryRead
  listeningActivity := grants.permissions.contains .listeningActivity
  searchActivity := grants.permissions.contains .searchActivity

def Method.changes : Method → Bool
  | .get | .head => false
  | .post | .put | .patch | .delete => true

def isOk {ε α : Type} : Except ε α → Bool
  | .ok _ => true
  | .error _ => false

/-! ### A client -/

/-- `Guard::resolve`: of the addresses found for a name those in reach, or why none is. -/
def resolve (host : Text) (destinations : List Text) (found : List IpAddr) :
    Except Refusal (List IpAddr) :=
  let judged := found.map fun ip => (ip, mayReach host ip destinations reach)
  let allowed := (judged.filter fun judged => isOk judged.2).map Prod.fst
  let refused := judged.findSome? fun judged => match judged.2 with
    | .ok () => none
    | .error why => some why
  match refused, allowed with
  | some why, [] => .error why
  | _, allowed => .ok allowed

/-- What connections are kept by. -/
structure Origin where
  scheme : Text
  host : Option Text
  port : Option Nat
deriving DecidableEq, Repr

def Url.origin (url : Url) : Origin := ⟨url.scheme, url.host, url.port⟩

/-- A client, with the destinations it keeps to and the connections it has made. -/
structure Client where
  destinations : List Text
  connections : List (Origin × IpAddr)

/-- Where a client connects for a URL: to the address its host is, or one its resolver answers. -/
def Client.addresses (client : Client) (url : Url) (found : List IpAddr) :
    Except Error (List IpAddr) :=
  match url.host with
  | none => .error .failed
  | some host =>
    match parseIp (bare host) with
    | some ip => .ok [ip]
    | none =>
      match resolve host client.destinations found with
      | .ok allowed => .ok allowed
      | .error why => .error (.forbidden host why)

section
variable (parse : Text → Option Url)

/-- Whether a client follows a redirect, after requests to `previous`. -/
def Client.follows (client : Client) (previous : List Url) (next : Url) : Except Error Unit :=
  if MAX_REDIRECTS < previous.length then .error .tooManyRedirects
  else
    match allowed parse next.text client.destinations reach with
    | .ok _ => .ok ()
    | .error why => .error (.redirectedElsewhere why)

/-! ### What a request is allowed -/

/-- What a request is before it waits for its turn: where to, and what its reply is kept for. -/
def checked (grants : Grants) (request : Request) : Except Error (Url × Option Key) :=
  if ¬ grants.permissions.contains .network then .error .notGranted
  else
    match allowed parse request.url grants.destinations reach with
    | .error why => .error (.refused (hostOf parse request.url) why)
    | .ok url =>
      if MAX_BODY < request.body.length then .error .bodyTooLarge
      else
        match request.headers.find? fun header =>
          RESERVED.contains (Network.Cache.toAsciiLowercase header.1) with
        | some header => .error (.reserved header.1)
        | none =>
          .ok (url, if request.method = .get ∧ request.body = [] then
            Key.new grants.visible url.text request.headers else none)

/-- Whether a run may reuse a kept reply. -/
def mayReuse (grants : Grants) (reply : Reply) : Except Error Bool :=
  match allowed parse reply.url grants.destinations reach with
  | .error why => .error (.redirectedElsewhere why)
  | .ok _ =>
    let host := hostOf parse reply.url
    .ok (reply.addr.any fun ip => isOk (mayReach host ip grants.destinations reach))

end

/-! ### Requests under way -/

/-- Where a request is. -/
inductive Stage where
  /-- Waiting for its turn. -/
  | waiting
  /-- About to be sent to `url`, after requests to `previous`. -/
  | connecting (client : Nat) (previous : List Url) (url : Url)
  /-- Sent to `url` at an address. -/
  | sent (client : Nat) (previous : List Url) (url : Url) (addr : IpAddr)
deriving DecidableEq, Repr

structure Sending where
  grants : Grants
  request : Request
  url : Url
  key : Option Key
  /-- A kept reply to check. -/
  stale : Option Reply
  stage : Stage
deriving DecidableEq, Repr

/-- A request as sent on a connection: by a run with these destinations, after so many redirects. -/
structure Sent where
  destinations : List Text
  url : Url
  addr : IpAddr
  redirects : Nat
deriving DecidableEq, Repr

/-- What a run was answered, and whether with a kept reply. -/
structure Answered where
  grants : Grants
  answer : Except Error Reply
  kept : Bool
deriving DecidableEq

/-- The clients made, which of them is kept for each plugin and the destinations it was made for, the
replies kept, and the requests of all runs. -/
structure Net where
  clients : List Client
  kept : AList fun _ : String => List Text × Nat
  cache : Inner
  sending : List Sending
  sent : List Sent
  answered : List Answered

namespace Net

def new : Net := ⟨[], ∅, .empty, [], [], []⟩

/-- What happens next. -/
inductive Event [Clock] where
  /-- A run asks for a request. -/
  | ask (grants : Grants) (request : Request) (limited : Bool) (now : Nat)
  /-- A request's turn has come, and its client is there or can be made. -/
  | start (i : Nat) (made : Bool)
  /-- A client connects, to one of the addresses there are. -/
  | connect (i : Nat) (found : List IpAddr) (choice : Nat)
  /-- A client uses a connection again. -/
  | reuse (i : Nat) (connection : Nat)
  /-- The connection was closed before an answer. -/
  | retry (i : Nat)
  | redirect (i : Nat) (location : Text)
  | reply (i : Nat) (status : Nat) (headers : List Header) (body : List UInt8) (known : Bool)
      (now : Nat) (clock : SystemTime)
  /-- A request fails, or its time is up. -/
  | fail (i : Nat)

def answer (s : Net) (grants : Grants) (answer : Except Error Reply) (kept : Bool) : Net :=
  { s with answered := s.answered ++ [⟨grants, answer, kept⟩] }

/-- Ends request `i` with an answer. -/
def finish (s : Net) (i : Nat) (sending : Sending) (answer : Except Error Reply) (kept : Bool) :
    Net :=
  { s with sending := s.sending.eraseIdx i }.answer sending.grants answer kept

/-- Puts request `i` at a stage. -/
def move (s : Net) (i : Nat) (sending : Sending) (stage : Stage) : Net :=
  { s with sending := s.sending.set i { sending with stage } }

/-- The plugin's client, made again if its destinations are not those it was made for. -/
def client (s : Net) (grants : Grants) : Nat × Net :=
  let made := (s.clients.length,
    { s with
      clients := s.clients ++ [⟨grants.destinations, []⟩]
      kept := s.kept.insert grants.plugin (grants.destinations, s.clients.length) })
  match s.kept.lookup grants.plugin with
  | some (keptTo, i) => if keptTo = grants.destinations then (i, s) else made
  | none => made

/-- Sends request `i` to `url` at an address. -/
def send (s : Net) (i : Nat) (sending : Sending) (client : Nat) (previous : List Url) (url : Url)
    (addr : IpAddr) : Net :=
  { s.move i sending (.sent client previous url addr) with
    sent := s.sent ++ [⟨sending.grants.destinations, url, addr, previous.length⟩] }

variable [Clock] (parse : Text → Option Url) (join : Url → Text → Option Url)
  (parseHttpDate : Text → Option SystemTime)

/-- A run asks for a request: it is refused, answered with a kept reply, or waits for its turn. -/
def ask (s : Net) (grants : Grants) (request : Request) (limited : Bool) (now : Nat) : Net :=
  match checked parse grants request with
  | .error error => s.answer grants (.error error) false
  | .ok (url, key) =>
    let wait (s : Net) (stale : Option Reply) : Net :=
      if limited then s.answer grants (.error .rateLimited) false
      else { s with sending := s.sending ++ [⟨grants, request, url, key, stale, .waiting⟩] }
    match key with
    | none => wait s none
    | some key =>
      let (found, cache) := Network.Cache.lookup s.cache key now
      let s := { s with cache }
      match found with
      | .fresh reply =>
        match mayReuse parse grants reply with
        | .error error => s.answer grants (.error error) false
        | .ok true => s.answer grants (.ok reply) true
        | .ok false => wait s none
      | .stale reply => wait s (if mayReuse parse grants reply = .ok true then some reply else none)
      | .miss => wait s none

/-- A reply has come: it is kept where it may be. -/
def replied (s : Net) (i : Nat) (sending : Sending) (reply : Reply) (now : Nat) (clock : SystemTime) :
    Net :=
  let s := if sending.request.method.changes ∧ reply.status < 400 then
    { s with cache := Network.Cache.invalidate s.cache sending.url.text } else s
  match sending.key, sending.stale with
  | none, _ => s.finish i sending (.ok reply) false
  | some key, some stale =>
    if reply.status = 304 then
      let (reply, cache) := Network.Cache.refresh parseHttpDate s.cache key stale reply.headers now clock
      { s with cache }.finish i sending (.ok reply) true
    else if reply.status = 429 ∨ 500 ≤ reply.status then s.finish i sending (.ok reply) false
    else
      { s with cache := Network.Cache.store parseHttpDate s.cache key reply now clock }.finish i sending
        (.ok reply) false
  | some key, none =>
    if reply.status = 429 ∨ 500 ≤ reply.status then s.finish i sending (.ok reply) false
    else
      { s with cache := Network.Cache.store parseHttpDate s.cache key reply now clock }.finish i sending
        (.ok reply) false

def step (s : Net) : Event → Net
  | .ask grants request limited now => s.ask parse grants request limited now
  | .start i made =>
    match s.sending[i]? with
    | some sending =>
      if sending.stage = .waiting then
        if made then
          let (client, s) := s.client sending.grants
          s.move i sending (.connecting client [] sending.url)
        else s.finish i sending (.error .failed) false
      else s
    | none => s
  | .connect i found choice =>
    match s.sending[i]? with
    | some sending =>
      match sending.stage with
      | .connecting client previous url =>
        match s.clients[client]? with
        | some made =>
          match made.addresses url found with
          | .error error => s.finish i sending (.error error) false
          | .ok addresses =>
            match addresses[choice]? with
            | some addr =>
              let connected := { made with connections := made.connections ++ [(url.origin, addr)] }
              { s with clients := s.clients.set client connected }.send i sending client previous url
                addr
            | none => s.finish i sending (.error .failed) false
        | none => s
      | _ => s
    | none => s
  | .reuse i connection =>
    match s.sending[i]? with
    | some sending =>
      match sending.stage with
      | .connecting client previous url =>
        match (s.clients[client]?).bind fun made => made.connections[connection]? with
        | some (origin, addr) =>
          if origin = url.origin then s.send i sending client previous url addr else s
        | none => s
      | _ => s
    | none => s
  | .retry i =>
    match s.sending[i]? with
    | some sending =>
      match sending.stage with
      | .sent client previous url _ => s.move i sending (.connecting client previous url)
      | _ => s
    | none => s
  | .redirect i location =>
    match s.sending[i]? with
    | some sending =>
      match sending.stage with
      | .sent client previous url _ =>
        match s.clients[client]?, join url location with
        | some made, some next =>
          match made.follows parse (previous ++ [url]) next with
          | .ok () => s.move i sending (.connecting client (previous ++ [url]) next)
          | .error error => s.finish i sending (.error error) false
        | _, _ => s
      | _ => s
    | none => s
  | .reply i status headers body known now clock =>
    match s.sending[i]? with
    | some sending =>
      match sending.stage with
      | .sent _ _ url addr =>
        if MAX_BODY < body.length then s.finish i sending (.error .replyTooLarge) false
        else
          s.replied parseHttpDate i sending
            ⟨status, headers, body, url.text, if known then some addr else none⟩ now clock
      | _ => s
    | none => s
  | .fail i =>
    match s.sending[i]? with
    | some sending => s.finish i sending (.error .failed) false
    | none => s

def run (events : List Event) : Net := events.foldl (step parse join parseHttpDate) new

end Net

end JewelCase.Http
