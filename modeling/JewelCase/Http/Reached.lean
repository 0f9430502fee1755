import JewelCase.Http.Rules
import JewelCase.Http.Send
import JewelCase.Network.Fresh

/-!
# A request reaches only where it may

Four checks together: of a request's URL, of each redirect, of each address a name has, and of each
kept reply. The first two judge a literal address and the third a name's, whatever run made the client
or the reply.
-/
namespace JewelCase.Http

open JewelCase.Network (Clock)
open JewelCase.Network.Cache (Text IpAddr Header Reply Key Inner SystemTime Follows Recent Call)

set_option autoImplicit false

/-- A plugin with these destinations may reach `addr` for `url`: an http(s) URL whose host one of
them allows, at an address that is not one never reached, and private only if one names the host. -/
def MayGo (destinations : List Text) (url : Url) (addr : IpAddr) : Prop :=
  (url.scheme = http ∨ url.scheme = https) ∧ ∃ host, url.host = some host ∧
    destinationAllowed host destinations ∧ ¬ neverReached.Holds addr ∧
      (privateBlocks.Holds addr → names host destinations)

/-- And may ask for `url`, as far as the URL says. -/
def MayAsk (destinations : List Text) (url : Url) : Prop :=
  (url.scheme = http ∨ url.scheme = https) ∧ ∃ host, url.host = some host ∧
    destinationAllowed host destinations ∧
      ∀ ip, parseIp (bare host) = some ip → isOk (mayReach host ip destinations reach)

variable {destinations : List Text} {url : Url} {addr : IpAddr} {host : Text}

/-! ### The checks -/

theorem mayReach_ok : isOk (mayReach host addr destinations reach) ↔
    ¬ neverReached.Holds addr ∧ (privateBlocks.Holds addr → names host destinations) := by
  rw [mayReach, reach_eq]
  by_cases hnever : neverReached.Holds addr
  · simp [hnever, isOk]
  · by_cases hprivate : privateBlocks.Holds addr
    · by_cases hnames : names host destinations
      · simp [hnever, hprivate, hnames, isOk]
      · simp [hnever, hprivate, hnames, isOk]
    · simp [hnever, hprivate, isOk]

/-- A connection of the same origin is one for the URL. -/
theorem MayGo.of_origin {other : Url} (h : MayGo destinations other addr)
    (horigin : other.origin = url.origin) : MayGo destinations url addr := by
  obtain ⟨hscheme, hrest⟩ := h
  rw [Url.origin, Url.origin, Origin.mk.injEq] at horigin
  rw [horigin.1] at hscheme
  rw [horigin.2.1] at hrest
  exact ⟨hscheme, hrest⟩

/-- Every address a name is answered with is one found and in reach. -/
theorem resolve_ok {found addresses : List IpAddr}
    (h : resolve host destinations found = .ok addresses) :
    ∀ ip ∈ addresses, ip ∈ found ∧ isOk (mayReach host ip destinations reach) := by
  have hall : addresses = ((found.map fun ip => (ip, mayReach host ip destinations reach)).filter
      fun judged => isOk judged.2).map Prod.fst := by
    unfold resolve at h
    simp only at h
    split at h
    · cases h
    · cases h
      rfl
  intro ip hip
  rw [hall] at hip
  obtain ⟨judged, hjudged, rfl⟩ := List.mem_map.mp hip
  obtain ⟨hmem, hok⟩ := List.mem_filter.mp hjudged
  obtain ⟨ip, hfound, rfl⟩ := List.mem_map.mp hmem
  exact ⟨hfound, hok⟩

/-- A client connects only where its destinations let it. -/
theorem Client.addresses_ok {client : Client} {found addresses : List IpAddr}
    (h : MayAsk client.destinations url) (hok : client.addresses url found = .ok addresses) :
    ∀ ip ∈ addresses, MayGo client.destinations url ip := by
  obtain ⟨hscheme, host, hhost, hallowed, hliteral⟩ := h
  intro ip hip
  have hreach : isOk (mayReach host ip client.destinations reach) := by
    rw [Client.addresses, hhost] at hok
    simp only at hok
    cases hparse : parseIp (bare host) with
    | some literal =>
      rw [hparse] at hok
      cases hok
      rw [List.mem_singleton.mp hip]
      exact hliteral literal hparse
    | none =>
      rw [hparse] at hok
      simp only at hok
      split at hok
      · rename_i allowed hresolve
        cases hok
        exact (resolve_ok hresolve ip hip).2
      · cases hok
  obtain ⟨hnever, hprivate⟩ := mayReach_ok.1 hreach
  exact ⟨hscheme, host, hhost, hallowed, hnever, hprivate⟩

section
variable {parse : Text → Option Url}

theorem allowed_ok {text : Text} (h : allowed parse text destinations reach = .ok url) :
    parse text = some url ∧ MayAsk destinations url := by
  rw [allowed] at h
  cases hparse : parse text with
  | none =>
    rw [hparse] at h
    cases h
  | some parsed =>
    rw [hparse] at h
    simp only at h
    split_ifs at h with hscheme
    have hhttp : parsed.scheme = http ∨ parsed.scheme = https := by
      by_contra hother
      rw [not_or] at hother
      exact hscheme ⟨hother.2, hother.1⟩
    cases hhost : parsed.host with
    | none =>
      rw [hhost] at h
      cases h
    | some host =>
      rw [hhost] at h
      simp only at h
      split_ifs at h with hdot hallowed
      cases hliteral : parseIp (bare host) with
      | none =>
        rw [hliteral] at h
        cases h
        refine ⟨rfl, hhttp, host, hhost, hallowed, fun ip hip => ?_⟩
        rw [hliteral] at hip
        cases hip
      | some literal =>
        rw [hliteral] at h
        simp only at h
        cases hreach : mayReach host literal destinations reach with
        | error why =>
          rw [hreach] at h
          cases h
        | ok answer =>
          rw [hreach] at h
          cases h
          refine ⟨rfl, hhttp, host, hhost, hallowed, fun ip hip => ?_⟩
          rw [hliteral] at hip
          cases hip
          rw [hreach]
          rfl

/-- A client follows at most so many redirects, each where its destinations let it. -/
theorem Client.follows_ok {client : Client} {previous : List Url}
    (h : client.follows parse previous url = .ok ()) :
    previous.length ≤ MAX_REDIRECTS ∧
      ∃ next, parse url.text = some next ∧ MayAsk client.destinations next := by
  rw [follows] at h
  split_ifs at h with hmany
  refine ⟨Nat.not_lt.mp hmany, ?_⟩
  split at h
  · rename_i next hallowed
    exact ⟨next, allowed_ok hallowed⟩
  · cases h

theorem checked_ok {grants : Grants} {request : Request} {key : Option Key}
    (h : checked parse grants request = .ok (url, key)) :
    parse request.url = some url ∧ MayAsk grants.destinations url := by
  rw [checked] at h
  split at h
  · cases h
  · cases hallowed : allowed parse request.url grants.destinations reach with
    | error why =>
      rw [hallowed] at h
      cases h
    | ok found =>
      rw [hallowed] at h
      simp only at h
      split at h
      · cases h
      · split at h
        · cases h
        · cases h
          exact allowed_ok hallowed

/-- A kept reply may be reused only where it came from. -/
theorem mayReuse_ok {grants : Grants} {reply : Reply} (h : mayReuse parse grants reply = .ok true) :
    ∃ url addr, parse reply.url = some url ∧ reply.addr = some addr ∧
      MayGo grants.destinations url addr := by
  rw [mayReuse] at h
  split at h
  · cases h
  · rename_i url hallowed
    obtain ⟨hparse, hscheme, host, hhost, hdestination, -⟩ := allowed_ok hallowed
    have hhostOf : hostOf parse reply.url = host := by
      rw [hostOf, hparse, Option.filter_some, if_pos (by simpa using hscheme), Option.bind_some,
        hhost]
      rfl
    rw [hhostOf] at h
    cases haddr : reply.addr with
    | none =>
      rw [haddr] at h
      cases h
    | some addr =>
      rw [haddr] at h
      simp only [Option.any_some, Except.ok.injEq] at h
      obtain ⟨hnever, hprivate⟩ := mayReach_ok.1 h
      exact ⟨url, addr, hparse, rfl, hscheme, host, hhost, hdestination, hnever, hprivate⟩

end

/-! ### The replies kept -/

/-- Every reply kept is one of these. -/
def Holds (P : Reply → Prop) (cache : Inner) : Prop :=
  ∃ recent, Follows cache recent ∧
    ∀ key kept, recent.lookup key = some kept → P kept.reply

theorem Holds.imp {P Q : Reply → Prop} {cache : Inner} (h : Holds P cache)
    (hPQ : ∀ reply, P reply → Q reply) : Holds Q cache := by
  obtain ⟨recent, hfollows, hall⟩ := h
  exact ⟨recent, hfollows, fun key kept hkept => hPQ _ (hall key kept hkept)⟩

section
variable [Clock] {P : Reply → Prop} {cache : Inner}

/-- A call keeps no other reply than the one it puts. -/
theorem Holds.step (h : Holds P cache) (parseHttpDate : Text → Option SystemTime) (call : Call)
    (hput : ∀ put, call.puts = some put → P put.reply) :
    Holds P (Network.Cache.step parseHttpDate cache call) := by
  obtain ⟨recent, hfollows, hall⟩ := h
  refine ⟨recent.step parseHttpDate call, Network.Cache.follows_step hfollows call, ?_⟩
  intro key kept hkept
  obtain ⟨put, life, hputs, -, -, rfl⟩ | ⟨hold, -⟩ := Network.Cache.lookup_step hkept
  · exact hput put hputs
  · exact hall key kept hold

theorem Holds.looked (h : Holds P cache) (key : Key) (now : Nat) :
    Holds P (Network.Cache.lookup cache key now).2 :=
  h.step (fun _ => none) (.lookup key now) fun put hput => by (cases hput)

/-- What is answered from the cache is a reply kept, but for its headers. -/
theorem Holds.lookup (h : Holds P cache) (key : Key) (now : Nat) :
    (∀ reply, (Network.Cache.lookup cache key now).1 = .fresh reply →
      ∃ kept, P kept ∧ reply.url = kept.url ∧ reply.addr = kept.addr) ∧
    ∀ reply, (Network.Cache.lookup cache key now).1 = .stale reply → P reply := by
  obtain ⟨recent, hfollows, hall⟩ := h
  have hfound : ∀ entry, cache.entries.lookup key = some entry → P entry.reply := fun entry hentry =>
    hall key entry.toKept (hfollows.lookup_some hentry)
  rw [Network.Cache.lookup]
  cases hentry : cache.entries.lookup key with
  | none =>
    constructor
    · intro reply hreply
      cases hreply
    · intro reply hreply
      cases hreply
  | some entry =>
    simp only
    split_ifs
    · constructor
      · intro reply hreply
        cases hreply
      · intro reply hreply
        cases hreply
    · constructor
      · intro reply hreply
        cases hreply
        exact ⟨entry.reply, hfound entry hentry, rfl, rfl⟩
      · intro reply hreply
        cases hreply
    · constructor
      · intro reply hreply
        cases hreply
      · intro reply hreply
        cases hreply
        exact hfound entry hentry

end

/-! ### What holds of every request -/

namespace Net

section
variable (parse : Text → Option Url)

/-- A reply came from where a request was sent, if it says an address. -/
def Came (s : Net) (reply : Reply) : Prop :=
  ∀ addr, reply.addr = some addr →
    ∃ sent ∈ s.sent, reply.url = sent.url.text ∧ sent.addr = addr

/-- And these destinations let a plugin go there. -/
def Reused (s : Net) (destinations : List Text) (reply : Reply) : Prop :=
  ∃ sent ∈ s.sent, reply.url = sent.url.text ∧ reply.addr = some sent.addr ∧
    MayGo destinations sent.url sent.addr

/-- The client was made for these destinations. -/
def Keeps (s : Net) (client : Nat) (destinations : List Text) : Prop :=
  ∃ made, s.clients[client]? = some made ∧ made.destinations = destinations

/-- A request about to be sent may be. -/
structure Asks (s : Net) (destinations : List Text) (client : Nat) (previous : List Url) (url : Url) :
    Prop where
  keeps : s.Keeps client destinations
  mayAsk : MayAsk destinations url
  parsed : parse url.text = some url
  few : previous.length ≤ MAX_REDIRECTS

/-- A request is where its run may go. -/
def Placed (s : Net) (destinations : List Text) : Stage → Prop
  | .waiting => True
  | .connecting client previous url => s.Asks parse destinations client previous url
  | .sent client previous url addr => s.Asks parse destinations client previous url ∧
      ∃ sent ∈ s.sent, sent.url = url ∧ sent.addr = addr

structure Going (s : Net) (sending : Sending) : Prop where
  mayAsk : MayAsk sending.grants.destinations sending.url
  parsed : parse sending.url.text = some sending.url
  stale : ∀ reply, sending.stale = some reply → s.Reused sending.grants.destinations reply
  placed : s.Placed parse sending.grants.destinations sending.stage

/-- Every client, request and reply keeps to the destinations it was made, sent or reused for. -/
structure Sound (s : Net) : Prop where
  clients : ∀ client ∈ s.clients, ∀ connection ∈ client.connections, ∃ url : Url,
    url.origin = connection.1 ∧ MayGo client.destinations url connection.2
  kept : ∀ plugin keptTo i, s.kept.lookup plugin = some (keptTo, i) → s.Keeps i keptTo
  sending : ∀ sending ∈ s.sending, s.Going parse sending
  sent : ∀ sent ∈ s.sent, MayGo sent.destinations sent.url sent.addr ∧
    sent.redirects ≤ MAX_REDIRECTS ∧ parse sent.url.text = some sent.url
  cache : Holds s.Came s.cache
  answered : ∀ answered ∈ s.answered, answered.kept → ∀ reply, answered.answer = .ok reply →
    s.Reused answered.grants.destinations reply

/-- More has been sent, and no client keeps to other destinations. -/
structure Grows (s s' : Net) : Prop where
  sent : ∀ sent ∈ s.sent, sent ∈ s'.sent
  keeps : ∀ client destinations, s.Keeps client destinations → s'.Keeps client destinations

end

variable {parse : Text → Option Url} {s s' : Net}

theorem Grows.of_same (hsent : s'.sent = s.sent) (hclients : s'.clients = s.clients) : Grows s s' := by
  refine ⟨fun sent hmem => hsent ▸ hmem, fun client destinations hkeeps => ?_⟩
  rw [Keeps, hclients]
  exact hkeeps

theorem Came.mono {reply : Reply} (h : s.Came reply) (hgrows : Grows s s') : s'.Came reply := by
  intro addr haddr
  obtain ⟨sent, hmem, hsent⟩ := h addr haddr
  exact ⟨sent, hgrows.sent sent hmem, hsent⟩

theorem Reused.mono {reply : Reply} (h : s.Reused destinations reply) (hgrows : Grows s s') :
    s'.Reused destinations reply := by
  obtain ⟨sent, hmem, hsent⟩ := h
  exact ⟨sent, hgrows.sent sent hmem, hsent⟩

theorem Asks.mono {client : Nat} {previous : List Url}
    (h : s.Asks parse destinations client previous url) (hgrows : Grows s s') :
    s'.Asks parse destinations client previous url :=
  ⟨hgrows.keeps client destinations h.keeps, h.mayAsk, h.parsed, h.few⟩

theorem Going.mono {sending : Sending} (h : s.Going parse sending) (hgrows : Grows s s') :
    s'.Going parse sending := by
  refine ⟨h.mayAsk, h.parsed, fun reply hreply => (h.stale reply hreply).mono hgrows, ?_⟩
  have hplaced := h.placed
  cases hstage : sending.stage with
  | waiting => exact trivial
  | connecting client previous url =>
    rw [hstage] at hplaced
    exact Asks.mono hplaced hgrows
  | sent client previous url addr =>
    rw [hstage] at hplaced
    obtain ⟨hasks, sent, hmem, hsent⟩ := hplaced
    exact ⟨hasks.mono hgrows, sent, hgrows.sent sent hmem, hsent⟩

/-- A kept reply that a run may reuse came from where it may go. -/
theorem Came.reused (hsent : ∀ sent ∈ s.sent, parse sent.url.text = some sent.url) {reply : Reply}
    (h : s.Came reply) {grants : Grants} (hmay : mayReuse parse grants reply = .ok true) :
    s.Reused grants.destinations reply := by
  obtain ⟨url, addr, hparse, haddr, hgo⟩ := mayReuse_ok hmay
  obtain ⟨sent, hmem, hurl, rfl⟩ := h addr haddr
  have hsame := hsent sent hmem
  rw [← hurl, hparse, Option.some.injEq] at hsame
  subst hsame
  exact ⟨sent, hmem, hurl, haddr, hgo⟩

namespace Sound

variable {i : Nat} {sending : Sending} {grants : Grants}

/-- Requests end and are answered, and the cache changes. -/
theorem settled (h : s.Sound parse) {cache : Inner} (hcache : Holds s.Came cache)
    {sendings : List Sending} (hsending : ∀ sending ∈ sendings, sending ∈ s.sending)
    (answer : Except Error Reply) (kept : Bool)
    (hkept : kept → ∀ reply, answer = .ok reply → s.Reused grants.destinations reply) :
    Sound parse ({ s with cache, sending := sendings }.answer grants answer kept) := by
  have hgrows : Grows s ({ s with cache, sending := sendings }.answer grants answer kept) :=
    .of_same rfl rfl
  refine ⟨h.clients, h.kept, fun sending hmem => (h.sending sending (hsending sending hmem)).mono
    hgrows, h.sent, hcache, fun answered hmem => ?_⟩
  obtain hmem | hmem := List.mem_append.mp hmem
  · exact h.answered answered hmem
  · rw [List.mem_singleton.mp hmem]
    exact hkept

theorem answer (h : s.Sound parse) (answer : Except Error Reply) (kept : Bool)
    (hkept : kept → ∀ reply, answer = .ok reply → s.Reused grants.destinations reply) :
    (s.answer grants answer kept).Sound parse :=
  h.settled h.cache (fun _ hmem => hmem) answer kept hkept

theorem finish (h : s.Sound parse) (answer : Except Error Reply) (kept : Bool)
    (hkept : kept → ∀ reply, answer = .ok reply →
      s.Reused sending.grants.destinations reply) :
    (s.finish i sending answer kept).Sound parse :=
  h.settled h.cache (fun _ hmem => List.mem_of_mem_eraseIdx hmem) answer kept hkept

theorem failed (h : s.Sound parse) (error : Error) :
    (s.finish i sending (.error error) false).Sound parse :=
  h.finish (.error error) false fun hkept => by (cases hkept)

theorem recached (h : s.Sound parse) {cache : Inner} (hcache : Holds s.Came cache) :
    Sound parse { s with cache } :=
  ⟨h.clients, h.kept, fun sending hmem => (h.sending sending hmem).mono (.of_same rfl rfl), h.sent,
    hcache, h.answered⟩

/-- A request moves to where it may be. -/
theorem moved (hgoing : s.Going parse sending) {stage : Stage}
    (hgrows : Grows s s') (hplaced : s'.Placed parse sending.grants.destinations stage)
    (hsound : s'.Sound parse) : (s'.move i sending stage).Sound parse := by
  have hsame : Grows s' (s'.move i sending stage) := .of_same rfl rfl
  refine ⟨hsound.clients, hsound.kept, fun other hmem => ?_, hsound.sent, hsound.cache,
    hsound.answered⟩
  obtain hmem | rfl := List.mem_or_eq_of_mem_set hmem
  · exact (hsound.sending other hmem).mono hsame
  · have hlater := hgoing.mono hgrows
    exact Going.mono ⟨hlater.mayAsk, hlater.parsed, hlater.stale, hplaced⟩ hsame

/-- The client of a run was made for the run's destinations. -/
theorem client (h : s.Sound parse) (grants : Grants) :
    Grows s (s.client grants).2 ∧ (s.client grants).2.Sound parse ∧
      (s.client grants).2.Keeps (s.client grants).1 grants.destinations := by
  have hmade : ∀ made, made = (s.clients.length, ({ s with
      clients := s.clients ++ [⟨grants.destinations, []⟩]
      kept := s.kept.insert grants.plugin (grants.destinations, s.clients.length) } : Net)) →
      Grows s made.2 ∧ made.2.Sound parse ∧ made.2.Keeps made.1 grants.destinations := by
    rintro made rfl
    have hnew : Keeps { s with
        clients := s.clients ++ [⟨grants.destinations, []⟩]
        kept := s.kept.insert grants.plugin (grants.destinations, s.clients.length) }
        s.clients.length grants.destinations := ⟨_, List.getElem?_concat_length, rfl⟩
    have hgrows : Grows s { s with
        clients := s.clients ++ [⟨grants.destinations, []⟩]
        kept := s.kept.insert grants.plugin (grants.destinations, s.clients.length) } := by
      refine ⟨fun sent hmem => hmem, fun client destinations hkeeps => ?_⟩
      obtain ⟨made, hclient, hmade⟩ := hkeeps
      have hlt := (List.getElem?_eq_some_iff.mp hclient).1
      exact ⟨made, (List.getElem?_append_left hlt).trans hclient, hmade⟩
    refine ⟨hgrows, ⟨?_, ?_, ?_, h.sent, h.cache, h.answered⟩, hnew⟩
    · intro client hmem connection hconnection
      obtain hmem | hmem := List.mem_append.mp hmem
      · exact h.clients client hmem connection hconnection
      · rw [List.mem_singleton.mp hmem] at hconnection
        cases hconnection
    · intro plugin keptTo i hkept
      by_cases hplugin : plugin = grants.plugin
      · rw [hplugin, AList.lookup_insert] at hkept
        cases hkept
        exact hnew
      · rw [AList.lookup_insert_ne hplugin] at hkept
        exact hgrows.keeps i keptTo (h.kept plugin keptTo i hkept)
    · exact fun sending hmem => (h.sending sending hmem).mono hgrows
  rw [Net.client]
  split
  · rename_i keptTo i hkept
    split_ifs with hsame
    · exact ⟨.of_same rfl rfl, h, hsame ▸ h.kept _ keptTo i hkept⟩
    · exact hmade _ rfl
  · exact hmade _ rfl

/-- A request is sent where its run may go. -/
theorem send (h : s.Sound parse) (hgoing : s.Going parse sending) {client : Nat}
    {previous : List Url} (hasks : s.Asks parse sending.grants.destinations client previous url)
    (hgo : MayGo sending.grants.destinations url addr) :
    (s.send i sending client previous url addr).Sound parse := by
  have hgrows : Grows s { s with
      sent := s.sent ++ [⟨sending.grants.destinations, url, addr, previous.length⟩] } :=
    ⟨fun sent hmem => List.mem_append_left _ hmem, fun _ _ hkeeps => hkeeps⟩
  refine moved hgoing hgrows ⟨hasks.mono hgrows, _, List.mem_append_right _ List.mem_cons_self,
    rfl, rfl⟩ ⟨h.clients, h.kept, fun other hmem => (h.sending other hmem).mono hgrows, ?_,
    h.cache.imp fun reply hcame => hcame.mono hgrows, fun answered hmem hkept reply hreply =>
      (h.answered answered hmem hkept reply hreply).mono hgrows⟩
  intro sent hmem
  obtain hmem | hmem := List.mem_append.mp hmem
  · exact h.sent sent hmem
  · rw [List.mem_singleton.mp hmem]
    exact ⟨hgo, hasks.few, hasks.parsed⟩

theorem new : Net.new.Sound parse := by
  refine ⟨fun _ hmem => ?_, fun _ _ _ hkept => ?_, fun _ hmem => ?_, fun _ hmem => ?_,
    ⟨∅, Network.Cache.follows_empty, fun _ _ hkept => ?_⟩, fun _ hmem => ?_⟩
  · cases hmem
  · cases hkept
  · cases hmem
  · cases hmem
  · cases hkept
  · cases hmem

/-- A client connects to an address for a URL it was asked for. -/
theorem connect (h : s.Sound parse) (hgoing : s.Going parse sending) {client : Nat}
    {previous : List Url} {url : Url} {made : Client}
    (hasks : s.Asks parse sending.grants.destinations client previous url)
    (hmade : s.clients[client]? = some made) {found addresses : List IpAddr}
    (haddresses : made.addresses url found = .ok addresses) {addr : IpAddr} (haddr : addr ∈ addresses) :
    Sound parse ({ s with
      clients := s.clients.set client
        { made with connections := made.connections ++ [(url.origin, addr)] } }.send i sending client
          previous url addr) := by
  have hdestinations : made.destinations = sending.grants.destinations := by
    obtain ⟨other, hother, hkeeps⟩ := hasks.keeps
    rw [hmade, Option.some.injEq] at hother
    rw [hother]
    exact hkeeps
  have hgo : MayGo made.destinations url addr :=
    Client.addresses_ok (hdestinations ▸ hasks.mayAsk) haddresses addr haddr
  have hgrows : Grows s { s with
      clients := s.clients.set client
        { made with connections := made.connections ++ [(url.origin, addr)] } } := by
    refine ⟨fun sent hmem => hmem, fun other destinations hkeeps => ?_⟩
    obtain ⟨before, hbefore, hdest⟩ := hkeeps
    by_cases hsame : client = other
    · subst hsame
      rw [hmade, Option.some.injEq] at hbefore
      subst hbefore
      exact ⟨_, List.getElem?_set_self (List.getElem?_eq_some_iff.mp hmade).1, hdest⟩
    · exact ⟨before, (List.getElem?_set_ne hsame).trans hbefore, hdest⟩
  refine send ⟨fun other hmem connection hconnection => ?_, fun plugin keptTo j hkept =>
    hgrows.keeps j keptTo (h.kept plugin keptTo j hkept), fun other hmem =>
      (h.sending other hmem).mono hgrows, h.sent, h.cache, h.answered⟩ (hgoing.mono hgrows)
    (hasks.mono hgrows) (hdestinations ▸ hgo)
  obtain hmem | rfl := List.mem_or_eq_of_mem_set hmem
  · exact h.clients other hmem connection hconnection
  · obtain hconnection | hconnection := List.mem_append.mp hconnection
    · exact h.clients made (List.mem_of_getElem? hmade) connection hconnection
    · rw [List.mem_singleton.mp hconnection]
      exact ⟨url, rfl, hgo⟩

section
variable [Clock] {parseHttpDate : Text → Option SystemTime}

/-- A run's request is refused, answered from the cache, or waits. -/
theorem ask (h : s.Sound parse)
    (hparse : ∀ text url, parse text = some url → parse url.text = some url) (grants : Grants)
    (request : Request) (limited : Bool) (now : Nat) :
    (s.ask parse grants request limited now).Sound parse := by
  have hfailed : ∀ s' : Net, s'.Sound parse → ∀ error,
      (s'.answer grants (.error error) false).Sound parse :=
    fun s' hs' error => hs'.answer (.error error) false fun hkept => by (cases hkept)
  rw [Net.ask]
  cases hchecked : checked parse grants request with
  | error error => exact hfailed s h error
  | ok found =>
    obtain ⟨url, key⟩ := found
    obtain ⟨hurl, hmayAsk⟩ := checked_ok hchecked
    have hwait : ∀ (s' : Net) (stale : Option Reply), s'.Sound parse →
        (∀ reply, stale = some reply → s'.Reused grants.destinations reply) →
        Sound parse (if limited then s'.answer grants (.error .rateLimited) false
          else { s' with sending := s'.sending ++ [⟨grants, request, url, key, stale, .waiting⟩] }) := by
      intro s' stale hs' hstale
      split
      · exact hfailed s' hs' .rateLimited
      · have hsame : Grows s' { s' with
            sending := s'.sending ++ [⟨grants, request, url, key, stale, .waiting⟩] } :=
          .of_same rfl rfl
        refine ⟨hs'.clients, hs'.kept, fun sending hmem => ?_, hs'.sent, hs'.cache, hs'.answered⟩
        obtain hmem | hmem := List.mem_append.mp hmem
        · exact (hs'.sending sending hmem).mono hsame
        · rw [List.mem_singleton.mp hmem]
          exact ⟨hmayAsk, hparse _ _ hurl, hstale, trivial⟩
    cases key with
    | none => exact hwait s none h fun _ hreply => by (cases hreply)
    | some key =>
      have hs' := h.recached (h.cache.looked key now)
      have hreused : ∀ reply, s.Came reply → mayReuse parse grants reply = .ok true →
          s.Reused grants.destinations reply := fun reply hcame hmay =>
        hcame.reused (fun sent hmem => (h.sent sent hmem).2.2) hmay
      obtain ⟨hfresh, hstale⟩ := h.cache.lookup key now
      simp only
      cases hfound : (Network.Cache.lookup s.cache key now).1 with
      | fresh reply =>
        obtain ⟨kept, hcame, hurl', haddr'⟩ := hfresh reply hfound
        have hcame : s.Came reply := by
          rw [Came, hurl', haddr']
          exact hcame
        simp only
        split
        · exact hfailed _ hs' _
        · rename_i hmay
          refine hs'.answer (.ok reply) true fun _ other hother => ?_
          cases hother
          exact hreused reply hcame hmay
        · exact hwait _ none hs' fun _ hreply => by (cases hreply)
      | stale reply =>
        refine hwait _ _ hs' fun other hother => ?_
        split_ifs at hother with hmay
        cases hother
        exact hreused reply (hstale reply hfound) hmay
      | miss => exact hwait _ none hs' fun _ hreply => by (cases hreply)

/-- A reply that came is kept as one that came. -/
theorem replied (h : s.Sound parse) (hgoing : s.Going parse sending) {reply : Reply}
    (hcame : s.Came reply) (now : Nat) (clock : SystemTime) :
    (s.replied parseHttpDate i sending reply now clock).Sound parse := by
  have hinvalidated : ∀ url, Holds s.Came (Network.Cache.invalidate s.cache url) := fun url =>
    h.cache.step parseHttpDate (.invalidate url) fun put hput => by (cases hput)
  have hstart : ∀ s' : Net, s' = (if sending.request.method.changes ∧ reply.status < 400 then
      { s with cache := Network.Cache.invalidate s.cache sending.url.text } else s) →
      s'.Sound parse ∧ s'.Going parse sending ∧ s'.Came reply := by
    rintro s' rfl
    split
    · exact ⟨h.recached (hinvalidated _), hgoing.mono (.of_same rfl rfl), hcame⟩
    · exact ⟨h, hgoing, hcame⟩
  rw [Net.replied]
  simp only
  generalize (if sending.request.method.changes ∧ reply.status < 400 then
    { s with cache := Network.Cache.invalidate s.cache sending.url.text } else s) = s' at hstart
  obtain ⟨h, hgoing, hcame⟩ := hstart s' rfl
  have hstored : ∀ key, Sound parse ({ s' with
      cache := Network.Cache.store parseHttpDate s'.cache key reply now clock }.finish i sending
        (.ok reply) false) := by
    intro key
    refine finish (h.recached (h.cache.step parseHttpDate (.store key reply now clock) ?_))
      (.ok reply) false fun hkept => by (cases hkept)
    intro put hput
    cases hput
    exact hcame
  have hanswered : (s'.finish i sending (.ok reply) false).Sound parse :=
    h.finish (.ok reply) false fun hkept => by (cases hkept)
  cases sending.key with
  | none => exact hanswered
  | some key =>
    cases hstale : sending.stale with
    | none =>
      simp only
      split
      · exact hanswered
      · exact hstored key
    | some stale =>
      simp only
      split
      · have hreused := hgoing.stale stale hstale
        have hfresh : s'.Came (Network.Cache.merged stale reply.headers) := by
          obtain ⟨sent, hmem, hurl, haddr, -⟩ := hreused
          intro addr hsome
          have hsame : some sent.addr = some addr := haddr.symm.trans hsome
          exact ⟨sent, hmem, hurl, Option.some.inj hsame⟩
        have hcache := h.cache.step parseHttpDate (.refresh key stale reply.headers now clock)
          fun put hput => by
            cases hput
            exact hfresh
        refine finish (h.recached hcache) _ true fun _ other hother => ?_
        cases hother
        exact hreused
      · split
        · exact hanswered
        · exact hstored key

/-- **Every step keeps every request where its run may go.** -/
theorem step (h : s.Sound parse) {join : Url → Text → Option Url}
    (hparse : ∀ text url, parse text = some url → parse url.text = some url)
    (hjoin : ∀ base location url, join base location = some url → parse url.text = some url)
    (event : Event) : (s.step parse join parseHttpDate event).Sound parse := by
  cases event with
  | ask grants request limited now => exact h.ask hparse grants request limited now
  | start i made =>
    rw [Net.step]
    split
    · rename_i sending hmem
      have hgoing := h.sending sending (List.mem_of_getElem? hmem)
      split_ifs
      · obtain ⟨hgrows, hsound, hkeeps⟩ := h.client sending.grants
        exact moved hgoing hgrows ⟨hkeeps, hgoing.mayAsk, hgoing.parsed, Nat.zero_le _⟩ hsound
      · exact h.failed .failed
      · exact h
    · exact h
  | connect i found choice =>
    rw [Net.step]
    split
    · rename_i sending hmem
      have hgoing := h.sending sending (List.mem_of_getElem? hmem)
      have hplaced := hgoing.placed
      split
      · rename_i client previous url hstage
        rw [hstage] at hplaced
        split
        · rename_i made hmade
          split
          · exact h.failed _
          · rename_i addresses haddresses
            split
            · rename_i addr haddr
              exact h.connect hgoing hplaced hmade haddresses (List.mem_of_getElem? haddr)
            · exact h.failed .failed
        · exact h
      · exact h
    · exact h
  | reuse i connection =>
    rw [Net.step]
    split
    · rename_i sending hmem
      have hgoing := h.sending sending (List.mem_of_getElem? hmem)
      have hplaced := hgoing.placed
      split
      · rename_i client previous url hstage
        rw [hstage] at hplaced
        split
        · rename_i origin addr hconnection
          split_ifs with horigin
          · obtain ⟨made, hmade, hconnection⟩ := Option.bind_eq_some_iff.mp hconnection
            obtain ⟨other, hother, hgo⟩ := h.clients made (List.mem_of_getElem? hmade) _
              (List.mem_of_getElem? hconnection)
            obtain ⟨same, hsame, hdestinations⟩ := hplaced.keeps
            rw [hmade, Option.some.injEq] at hsame
            rw [hsame, hdestinations] at hgo
            exact h.send hgoing hplaced (hgo.of_origin (hother.trans horigin))
          · exact h
        · exact h
      · exact h
    · exact h
  | retry i =>
    rw [Net.step]
    split
    · rename_i sending hmem
      have hgoing := h.sending sending (List.mem_of_getElem? hmem)
      have hplaced := hgoing.placed
      split
      · rename_i client previous url addr hstage
        rw [hstage] at hplaced
        exact moved hgoing (.of_same rfl rfl) hplaced.1 h
      · exact h
    · exact h
  | redirect i location =>
    rw [Net.step]
    split
    · rename_i sending hmem
      have hgoing := h.sending sending (List.mem_of_getElem? hmem)
      have hplaced := hgoing.placed
      split
      · rename_i client previous url addr hstage
        rw [hstage] at hplaced
        split
        · rename_i made next hmade hnext
          split
          · rename_i hfollows
            obtain ⟨hfew, same, hsame, hmayAsk⟩ := Client.follows_ok hfollows
            have hnext := hjoin url location next hnext
            rw [hsame, Option.some.injEq] at hnext
            subst hnext
            obtain ⟨kept, hkept, hdestinations⟩ := hplaced.1.keeps
            rw [hmade, Option.some.injEq] at hkept
            rw [hkept, hdestinations] at hmayAsk
            exact moved hgoing (.of_same rfl rfl) ⟨hplaced.1.keeps, hmayAsk, hsame, hfew⟩ h
          · exact h.failed _
        · exact h
      · exact h
    · exact h
  | reply i status headers body known now clock =>
    rw [Net.step]
    split
    · rename_i sending hmem
      have hgoing := h.sending sending (List.mem_of_getElem? hmem)
      have hplaced := hgoing.placed
      split
      · rename_i client previous url addr hstage
        rw [hstage] at hplaced
        obtain ⟨-, sent, hsent, rfl, rfl⟩ := hplaced
        split
        · exact h.failed _
        · refine h.replied hgoing (fun addr haddr => ?_) now clock
          split_ifs at haddr
          exact ⟨sent, hsent, rfl, Option.some.inj haddr⟩
      · exact h
    · exact h
  | fail i =>
    rw [Net.step]
    split
    · exact h.failed .failed
    · exact h

end

end Sound

section
variable [Clock]

/-- **A request reaches only where it may.** Whatever runs ask, names lead to and services answer,
each request is sent to an http(s) URL whose host its run's destinations allow, at an address never
Never and private only if they name the host, and follows at most so many redirects; and a kept reply
is reused only where the run could itself have gone for it. -/
theorem reaches_only_allowed (parse : Text → Option Url) (join : Url → Text → Option Url)
    (parseHttpDate : Text → Option SystemTime)
    (hparse : ∀ text url, parse text = some url → parse url.text = some url)
    (hjoin : ∀ base location url, join base location = some url → parse url.text = some url)
    (events : List Event) :
    (∀ sent ∈ (run parse join parseHttpDate events).sent,
      MayGo sent.destinations sent.url sent.addr ∧ sent.redirects ≤ MAX_REDIRECTS) ∧
    ∀ answered ∈ (run parse join parseHttpDate events).answered, answered.kept →
      ∀ reply, answered.answer = .ok reply → ∃ sent ∈ (run parse join parseHttpDate events).sent,
        reply.url = sent.url.text ∧ reply.addr = some sent.addr ∧
          MayGo answered.grants.destinations sent.url sent.addr := by
  have hsound : (run parse join parseHttpDate events).Sound parse := by
    induction events using List.reverseRecOn with
    | nil => exact Sound.new
    | append_singleton events event ih =>
      rw [run, List.foldl_append, List.foldl_cons, List.foldl_nil]
      exact ih.step hparse hjoin event
  refine ⟨fun sent hmem => ?_, hsound.answered⟩
  obtain ⟨hgo, hfew, -⟩ := hsound.sent sent hmem
  exact ⟨hgo, hfew⟩

end

/-! ### Two services -/

/-- A parser of two URLs. -/
def twoUrls (text : Text) : Option Url :=
  [⟨http, some "nas".toList, none, "http://nas/a".toList⟩,
    ⟨http, some "nas".toList, none, "http://nas/b".toList⟩].find? fun url : Url => url.text = text

theorem twoUrls_text (text : Text) (url : Url) (h : twoUrls text = some url) :
    twoUrls url.text = some url := by
  have htext : url.text = text := by simpa using List.find?_some h
  rw [htext]
  exact h

/-- A run that names a service on the LAN is redirected there and answered again from the cache, and
one that reaches it through `*` is not. -/
def namedAndNot : List (@Event Network.seconds) :=
  letI : Clock := Network.seconds
  let named : Grants := ⟨"p", 1, none, [.network], ["nas".toList]⟩
  let request : Request := ⟨.get, "http://nas/a".toList, [], []⟩
  [.ask named request false 0, .start 0 true,
    .connect 0 [.v4 (ipv4 127 0 0 1), .v4 (ipv4 10 0 0 5)] 0, .redirect 0 "http://nas/b".toList,
    .reuse 0 0, .reply 0 200 [("cache-control".toList, "max-age=60".toList)] [] true 1
      Network.Cache.epoch,
    .ask named request false 2, .ask { named with destinations := [['*']] } request false 3,
    .start 0 true, .connect 0 [.v4 (ipv4 10 0 0 5)] 0]

theorem reaches_only_named :
    let s := @run Network.seconds twoUrls (fun _ => twoUrls) (fun _ => none) namedAndNot
    (s.sent.map fun sent => (sent.addr, sent.redirects)) =
        [(.v4 (ipv4 10 0 0 5), 0), (.v4 (ipv4 10 0 0 5), 1)] ∧
      s.answered.map Answered.kept = [false, true, false] ∧
      (∀ sent ∈ s.sent, MayGo sent.destinations sent.url sent.addr ∧
        sent.redirects ≤ MAX_REDIRECTS) ∧
      ∀ answered ∈ s.answered, answered.kept → ∀ reply, answered.answer = .ok reply →
        ∃ sent ∈ s.sent, reply.url = sent.url.text ∧ reply.addr = some sent.addr ∧
          MayGo answered.grants.destinations sent.url sent.addr :=
  ⟨by decide +kernel, by decide +kernel,
    @reaches_only_allowed Network.seconds twoUrls (fun _ => twoUrls) (fun _ => none) twoUrls_text
      (fun _ location url => twoUrls_text location url) namedAndNot⟩

end Net

end JewelCase.Http
