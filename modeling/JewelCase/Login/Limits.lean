import JewelCase.Http.Rules

/-!
# Sign-in limits

`crates/server/src/api/login/limits.rs`. Past a few failures, each further attempt waits twice as
long as the one before, up to a cap, per account and per origin. The rows of `login_attempts` are a
list, newest first, and times are milliseconds since the Unix epoch.
-/
namespace JewelCase.Login

open JewelCase.Network.Cache (Text IpAddr)
open JewelCase.Http (toCanonical)

set_option autoImplicit false

/-- Failures further back than this do not count. -/
def WINDOW_MS : Int := 60 * 60 * 1000

/-- The longest any wait gets. -/
def MAX_WAIT_MS : Int := 15 * 60 * 1000

/-- Failures before an account starts waiting. -/
def ACCOUNT_FREE : Nat := 5

/-- Failures before an origin starts waiting. -/
def ORIGIN_FREE : Nat := 20

/-- A row of `login_attempts`. -/
structure Attempt where
  id : Nat
  attemptedAt : Int
  username : Text
  user : Option Int
  origin : IpAddr
  succeeded : Bool
deriving DecidableEq, Repr

/-- The account a name names. -/
structure Account where
  id : Int
  active : Bool
deriving DecidableEq, Repr

/-- `COLLATE NOCASE` -/
def SameName (a b : Text) : Prop := a.map Char.toLower = b.map Char.toLower

instance (a b : Text) : Decidable (SameName a b) := inferInstanceAs (Decidable (_ = _))

/-- What an origin's attempts are counted and stored under: an IPv4 address as itself, an
IPv4-mapped IPv6 address as that IPv4 address, and any other IPv6 address as the first of its /64. -/
def originKey (origin : IpAddr) : IpAddr :=
  match toCanonical origin with
  | .v4 ip => .v4 ip
  | .v6 ip => .v6 (ip >>> 64 <<< 64)

/-- SQL's `max` -/
def latestOf : List Int → Option Int
  | [] => none
  | time :: times => some ((latestOf times).elim time fun latest => max time latest)

/-- `count(*), max(attempted_at)` -/
def failures (rows : List Attempt) : Nat × Option Int :=
  (rows.length, latestOf (rows.map (·.attemptedAt)))

/-- The latest success under a name since a time. -/
def lastSuccess (attempts : List Attempt) (username : Text) (since : Int) : Option Int :=
  latestOf ((attempts.filter fun a =>
    SameName a.username username ∧ a.succeeded ∧ since < a.attemptedAt).map (·.attemptedAt))

/-- The failures an account's limit counts: those after its last success, from one origin only
where there is one. -/
def accountFailures (attempts : List Attempt) (username : Text) (onlyFrom : Option IpAddr)
    (since : Int) : Nat × Option Int :=
  failures (attempts.filter fun a =>
    SameName a.username username ∧ ¬ a.succeeded ∧ (∀ origin ∈ onlyFrom, a.origin = origin) ∧
      (lastSuccess attempts username since).getD since < a.attemptedAt)

/-- The failures an origin's limit counts. -/
def originFailures (attempts : List Attempt) (origin : IpAddr) (since : Int) : Nat × Option Int :=
  failures (attempts.filter fun a => a.origin = origin ∧ ¬ a.succeeded ∧ since < a.attemptedAt)

/-- How often a wait has doubled after `failures`. -/
def doublings (failures free : Nat) : Nat := min (failures - free) 20

/-- The wait after `failures`, the latest at `latest`: none for the first `free`, then 1 s,
doubling with each failure up to `MAX_WAIT_MS`. -/
def wait (failures : Nat × Option Int) (free : Nat) (now : Int) : Int :=
  match failures.2.filter fun _ => free ≤ failures.1 with
  | none => 0
  | some latest =>
    let wait := min ((1000 <<< doublings failures.1 free : Nat) : Int) MAX_WAIT_MS
    max (latest + wait - now) 0

/-- Whether the active account has a kept successful sign-in from `origin`. -/
def signedInFrom (attempts : List Attempt) (account : Option Account) (origin : IpAddr) : Bool :=
  attempts.any fun a =>
    a.origin = origin ∧ a.succeeded ∧ ∃ named ∈ account, named.active ∧ a.user = some named.id

/-- The origin whose failures alone an account's limit counts. -/
def onlyFrom (attempts : List Attempt) (account : Option Account) (origin : IpAddr) :
    Option IpAddr :=
  if signedInFrom attempts account (originKey origin) then some (originKey origin) else none

/-- The account's part of the wait. -/
def accountWait (attempts : List Attempt) (username : Text) (account : Option Account)
    (origin : IpAddr) (now : Int) : Int :=
  wait (accountFailures attempts username (onlyFrom attempts account origin) (now - WINDOW_MS))
    ACCOUNT_FREE now

/-- The origin's part of the wait. -/
def originWait (attempts : List Attempt) (origin : IpAddr) (now : Int) : Int :=
  wait (originFailures attempts (originKey origin) (now - WINDOW_MS)) ORIGIN_FREE now

/-- Milliseconds until `username` may try again from `origin`, or 0 if it may now. `account` is the
account the name names. -/
def waitMs (attempts : List Attempt) (username : Text) (account : Option Account)
    (origin : IpAddr) (now : Int) : Int :=
  max (accountWait attempts username account origin now) (originWait attempts origin now)

/-- The ID of the next row. -/
def nextId (attempts : List Attempt) : Nat := (attempts.map (·.id)).foldr max 0 + 1

/-- Records an attempt as failed until it proves otherwise, and answers its ID too. -/
def record (attempts : List Attempt) (username : Text) (user : Option Int) (origin : IpAddr)
    (now : Int) : Nat × List Attempt :=
  let id := nextId attempts
  (id, ⟨id, now, username, user, originKey origin, false⟩ :: attempts)

/-- Marks an attempt as one that succeeded. -/
def succeeded (attempts : List Attempt) (attempt : Nat) : List Attempt :=
  attempts.map fun a => if a.id = attempt then { a with succeeded := true } else a

/-! ### In 64 bits -/

/-- `i64::MAX` -/
def I64_MAX : Int := 9223372036854775807

/-- A number an `i64` holds. -/
def Fits (n : Int) : Prop := -I64_MAX - 1 ≤ n ∧ n ≤ I64_MAX

instance (n : Int) : Decidable (Fits n) := inferInstanceAs (Decidable (_ ∧ _))

/-- The sums `wait` makes on its way, where it makes them. -/
def waitSums (failures : Nat × Option Int) (free : Nat) (now : Int) : List Int :=
  match failures.2.filter fun _ => free ≤ failures.1 with
  | none => []
  | some latest =>
    let wait := min ((1000 <<< doublings failures.1 free : Nat) : Int) MAX_WAIT_MS
    [latest + wait, latest + wait - now]

/-- The sums `waitMs` makes on its way. -/
def waitMsSums (attempts : List Attempt) (username : Text) (account : Option Account)
    (origin : IpAddr) (now : Int) : List Int :=
  let since := now - WINDOW_MS
  since :: waitSums (accountFailures attempts username (onlyFrom attempts account origin) since)
      ACCOUNT_FREE now ++
    waitSums (originFailures attempts (originKey origin) since) ORIGIN_FREE now

/-! ### Signing in -/

/-- `check_username` -/
def checkUsername (username : Text) : Prop :=
  1 ≤ username.length ∧ username.length ≤ 32 ∧
    ∀ c ∈ username, c.isAlphanum ∨ c = '_' ∨ c = '-'

instance (username : Text) : Decidable (checkUsername username) :=
  @instDecidableAnd _ _ inferInstance (@instDecidableAnd _ _ inferInstance
    (List.decidableBAll (fun c => c.isAlphanum ∨ c = '_' ∨ c = '-') username))

inductive Outcome where
  | pending
  | failed
  | succeeded
deriving DecidableEq, Repr

/-- A password check: the record of its attempt, what it was made for, whether the account had a
kept success at the origin, and how it came out. -/
structure Check where
  attempt : Nat
  checkedAt : Int
  username : Text
  account : Option Account
  origin : IpAddr
  known : Bool
  outcome : Outcome
deriving DecidableEq, Repr

/-- What `login` answers before it checks the password. -/
inductive Answer where
  | invalid
  | rateLimited (waitMs : Int)
  | checking (attempt : Nat)
deriving DecidableEq, Repr

/-- The table of attempts, every check made, newest first, and the time. -/
structure Server where
  attempts : List Attempt
  checks : List Check
  now : Int
deriving DecidableEq, Repr

namespace Server

/-- The writer job of `login`: the limits, then the record. A refusal is not recorded. -/
def login (s : Server) (username : Text) (account : Option Account) (origin : IpAddr) :
    Answer × Server :=
  if ¬ checkUsername username then (.invalid, s)
  else
    let wait := waitMs s.attempts username account origin s.now
    if 0 < wait then (.rateLimited wait, s)
    else
      let (id, attempts) := record s.attempts username (account.map (·.id)) origin s.now
      let known := signedInFrom s.attempts account (originKey origin)
      (.checking id, { s with
        attempts
        checks := ⟨id, s.now, username, account, originKey origin, known, .pending⟩ :: s.checks })

/-- Whether a check is under way for an attempt. -/
def Pending (s : Server) (attempt : Nat) : Prop :=
  ∃ c ∈ s.checks, c.attempt = attempt ∧ c.outcome = .pending

instance (s : Server) (attempt : Nat) : Decidable (s.Pending attempt) :=
  inferInstanceAs (Decidable (∃ c ∈ s.checks, _))

/-- Whether a check signs in, if the password is right. -/
def maySignIn (s : Server) (attempt : Nat) : Prop :=
  ∃ c ∈ s.checks, c.attempt = attempt ∧ c.outcome = .pending ∧ ∃ named ∈ c.account, named.active

instance (s : Server) (attempt : Nat) : Decidable (s.maySignIn attempt) :=
  inferInstanceAs (Decidable (∃ c ∈ s.checks, _))

/-- The end of the check under way for an attempt. `right` says that the password matches, and that
the writer job that signs in then is committed. -/
def verified (s : Server) (attempt : Nat) (right : Bool) : Server :=
  let success := right ∧ s.maySignIn attempt
  { s with
    attempts := if success then succeeded s.attempts attempt else s.attempts
    checks := s.checks.map fun c =>
      if c.attempt = attempt ∧ c.outcome = .pending then
        { c with outcome := if success then .succeeded else .failed }
      else c }

/-- Setup signs the owner in from where it is done, with a record and no check. -/
def setup (s : Server) (username : Text) (user : Int) (origin : IpAddr) : Server :=
  let (id, attempts) := record s.attempts username (some user) origin s.now
  { s with
    attempts := succeeded attempts id
    checks := ⟨id, s.now, username, some ⟨user, true⟩, originKey origin, false, .succeeded⟩ ::
      s.checks }

/-- How long a row is kept: 30 days. -/
def RETENTION_MS : Int := 30 * 24 * 60 * 60 * 1000

/-- The sweep of some old rows. No check is under way for as long as a row is kept. -/
def sweep (s : Server) (ids : List Nat) : Server :=
  { s with attempts := s.attempts.filter fun a =>
      ¬ (a.id ∈ ids ∧ a.attemptedAt < s.now - RETENTION_MS ∧ ¬ s.Pending a.id) }

/-- A user's row is deleted. -/
def forget (s : Server) (user : Int) : Server :=
  { s with attempts := s.attempts.map fun a =>
      if a.user = some user then { a with user := none } else a }

end Server

/-- What happens to the table of attempts, each some time after the last. The accounts may change
in between. -/
inductive Event where
  | login (elapsed : Nat) (username : Text) (account : Option Account) (origin : IpAddr)
  | verified (elapsed : Nat) (attempt : Nat) (right : Bool)
  | setup (elapsed : Nat) (username : Text) (user : Int) (origin : IpAddr)
  | sweep (elapsed : Nat) (ids : List Nat)
  | forget (user : Int)
deriving DecidableEq, Repr

namespace Server

def after (s : Server) (elapsed : Nat) : Server := { s with now := s.now + elapsed }

def step (s : Server) : Event → Server
  | .login elapsed username account origin => ((s.after elapsed).login username account origin).2
  | .verified elapsed attempt right => (s.after elapsed).verified attempt right
  | .setup elapsed username user origin => (s.after elapsed).setup username user origin
  | .sweep elapsed ids => (s.after elapsed).sweep ids
  | .forget user => s.forget user

/-- The server after some events, from the time it was first started. -/
def run (start : Nat) (events : List Event) : Server := events.foldl step ⟨[], [], start⟩

end Server

end JewelCase.Login
