import JewelCase.Library.OrderedMap
import JewelCase.Library.Recency
import JewelCase.Network.Replies

/-!
# The replies kept

`crates/plugins/src/network/cache.rs`, `Cache`: the replies kept by key, with an index of when each
was last used, so that the least recently used goes first.
-/
namespace JewelCase.Network.Cache

open JewelCase.Library

set_option autoImplicit false

/-- All replies kept together. The least recently used goes first. -/
def MAX_SIZE : Nat := 32 * 2 ^ 20

/-- One kept reply, with when it was stored, until when it is fresh, and the bytes it takes. -/
structure Kept where
  reply : Reply
  stored : Nat
  freshUntil : Nat
  size : Nat
deriving DecidableEq, Repr

/-- And when it was last used. -/
structure Entry extends Kept where
  used : Nat
deriving DecidableEq, Repr

/-- The replies kept, and when each was last used. -/
structure Inner where
  entries : AList fun _ : Key => Entry
  /-- Each entry by when it was last used, oldest first. -/
  used : OrderedMap Nat Key
  tick : Nat
  size : Nat

def Inner.empty : Inner := ⟨∅, .empty, 0, 0⟩

/-- Forgets what is kept for `key`, if anything. -/
def Inner.remove (inner : Inner) (key : Key) : Inner :=
  match inner.entries.lookup key with
  | none => inner
  | some entry =>
    { inner with
      entries := inner.entries.erase key
      used := inner.used.erase entry.used
      size := inner.size - entry.size }

/-- Marks what is kept for `key` as the most recently used. -/
def Inner.touch (inner : Inner) (key : Key) : Inner :=
  let tick := inner.tick + 1
  match inner.entries.lookup key with
  | none => { inner with tick := tick }
  | some entry =>
    { inner with
      entries := inner.entries.insert key { entry with used := tick }
      used := (inner.used.erase entry.used).insert tick key
      tick := tick }

/-- Keeps a reply for a key nothing is kept for. -/
def Inner.put (inner : Inner) (key : Key) (kept : Kept) : Inner :=
  let tick := inner.tick + 1
  { entries := inner.entries.insert key { kept with used := tick }
    used := inner.used.insert tick key
    tick := tick
    size := inner.size + kept.size }

/-- While they take too much, forgets the least recently used, at most `n` times. -/
def Inner.evict : Nat → Inner → Inner
  | 0, inner => inner
  | n + 1, inner =>
    if MAX_SIZE < inner.size then
      match inner.used.popFirst with
      | none => inner
      | some (oldest, used) =>
        match inner.entries.lookup oldest.2 with
        | none => Inner.evict n { inner with used := used }
        | some entry =>
          Inner.evict n
            { inner with
              entries := inner.entries.erase oldest.2
              used := used
              size := inner.size - entry.size }
    else inner

/-! ### Calls -/

/-- What the cache holds for a request. -/
inductive Lookup where
  | fresh (reply : Reply)
  | stale (reply : Reply)
  | miss
deriving DecidableEq, Repr

variable [Clock]

/-- What is kept for `key` at `now`. A stale reply with nothing to check it by is forgotten. -/
def lookup (inner : Inner) (key : Key) (now : Nat) : Lookup × Inner :=
  match inner.entries.lookup key with
  | none => (.miss, inner)
  | some entry =>
    let fresh := decide (now < entry.freshUntil)
    if fresh = false ∧ conditions entry.reply = [] then (.miss, inner.remove key)
    else
      (if fresh then .fresh (entry.reply.aged (now - entry.stored)) else .stale entry.reply,
        inner.touch key)

variable (parseHttpDate : Text → Option SystemTime)

/-- Keeps `reply` for `key` if it says it may be kept. -/
def store (inner : Inner) (key : Key) (reply : Reply) (now : Nat) (clock : SystemTime) : Inner :=
  let inner := inner.remove key
  match lifetime parseHttpDate reply clock with
  | none => inner
  | some lifetime =>
    -- The key is held twice: by the entry, and by the index of when each was last used.
    let inner := inner.put key ⟨reply, now, now + lifetime, 2 * key.size + reply.size⟩
    inner.evict inner.used.entries.length

/-- A stale reply with the headers a `304` updated. -/
def merged (stale : Reply) (updated : List Header) : Reply :=
  let headers := stale.headers.filter fun header =>
    header.1 ≠ "age".toList ∧ ∀ other ∈ updated, other.1 ≠ header.1
  { stale with headers :=
      headers ++ updated.filter fun header => header.1 ≠ "content-length".toList }

/-- A service answered a check of `stale` with `304 Not Modified`. -/
def refresh (inner : Inner) (key : Key) (stale : Reply) (updated : List Header) (now : Nat)
    (clock : SystemTime) : Reply × Inner :=
  let reply := merged stale updated
  (reply.aged 0, store parseHttpDate inner key reply now clock)

/-- Forgets every reply kept for a URL. -/
def invalidate (inner : Inner) (url : Text) : Inner :=
  (inner.entries.keys.filter fun key => key.url = url).foldl Inner.remove inner

inductive Call where
  | lookup (key : Key) (now : Nat)
  | store (key : Key) (reply : Reply) (now : Nat) (clock : SystemTime)
  | refresh (key : Key) (stale : Reply) (updated : List Header) (now : Nat) (clock : SystemTime)
  | invalidate (url : Text)

def step (inner : Inner) : Call → Inner
  | .lookup key now => (lookup inner key now).2
  | .store key reply now clock => store parseHttpDate inner key reply now clock
  | .refresh key stale updated now clock =>
    (refresh parseHttpDate inner key stale updated now clock).2
  | .invalidate url => invalidate inner url

/-- What is kept after calls from the start. -/
def after (calls : List Call) : Inner := calls.foldl (step parseHttpDate) .empty

end JewelCase.Network.Cache

/-!
## The replies kept, by when they were last used

What the index and the map keep together is a list of replies, the most recently used first. Each
call changes the list as its purpose says, and the index and the map follow.
-/
namespace JewelCase.Network.Cache

open JewelCase.Library

set_option autoImplicit false

/-- The replies kept, the most recently used first. -/
abbrev Recent := Recency Key Kept

section
variable [Clock] (parseHttpDate : Text → Option SystemTime)

/-- What is found of a request. -/
def Recent.found (recent : Recent) (key : Key) (now : Nat) : Lookup :=
  match recent.lookup key with
  | none => .miss
  | some kept =>
    if now < kept.freshUntil then .fresh (kept.reply.aged (now - kept.stored))
    else if conditions kept.reply = [] then .miss
    else .stale kept.reply

/-- A lookup uses what it finds, and forgets what is stale with nothing to check it by. -/
def Recent.looked (recent : Recent) (key : Key) (now : Nat) : Recent :=
  if recent.found key now = .miss then recent.erase key else Recency.use recent key

/-- A reply kept is the most recently used; the least recently used go until all fit. -/
def Recent.stored (recent : Recent) (key : Key) (reply : Reply) (now : Nat) (clock : SystemTime) :
    Recent :=
  match lifetime parseHttpDate reply clock with
  | none => recent.erase key
  | some lifetime =>
    Recency.fit Kept.size MAX_SIZE
      (recent.insert key ⟨reply, now, now + lifetime, 2 * key.size + reply.size⟩)

def Recent.invalidated (recent : Recent) (url : Text) : Recent :=
  Recency.keep (fun key => decide (key.url ≠ url)) recent

def Recent.step (recent : Recent) : Call → Recent
  | .lookup key now => recent.looked key now
  | .store key reply now clock => recent.stored parseHttpDate key reply now clock
  | .refresh key stale updated now clock =>
    recent.stored parseHttpDate key (merged stale updated) now clock
  | .invalidate url => recent.invalidated url

/-- The replies kept after calls from the start. -/
def recentAfter (calls : List Call) : Recent := calls.foldl (Recent.step parseHttpDate) ∅

end

/-! ### Following -/

/-- The index names each entry once, in the order they were used, and the size is theirs. -/
structure Follows (inner : Inner) (recent : Recent) : Prop where
  order : inner.used.entries.map Prod.snd = recent.keys.reverse
  kept : ∀ key, (inner.entries.lookup key).map Entry.toKept = recent.lookup key
  ticked : ∀ pair ∈ inner.used.entries, ∃ entry, inner.entries.lookup pair.2 = some entry ∧
    entry.used = pair.1
  last : ∀ pair ∈ inner.used.entries, pair.1 ≤ inner.tick
  size : inner.size = Recency.total Kept.size recent.entries

theorem follows_empty : Follows .empty ∅ := by
  constructor
  · rfl
  · intro key
    rfl
  · intro pair h
    cases h
  · intro pair h
    cases h
  · rfl

variable {inner : Inner} {recent : Recent} {key : Key} {entry : Entry}

theorem Follows.lookup_none (h : Follows inner recent) :
    inner.entries.lookup key = none ↔ recent.lookup key = none := by
  rw [← h.kept key, Option.map_eq_none_iff]

theorem Follows.lookup_some (h : Follows inner recent)
    (hentry : inner.entries.lookup key = some entry) : recent.lookup key = some entry.toKept := by
  rw [← h.kept key, hentry, Option.map_some]

/-- The index has the entry of a key by when it was used. -/
theorem Follows.mem_used (h : Follows inner recent)
    (hentry : inner.entries.lookup key = some entry) :
    (entry.used, key) ∈ inner.used.entries := by
  have hkey : key ∈ recent.keys := by
    rw [← AList.mem_keys, ← AList.lookup_isSome, h.lookup_some hentry]
    rfl
  have hmem : key ∈ inner.used.entries.map Prod.snd := by
    rw [h.order, List.mem_reverse]
    exact hkey
  obtain ⟨pair, hpair, rfl⟩ := List.mem_map.mp hmem
  obtain ⟨other, hother, hused⟩ := h.ticked pair hpair
  obtain rfl := Option.some.inj (hentry.symm.trans hother)
  rw [hused]
  exact hpair

/-- A pair of the index is of an entry exactly when it has its time. -/
theorem Follows.used_eq (h : Follows inner recent)
    (hentry : inner.entries.lookup key = some entry) {pair : Nat × Key}
    (hpair : pair ∈ inner.used.entries) : pair.1 = entry.used ↔ pair.2 = key := by
  constructor
  · intro he
    have hmem := h.mem_used hentry
    rw [← he] at hmem
    exact OrderedMap.value_unique hpair hmem
  · intro hk
    obtain ⟨other, hother, hused⟩ := h.ticked pair hpair
    rw [hk, hentry] at hother
    obtain rfl := Option.some.inj hother
    exact hused.symm

theorem keys_erase_filter (recent : Recent) (key : Key) :
    (recent.erase key).keys = recent.keys.filter fun other => other ≠ key := by
  rw [AList.keys_erase, recent.keys_nodup.erase_eq_filter]
  apply List.filter_congr
  intro other _
  by_cases ho : other = key <;> simp [ho]

theorem Follows.erase_order (h : Follows inner recent)
    (hentry : inner.entries.lookup key = some entry) :
    (inner.used.erase entry.used).entries.map Prod.snd = (recent.erase key).keys.reverse := by
  have hfilter : (inner.used.erase entry.used).entries =
      inner.used.entries.filter fun pair => decide (pair.2 ≠ key) := by
    apply List.filter_congr
    intro pair hpair
    exact decide_eq_decide.mpr (not_congr (h.used_eq hentry hpair))
  rw [hfilter, keys_erase_filter, ← List.filter_reverse, ← h.order, List.filter_map]
  rfl

/-- **Forgetting one reply.** -/
theorem follows_remove (h : Follows inner recent) (key : Key) :
    Follows (inner.remove key) (recent.erase key) := by
  rw [Inner.remove]
  cases hentry : inner.entries.lookup key with
  | none =>
    rw [Recency.erase_absent (h.lookup_none.mp hentry)]
    exact h
  | some entry =>
    constructor
    · exact h.erase_order hentry
    · intro other
      by_cases ho : other = key
      · rw [ho, AList.lookup_erase, AList.lookup_erase]
        rfl
      · rw [AList.lookup_erase_ne ho, AList.lookup_erase_ne ho]
        exact h.kept other
    · intro pair hp
      obtain ⟨hpair, hne⟩ := List.mem_filter.mp hp
      obtain ⟨other, hother, hused⟩ := h.ticked pair hpair
      refine ⟨other, ?_, hused⟩
      have hkey : pair.2 ≠ key := by
        intro hk
        exact of_decide_eq_true hne ((h.used_eq hentry hpair).mpr hk)
      rw [AList.lookup_erase_ne hkey]
      exact hother
    · intro pair hp
      exact h.last pair (List.mem_filter.mp hp).1
    · have htotal := @Recency.total_erase _ _ Kept.size _ _ _ _ (h.lookup_some hentry)
      have hsize := h.size
      simp only
      omega

/-- **Keeping one reply more.** -/
theorem follows_put (h : Follows inner recent) (hnone : recent.lookup key = none) (kept : Kept) :
    Follows (inner.put key kept) (recent.insert key kept) := by
  have hlast : ∀ pair ∈ inner.used.entries, pair.1 < inner.tick + 1 :=
    fun pair hp => Nat.lt_succ_of_le (h.last pair hp)
  have hused : (inner.put key kept).used.entries = inner.used.entries ++ [(inner.tick + 1, key)] :=
    OrderedMap.entries_insert_last key hlast
  have hkeys : (recent.insert key kept).keys = key :: recent.keys := by
    rw [AList.keys_insert, List.erase_of_not_mem]
    exact AList.lookup_eq_none.mp hnone
  constructor
  · rw [hused, hkeys, List.map_append, h.order, List.reverse_cons]
    rfl
  · intro other
    rw [Inner.put]
    by_cases ho : other = key
    · rw [ho, AList.lookup_insert, AList.lookup_insert]
      rfl
    · rw [AList.lookup_insert_ne ho, AList.lookup_insert_ne ho]
      exact h.kept other
  · intro pair hp
    rw [hused] at hp
    obtain hp | hp := List.mem_append.mp hp
    · obtain ⟨other, hother, ho⟩ := h.ticked pair hp
      refine ⟨other, ?_, ho⟩
      have hne : pair.2 ≠ key := by
        intro hk
        rw [hk, h.lookup_none.mpr hnone] at hother
        cases hother
      rw [Inner.put, AList.lookup_insert_ne hne]
      exact hother
    · rw [List.mem_singleton] at hp
      rw [hp]
      exact ⟨_, AList.lookup_insert _, rfl⟩
  · intro pair hp
    rw [hused] at hp
    obtain hp | hp := List.mem_append.mp hp
    · exact Nat.le_of_lt (hlast pair hp)
    · rw [List.mem_singleton] at hp
      rw [hp]
      exact Nat.le_refl _
  · rw [Recency.total_insert, Recency.erase_absent hnone, ← h.size]
    exact Nat.add_comm _ _

/-- Marking an entry as used is forgetting it and keeping it again. -/
theorem touch_eq (h : Follows inner recent) (hentry : inner.entries.lookup key = some entry) :
    inner.touch key = (inner.remove key).put key entry.toKept := by
  have htotal := @Recency.total_erase _ _ Kept.size _ _ _ _ (h.lookup_some hentry)
  have hsize : entry.size ≤ inner.size := by
    rw [h.size]
    omega
  rw [Inner.touch, Inner.remove, hentry]
  simp only [Inner.put]
  congr 1
  · exact (Recency.insert_erase inner.entries key _).symm
  · omega

theorem follows_touch (h : Follows inner recent) (key : Key) :
    Follows (inner.touch key) (Recency.use recent key) := by
  cases hentry : inner.entries.lookup key with
  | none =>
    have hnone := h.lookup_none.mp hentry
    rw [Recency.use, hnone, Inner.touch, hentry]
    exact ⟨h.order, h.kept, h.ticked, fun pair hp => Nat.le_succ_of_le (h.last pair hp), h.size⟩
  | some entry =>
    rw [touch_eq h hentry, Recency.use, h.lookup_some hentry]
    have hput := follows_put (follows_remove h key) (AList.lookup_erase key recent) entry.toKept
    rw [Recency.insert_erase] at hput
    exact hput

theorem Follows.keys_nil (h : Follows inner recent) (hnil : inner.used.entries = []) :
    recent.entries = [] := by
  have horder := h.order
  rw [hnil, List.map_nil] at horder
  have hkeys : recent.keys = [] := List.reverse_eq_nil_iff.mp horder.symm
  exact List.map_eq_nil_iff.mp hkeys

/-- The oldest of the index is the last. -/
theorem Follows.oldest (h : Follows inner recent) {oldest : Nat × Key} {rest : List (Nat × Key)}
    (hused : inner.used.entries = oldest :: rest) :
    ∃ before kept, recent.entries = before ++ [⟨oldest.2, kept⟩] := by
  have horder := h.order
  rw [hused, List.map_cons] at horder
  have hkeys : recent.keys = (rest.map Prod.snd).reverse ++ [oldest.2] := by
    rw [← List.reverse_reverse recent.keys, ← horder, List.reverse_cons]
  obtain hnil | ⟨before, last, hlast⟩ := recent.entries.eq_nil_or_concat
  · rw [AList.keys, hnil] at hkeys
    exact absurd (congrArg List.length hkeys) (by simp)
  · refine ⟨before, last.2, ?_⟩
    rw [List.concat_eq_append] at hlast
    rw [AList.keys, hlast, List.keys_append] at hkeys
    have hlastKey := List.append_inj_right' hkeys rfl
    have hkey : last.1 = oldest.2 := by simpa using hlastKey
    rw [hlast, ← hkey]

/-- **The least recently used go until what is left fits.** -/
theorem follows_evict (n : Nat) (h : Follows inner recent)
    (hn : inner.used.entries.length ≤ n) :
    Follows (inner.evict n) (Recency.fit Kept.size MAX_SIZE recent) := by
  induction n generalizing inner recent with
  | zero =>
    have hnil := h.keys_nil (List.length_eq_zero_iff.mp (Nat.le_zero.mp hn))
    rw [Inner.evict, Recency.fit_of_le]
    · exact h
    · rw [hnil]
      exact Nat.zero_le _
  | succ n ih =>
    rw [Inner.evict]
    by_cases hlt : MAX_SIZE < inner.size
    · rw [if_pos hlt]
      rw [h.size] at hlt
      cases hpop : inner.used.popFirst with
      | none =>
        rw [h.keys_nil (OrderedMap.popFirst_none hpop)] at hlt
        exact absurd hlt (Nat.not_lt_zero _)
      | some popped =>
        obtain ⟨oldest, used⟩ := popped
        obtain ⟨hused, hrest⟩ := OrderedMap.popFirst_some hpop
        obtain ⟨entry, hentry, htick⟩ := h.ticked oldest (hused ▸ List.mem_cons_self)
        obtain ⟨before, kept, hentries⟩ := h.oldest hused
        have hremove : inner.remove oldest.2 = { inner with
            entries := inner.entries.erase oldest.2
            used := used
            size := inner.size - entry.size } := by
          rw [Inner.remove, hentry, hrest, ← htick]
        simp only [hentry]
        rw [← hremove, Recency.fit_erase hentries hlt]
        apply ih (follows_remove h oldest.2)
        rw [hremove]
        rw [hused, List.length_cons] at hn
        exact Nat.le_of_succ_le_succ hn
    · rw [if_neg hlt, Recency.fit_of_le]
      · exact h
      · rw [← h.size]
        exact Nat.le_of_not_lt hlt

theorem follows_removed (h : Follows inner recent) (keys : List Key) :
    Follows (keys.foldl Inner.remove inner)
      (keys.foldl (fun recent key => recent.erase key) recent) := by
  induction keys generalizing inner recent with
  | nil => exact h
  | cons key keys ih => exact ih (follows_remove h key)

theorem Follows.mem_keys (h : Follows inner recent) :
    key ∈ inner.entries.keys ↔ key ∈ recent.keys := by
  rw [← AList.mem_keys, ← AList.mem_keys, ← not_iff_not, ← AList.lookup_eq_none,
    ← AList.lookup_eq_none]
  exact h.lookup_none

theorem follows_invalidate (h : Follows inner recent) (url : Text) :
    Follows (invalidate inner url) (recent.invalidated url) := by
  have hremoved := follows_removed h (inner.entries.keys.filter fun key => key.url = url)
  rw [Recency.foldl_erase] at hremoved
  rw [Recent.invalidated, ← Recency.keep_congr]
  · exact hremoved
  · intro key hk
    simp [h.mem_keys.mpr hk]

section
variable [Clock] {parseHttpDate : Text → Option SystemTime}

theorem lookup_found (h : Follows inner recent) (key : Key) (now : Nat) :
    (lookup inner key now).1 = recent.found key now := by
  rw [lookup, Recent.found]
  cases hentry : inner.entries.lookup key with
  | none => rw [h.lookup_none.mp hentry]
  | some entry =>
    rw [h.lookup_some hentry]
    by_cases hfresh : now < entry.freshUntil
    · simp [hfresh]
    · by_cases hnone : conditions entry.reply = [] <;> simp [hfresh, hnone]

theorem follows_lookup (h : Follows inner recent) (key : Key) (now : Nat) :
    Follows (lookup inner key now).2 (recent.looked key now) := by
  rw [Recent.looked, ← lookup_found h, lookup]
  cases hentry : inner.entries.lookup key with
  | none =>
    rw [if_pos rfl, Recency.erase_absent (h.lookup_none.mp hentry)]
    exact h
  | some entry =>
    by_cases hfresh : now < entry.freshUntil
    · simp only [hfresh, decide_true, Bool.true_eq_false, false_and, if_false, if_true]
      rw [if_neg (by intro h; cases h)]
      exact follows_touch h key
    · by_cases hnone : conditions entry.reply = []
      · simp only [hfresh, hnone, decide_false, and_self, if_true]
        exact follows_remove h key
      · simp only [hfresh, hnone, decide_false, and_false, if_false, Bool.false_eq_true]
        rw [if_neg (by intro h; cases h)]
        exact follows_touch h key

theorem follows_store (h : Follows inner recent) (key : Key) (reply : Reply) (now : Nat)
    (clock : SystemTime) :
    Follows (store parseHttpDate inner key reply now clock)
      (recent.stored parseHttpDate key reply now clock) := by
  rw [store, Recent.stored]
  have hremove := follows_remove h key
  cases lifetime parseHttpDate reply clock with
  | none => exact hremove
  | some lifetime =>
    simp only
    have hput := follows_put hremove (AList.lookup_erase key recent)
      ⟨reply, now, now + lifetime, 2 * key.size + reply.size⟩
    rw [Recency.insert_erase] at hput
    exact follows_evict _ hput (Nat.le_refl _)

/-- **Each call changes the list as its purpose says.** -/
theorem follows_step (h : Follows inner recent) (call : Call) :
    Follows (step parseHttpDate inner call) (recent.step parseHttpDate call) := by
  cases call with
  | lookup key now => exact follows_lookup h key now
  | store key reply now clock => exact follows_store h key reply now clock
  | refresh key stale updated now clock => exact follows_store h key _ now clock
  | invalidate url => exact follows_invalidate h url

theorem follows_run (h : Follows inner recent) (calls : List Call) :
    Follows (calls.foldl (step parseHttpDate) inner)
      (calls.foldl (Recent.step parseHttpDate) recent) := by
  induction calls generalizing inner recent with
  | nil => exact h
  | cons call calls ih => exact ih (follows_step h call)

/-- **After any calls, the index and the map keep the list.** -/
theorem follows_after (calls : List Call) :
    Follows (after parseHttpDate calls) (recentAfter parseHttpDate calls) :=
  follows_run follows_empty calls

end

end JewelCase.Network.Cache
