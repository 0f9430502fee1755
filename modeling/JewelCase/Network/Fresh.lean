import Mathlib.Algebra.BigOperators.Group.List.Basic
import Mathlib.Data.List.Induction
import JewelCase.Network.Kept

/-!
# Replies served while they may be

A fresh answer is of the last reply kept for its key, which nothing has put out of date since; the
reply said that it may be kept, and for longer than it is old.
-/
namespace JewelCase.Network.Cache

open JewelCase.Library

set_option autoImplicit false

/-! ### Keys and numbers -/

theorem parseU64_lt {text : Text} {value : Nat} (h : parseU64 text = some value) :
    value < 2 ^ 64 := by
  unfold parseU64 at h
  generalize (if text.head? = some '+' then text.tail else text) = digits at h
  simp only at h
  split_ifs at h with hdigits hlt
  obtain rfl := Option.some.inj h
  exact hlt

/-- **Requests have one key exactly when their runs see the same, for one URL, and they carry the
same headers, names compared without case.** -/
theorem key_new {visible other : Visible} {url address : Text} {headers others : List Header}
    {key : Key} (h : Key.new visible url headers = some key) :
    Key.new other address others = some key ↔
      other = visible ∧ address = url ∧ (lowercased others).Perm (lowercased headers) := by
  unfold Key.new at h ⊢
  simp only at h ⊢
  split_ifs at h with hown
  obtain rfl := Option.some.inj h
  constructor
  · intro hother
    split_ifs at hother with howns
    obtain ⟨rfl, rfl, hsort⟩ := Key.mk.inj (Option.some.inj hother)
    refine ⟨rfl, rfl, ?_⟩
    have hsorted := List.perm_insertionSort (fun a b : Header => toLex a ≤ toLex b) (lowercased others)
    rw [hsort] at hsorted
    exact hsorted.symm.trans (List.perm_insertionSort _ _)
  · intro hother
    obtain ⟨rfl, rfl, hperm⟩ := hother
    rw [hperm.any_eq, if_neg hown, Option.some.injEq, Key.mk.injEq]
    refine ⟨rfl, rfl, ?_⟩
    have hsorted := (List.perm_insertionSort (fun a b : Header => toLex a ≤ toLex b)
      (lowercased others)).trans (hperm.trans (List.perm_insertionSort
        (fun a b : Header => toLex a ≤ toLex b) (lowercased headers)).symm)
    refine hsorted.eq_of_pairwise ?_ (List.pairwise_insertionSort _ _)
      (List.pairwise_insertionSort _ _)
    intro a b _ _ hab hba
    exact toLex.injective (le_antisymm hab hba)

/-! ### The index -/

/-- The index names each entry once, by when it was used, and the size is theirs. -/
structure Indexed (inner : Inner) : Prop where
  names : (inner.used.entries.map Prod.snd).Perm inner.entries.keys
  ticked : ∀ pair ∈ inner.used.entries, ∃ entry, inner.entries.lookup pair.2 = some entry ∧
    entry.used = pair.1
  size : inner.size = (inner.entries.entries.map fun entry => entry.2.size).sum
  fits : inner.size ≤ MAX_SIZE

theorem Follows.indexed {inner : Inner} {recent : Recent} (h : Follows inner recent)
    (hfits : Recency.total Kept.size recent.entries ≤ MAX_SIZE) : Indexed inner := by
  have hkeys : recent.keys.Perm inner.entries.keys :=
    (List.perm_ext_iff_of_nodup recent.keys_nodup inner.entries.keys_nodup).mpr
      fun key => h.mem_keys.symm
  constructor
  · rw [h.order]
    exact (List.reverse_perm _).trans hkeys
  · exact h.ticked
  · have htotal := @Recency.total_keys _ _ (fun entry : Entry => entry.size) _ inner.entries
    rw [Recency.total] at htotal
    rw [htotal, h.size, Recency.total_keys, (hkeys.map _).sum_eq]
    congr 1
    apply List.map_congr_left
    intro key _
    rw [← h.kept key, Option.map_map]
    rfl
  · rw [h.size]
    exact hfits

/-! ### What calls keep -/

section
variable [Clock]

/-- A reply to keep for a key, the moment it came, and the wall clock's time then. -/
structure Put where
  key : Key
  reply : Reply
  now : Nat
  clock : SystemTime

def Call.puts : Call → Option Put
  | .store key reply now clock => some ⟨key, reply, now, clock⟩
  | .refresh key stale updated now clock => some ⟨key, merged stale updated, now, clock⟩
  | .lookup _ _ => none
  | .invalidate _ => none

def Call.now : Call → Option Nat
  | .lookup _ now => some now
  | .store _ _ now _ => some now
  | .refresh _ _ _ now _ => some now
  | .invalidate _ => none

/-- What is kept for a key is replaced, or out of date. -/
def Call.Forgets (call : Call) (key : Key) : Prop :=
  call.puts.map Put.key = some key ∨ call = .invalidate key.url

variable (parseHttpDate : Text → Option SystemTime)

/-- What is kept of a reply. -/
def Put.kept (put : Put) (lifetime : Nat) : Kept :=
  ⟨put.reply, put.now, put.now + lifetime, 2 * put.key.size + put.reply.size⟩

/-- A reply that calls kept, and have not put out of date since. -/
def Sourced (calls : List Call) (key : Key) (kept : Kept) : Prop :=
  ∃ before call between put life, calls = before ++ call :: between ∧ call.puts = some put ∧
    put.key = key ∧ lifetime parseHttpDate put.reply put.clock = some life ∧
      kept = put.kept life ∧ ∀ other ∈ between, ¬ other.Forgets key

variable {parseHttpDate} {recent : Recent} {key : Key} {kept : Kept}

theorem step_puts {call : Call} {put : Put} (h : call.puts = some put) :
    recent.step parseHttpDate call =
      recent.stored parseHttpDate put.key put.reply put.now put.clock := by
  cases call with
  | store k reply now clock =>
    obtain rfl := Option.some.inj h
    rfl
  | refresh k stale updated now clock =>
    obtain rfl := Option.some.inj h
    rfl
  | lookup k now => cases h
  | invalidate url => cases h

theorem lookup_stored {put : Put}
    (h : (recent.stored parseHttpDate put.key put.reply put.now put.clock).lookup key = some kept) :
    (put.key = key ∧ ∃ life, lifetime parseHttpDate put.reply put.clock = some life ∧
      kept = put.kept life) ∨ (put.key ≠ key ∧ recent.lookup key = some kept) := by
  rw [Recent.stored] at h
  by_cases hk : put.key = key
  · subst hk
    cases hlife : lifetime parseHttpDate put.reply put.clock with
    | none =>
      rw [hlife] at h
      simp only [AList.lookup_erase] at h
      cases h
    | some life =>
      rw [hlife] at h
      have hfit := Recency.lookup_fit h
      rw [AList.lookup_insert] at hfit
      exact .inl ⟨rfl, life, rfl, (Option.some.inj hfit).symm⟩
  · refine .inr ⟨hk, ?_⟩
    cases hlife : lifetime parseHttpDate put.reply put.clock with
    | none =>
      rw [hlife] at h
      simp only at h
      rw [AList.lookup_erase_ne (Ne.symm hk)] at h
      exact h
    | some life =>
      rw [hlife] at h
      have hfit := Recency.lookup_fit h
      rw [AList.lookup_insert_ne (Ne.symm hk)] at hfit
      exact hfit

/-- **What is kept after a call is what it kept, or what was kept and it has not put out of date.** -/
theorem lookup_step {call : Call} (h : (recent.step parseHttpDate call).lookup key = some kept) :
    (∃ put life, call.puts = some put ∧ put.key = key ∧
      lifetime parseHttpDate put.reply put.clock = some life ∧ kept = put.kept life) ∨
      (recent.lookup key = some kept ∧ ¬ call.Forgets key) := by
  cases hput : call.puts with
  | some put =>
    rw [step_puts hput] at h
    obtain ⟨hk, life, hlife, hkept⟩ | ⟨hk, hold⟩ := lookup_stored h
    · exact .inl ⟨put, life, rfl, hk, hlife, hkept⟩
    · refine .inr ⟨hold, ?_⟩
      intro hforgets
      obtain hf | rfl := hforgets
      · rw [hput, Option.map_some, Option.some.injEq] at hf
        exact hk hf
      · cases hput
  | none =>
    cases call with
    | store k reply now clock => cases hput
    | refresh k stale updated now clock => cases hput
    | lookup k now =>
      have hold : recent.lookup key = some kept := by
        rw [Recent.step, Recent.looked] at h
        split_ifs at h
        · by_cases hk : key = k
          · rw [hk, AList.lookup_erase] at h
            cases h
          · rwa [AList.lookup_erase_ne hk] at h
        · rwa [Recency.lookup_use] at h
      refine .inr ⟨hold, ?_⟩
      intro hforgets
      obtain hf | hf := hforgets
      · cases hf
      · cases hf
    | invalidate url =>
      rw [Recent.step, Recent.invalidated] at h
      obtain ⟨hold, hurl⟩ := Recency.lookup_keep h
      refine .inr ⟨hold, ?_⟩
      intro hforgets
      obtain hf | hf := hforgets
      · cases hf
      · injection hf with hf
        exact of_decide_eq_true hurl hf.symm

/-- **What is kept after any calls was kept by one of them, and is not out of date.** -/
theorem sourced_after {calls : List Call}
    (h : (recentAfter parseHttpDate calls).lookup key = some kept) :
    Sourced parseHttpDate calls key kept := by
  induction calls using List.reverseRecOn with
  | nil => cases h
  | append_singleton calls call ih =>
    rw [recentAfter, List.foldl_append] at h
    obtain ⟨put, life, hput, hkey, hlife, hkept⟩ | ⟨hold, hforgets⟩ := lookup_step h
    · refine ⟨calls, call, [], put, life, rfl, hput, hkey, hlife, hkept, ?_⟩
      intro other ho
      cases ho
    · obtain ⟨before, other, between, put, life, rfl, hput, hkey, hlife, hkept, hbetween⟩ := ih hold
      refine ⟨before, other, between ++ [call], put, life, ?_, hput, hkey, hlife, hkept, ?_⟩
      · rw [List.append_assoc, List.cons_append]
      · intro later hl
        obtain hl | hl := List.mem_append.mp hl
        · exact hbetween later hl
        · rw [List.mem_singleton] at hl
          rw [hl]
          exact hforgets

/-! ### What a reply allows -/

/-- A `Vary` lists `*` in one of its values. -/
def Reply.VariesByAll (reply : Reply) : Prop :=
  ∃ value ∈ reply.all "vary", ∃ item ∈ value.splitOn ',', trim item = ['*']

/-- A reply that `lifetime` does not refuse before it looks at the `Vary` values. -/
structure Reply.ReachesVary (reply : Reply) : Prop where
  status : reply.status ∈ STATUSES
  body : reply.body.length ≤ MAX_ENTRY
  noCookie : reply.header "set-cookie" = none

/-- The lifetime that `s-maxage`, else `max-age`, else `Expires` gives. -/
def Reply.Gives (parseHttpDate : Text → Option SystemTime) (reply : Reply) (clock : SystemTime)
    (given : Nat) : Prop :=
  reply.seconds "s-maxage" = some given ∨
  (reply.seconds "s-maxage" = none ∧ reply.seconds "max-age" = some given) ∨
  (reply.seconds "s-maxage" = none ∧ reply.seconds "max-age" = none ∧
    ∃ expires expiry, reply.header "expires" = some expires ∧ parseHttpDate expires = some expiry ∧
      given = (expiry.time - (((reply.header "date").bind parseHttpDate).getD clock).time).toNat)

/-- A reply says nothing against being kept. -/
structure Reply.Storable (reply : Reply) : Prop where
  noStore : reply.has "no-store" = false
  shared : reply.has "private" = false
  noCookie : reply.header "set-cookie" = none
  noVary : ∀ value ∈ reply.all "vary", trim value ≠ ['*']

variable {reply : Reply} {clock : SystemTime} {life : Nat}

theorem reachesVary_of_lifetime (h : lifetime parseHttpDate reply clock = some life) :
    reply.ReachesVary := by
  rw [lifetime] at h
  split_ifs at h with hstatus hshared hstore
  obtain ⟨hin, hbody⟩ := not_or.mp hstatus
  obtain ⟨hcookie, -⟩ := not_or.mp hshared
  exact ⟨not_not.mp hin, Nat.not_lt.mp hbody, Option.not_isSome_iff_eq_none.mp hcookie⟩

theorem lifetime_some (h : lifetime parseHttpDate reply clock = some life) :
    reply.Storable ∧
      life = min (reply.saidLifetime parseHttpDate clock - reply.age * SECOND) MAX_LIFETIME ∧
      (0 < life ∨ conditions reply ≠ []) := by
  rw [lifetime] at h
  split_ifs at h with hstatus hshared hstore
  simp only at h
  split_ifs at h with hkeep
  obtain rfl := Option.some.inj h
  obtain ⟨hcookie, hvary⟩ := not_or.mp hshared
  obtain ⟨hnoStore, hprivate⟩ := not_or.mp hstore
  refine ⟨⟨Bool.eq_false_of_not_eq_true hnoStore, Bool.eq_false_of_not_eq_true hprivate, ?_, ?_⟩,
    rfl, ?_⟩
  · exact Option.not_isSome_iff_eq_none.mp hcookie
  · intro value hv ht
    exact hvary ⟨value, hv, ht⟩
  · obtain hpos | hvalid := hkeep
    · exact .inl hpos
    · refine .inr ?_
      intro hnone
      rw [conditions, List.append_eq_nil_iff] at hnone
      obtain ⟨hetag, hmodified⟩ := hnone
      rw [Bool.or_eq_true] at hvalid
      obtain hv | hv := hvalid
      · obtain ⟨etag, he⟩ := Option.isSome_iff_exists.mp hv
        rw [he] at hetag
        cases hetag
      · obtain ⟨modified, hm⟩ := Option.isSome_iff_exists.mp hv
        rw [hm] at hmodified
        cases hmodified

/-- A lifetime is said by one of three headers, unless `no-cache` says none. -/
theorem said_gives (h : 0 < reply.saidLifetime parseHttpDate clock) :
    reply.has "no-cache" = false ∧
      reply.Gives parseHttpDate clock (reply.saidLifetime parseHttpDate clock) := by
  rw [Reply.saidLifetime] at h ⊢
  split_ifs at h ⊢ with hcache
  · exact absurd h (Nat.lt_irrefl 0)
  · refine ⟨Bool.eq_false_of_not_eq_true hcache, ?_⟩
    cases hshared : reply.seconds "s-maxage" with
    | some seconds => exact .inl hshared
    | none =>
      cases hmax : reply.seconds "max-age" with
      | some seconds => exact .inr (.inl ⟨hshared, hmax⟩)
      | none =>
        rw [hshared, hmax] at h
        simp only [Option.or_none] at h ⊢
        refine .inr (.inr ⟨hshared, hmax, ?_⟩)
        cases hexpires : reply.header "expires" with
        | none =>
          rw [hexpires] at h
          exact absurd h (Nat.lt_irrefl 0)
        | some expires =>
          rw [hexpires] at h
          simp only at h ⊢
          cases hexpiry : parseHttpDate expires with
          | none =>
            rw [hexpiry] at h
            exact absurd h (Nat.lt_irrefl 0)
          | some expiry => exact ⟨expires, expiry, rfl, hexpiry, rfl⟩

theorem seconds_lt {name : String} {given : Nat} (h : reply.seconds name = some given) :
    given < 2 ^ 64 * SECOND := by
  rw [Reply.seconds] at h
  obtain ⟨value, hvalue, rfl⟩ := Option.map_eq_some_iff.mp h
  obtain ⟨text, -, hparse⟩ := Option.bind_eq_some_iff.mp hvalue
  exact Nat.mul_lt_mul_of_pos_right (parseU64_lt hparse) Clock.pos

/-- No lifetime is as long as its seconds could not be counted. -/
theorem gives_lt {given : Nat} (h : reply.Gives parseHttpDate clock given) :
    given < 2 ^ 64 * SECOND := by
  obtain h | ⟨-, h⟩ | ⟨-, -, expires, expiry, -, -, rfl⟩ := h
  · exact seconds_lt h
  · exact seconds_lt h
  · have hupper := expiry.upper
    have hlower := (((reply.header "date").bind parseHttpDate).getD clock).lower
    have hpos : 0 < SECOND := Clock.pos
    generalize (((reply.header "date").bind parseHttpDate).getD clock).time = sent at *
    generalize expiry.time = expiry at *
    omega

/-! ### The order of use -/

variable (parseHttpDate) in
/-- A call uses a key: it keeps a reply for it, or finds one. -/
def Call.Uses (recent : Recent) (call : Call) (key : Key) : Prop :=
  call.puts.map Put.key = some key ∨
    ∃ now, call = .lookup key now ∧ recent.found key now ≠ .miss

variable {calls : List Call} {call : Call} {other : Key}

theorem Call.Uses.unique (h : call.Uses recent key) (ho : call.Uses recent other) : key = other := by
  obtain h | ⟨now, rfl, hfound⟩ := h
  · obtain ho | ⟨now, rfl, -⟩ := ho
    · exact Option.some.inj (h.symm.trans ho)
    · cases h
  · obtain ho | ⟨now, ho, -⟩ := ho
    · cases ho
    · injection ho

/-- A call leaves what was kept in its order, but that it puts what it uses first. -/
theorem entries_step (recent : Recent) (call : Call) :
    (∃ key kept, call.Uses recent key ∧ List.Sublist (recent.step parseHttpDate call).entries
      (⟨key, kept⟩ :: (recent.erase key).entries)) ∨
    List.Sublist (recent.step parseHttpDate call).entries recent.entries ∧
      ∀ entry ∈ (recent.step parseHttpDate call).entries, ¬ call.Uses recent entry.1 := by
  cases hput : call.puts with
  | some put =>
    have huses : call.Uses recent put.key := .inl (by rw [hput, Option.map_some])
    rw [step_puts hput, Recent.stored]
    cases hlife : lifetime parseHttpDate put.reply put.clock with
    | none =>
      refine .inr ⟨List.kerase_sublist _ _, ?_⟩
      intro entry he hentry
      have hkey := huses.unique hentry
      have hmem := List.mem_keys_of_mem he
      rw [← hkey] at hmem
      exact List.notMem_keys_kerase put.key recent.nodupKeys hmem
    | some life =>
      refine .inl ⟨put.key, put.kept life, huses, ?_⟩
      exact Recency.within_sublist _ _
  | none =>
    cases call with
    | store k reply now clock => cases hput
    | refresh k stale updated now clock => cases hput
    | lookup k now =>
      rw [Recent.step, Recent.looked]
      by_cases hmiss : recent.found k now = .miss
      · rw [if_pos hmiss]
        refine .inr ⟨List.kerase_sublist _ _, ?_⟩
        intro entry _ hentry
        obtain hf | ⟨time, hlookup, hfound⟩ := hentry
        · cases hf
        · obtain ⟨rfl, rfl⟩ := Call.lookup.inj hlookup
          exact hfound hmiss
      · rw [if_neg hmiss, Recency.use]
        cases hkept : recent.lookup k with
        | none =>
          have hfound : recent.found k now = .miss := by rw [Recent.found, hkept]
          exact absurd hfound hmiss
        | some kept =>
          exact .inl ⟨k, kept, .inr ⟨now, rfl, hmiss⟩, List.Sublist.refl _⟩
    | invalidate url =>
      refine .inr ⟨List.filter_sublist, ?_⟩
      intro entry _ hentry
      obtain hf | ⟨time, hlookup, -⟩ := hentry
      · cases hf
      · cases hlookup

variable (parseHttpDate) in
/-- `key` was used after the last use of `other`. -/
def UsedSince (calls : List Call) (key other : Key) : Prop :=
  ∃ before call between, calls = before ++ call :: between ∧
    call.Uses (recentAfter parseHttpDate before) key ∧
    ∀ mid later rest, between = mid ++ later :: rest →
      ¬ later.Uses (recentAfter parseHttpDate (before ++ call :: mid)) other

theorem UsedSince.snoc (h : UsedSince parseHttpDate calls key other)
    (hcall : ¬ call.Uses (recentAfter parseHttpDate calls) other) :
    UsedSince parseHttpDate (calls ++ [call]) key other := by
  obtain ⟨before, first, between, rfl, hfirst, hbetween⟩ := h
  refine ⟨before, first, between ++ [call], ?_, hfirst, ?_⟩
  · rw [List.append_assoc, List.cons_append]
  · intro mid later rest hsplit
    obtain rfl | ⟨init, last, rfl⟩ := rest.eq_nil_or_concat
    · obtain ⟨rfl, hlast⟩ := List.append_inj' hsplit rfl
      rw [List.cons.injEq] at hlast
      rw [← hlast.1]
      exact hcall
    · rw [List.concat_eq_append, ← List.cons_append, ← List.append_assoc] at hsplit
      obtain ⟨hinit, -⟩ := List.append_inj' hsplit rfl
      exact hbetween mid later init hinit

/-- **What is kept stands in the order of its last use.** -/
theorem recent_ordered (calls : List Call) :
    (recentAfter parseHttpDate calls).entries.Pairwise fun a b =>
      UsedSince parseHttpDate calls a.1 b.1 := by
  induction calls using List.reverseRecOn with
  | nil => exact .nil
  | append_singleton calls call ih =>
    rw [recentAfter, List.foldl_append]
    obtain ⟨key, kept, huses, hsub⟩ | ⟨hsub, hunused⟩ := entries_step
      (recentAfter parseHttpDate calls) call
    · apply List.Pairwise.sublist hsub
      have hrest : ∀ entry ∈ ((recentAfter parseHttpDate calls).erase key).entries,
          ¬ call.Uses (recentAfter parseHttpDate calls) entry.1 := by
        intro entry he hentry
        have hmem := List.mem_keys_of_mem he
        rw [← huses.unique hentry] at hmem
        exact List.notMem_keys_kerase key (recentAfter parseHttpDate calls).nodupKeys hmem
      refine List.pairwise_cons.mpr ⟨?_, ?_⟩
      · intro entry _
        refine ⟨calls, call, [], rfl, huses, ?_⟩
        intro mid later rest hsplit
        exact absurd (congrArg List.length hsplit) (by simp)
      · have hold := List.Pairwise.sublist (List.kerase_sublist key _) ih
        refine List.Pairwise.imp_of_mem ?_ hold
        intro a b _ hb hab
        exact hab.snoc (hrest b hb)
    · refine List.Pairwise.imp_of_mem ?_ (List.Pairwise.sublist hsub ih)
      intro a b _ hb hab
      exact hab.snoc (hunused b hb)

/-! ### What is kept fits -/

theorem total_step (h : Recency.total Kept.size recent.entries ≤ MAX_SIZE) (call : Call) :
    Recency.total Kept.size (recent.step parseHttpDate call).entries ≤ MAX_SIZE := by
  have hless : ∀ less : Recent, less.entries.Sublist recent.entries →
      Recency.total Kept.size less.entries ≤ MAX_SIZE :=
    fun less hsub => Nat.le_trans (Recency.total_sublist hsub) h
  cases hput : call.puts with
  | some put =>
    rw [step_puts hput, Recent.stored]
    cases lifetime parseHttpDate put.reply put.clock with
    | none => exact hless _ (List.kerase_sublist _ _)
    | some life => exact Recency.total_within_le _ _
  | none =>
    cases call with
    | store k reply now clock => cases hput
    | refresh k stale updated now clock => cases hput
    | lookup k now =>
      rw [Recent.step, Recent.looked]
      split_ifs
      · exact hless _ (List.kerase_sublist _ _)
      · rw [Recency.total_use]
        exact h
    | invalidate url => exact hless _ List.filter_sublist

theorem total_after (calls : List Call) :
    Recency.total Kept.size (recentAfter parseHttpDate calls).entries ≤ MAX_SIZE := by
  induction calls using List.reverseRecOn with
  | nil => exact Nat.zero_le _
  | append_singleton calls call ih =>
    rw [recentAfter, List.foldl_append]
    exact total_step ih call

/-! ### Served -/

/-- A reply kept at `put` is served at `now` as its service allowed. -/
structure Served (parseHttpDate : Text → Option SystemTime) (put : Put) (now : Nat)
    (answer : Reply) : Prop where
  aged : answer = put.reply.aged (now - put.now)
  storable : put.reply.Storable
  lives : ∃ given, put.reply.Gives parseHttpDate put.clock given ∧
    put.reply.age * SECOND + (now - put.now) < given
  short : now - put.now < MAX_LIFETIME
  age : answer.all "age" = [Nat.toDigits 10 ((put.reply.age * SECOND + (now - put.now)) / SECOND)]

theorem all_age_aged (reply : Reply) (kept : Nat) :
    (reply.aged kept).all "age" =
      [Nat.toDigits 10 (min (reply.age + kept / SECOND) (2 ^ 64 - 1))] := by
  rw [Reply.all, Reply.aged]
  simp only [List.filter_append, List.filter_filter, List.map_append]
  simp

theorem served {put : Put} {now : Nat} (hlife : lifetime parseHttpDate put.reply put.clock = some life)
    (hfresh : now < put.now + life) (hnow : put.now ≤ now) :
    Served parseHttpDate put now (put.reply.aged (now - put.now)) := by
  obtain ⟨hstorable, hmin, -⟩ := lifetime_some hlife
  have hsays : 0 < put.reply.saidLifetime parseHttpDate put.clock := by omega
  obtain ⟨-, hgives⟩ := said_gives hsays
  have hless : put.reply.age * SECOND + (now - put.now) <
      put.reply.saidLifetime parseHttpDate put.clock := by omega
  refine ⟨rfl, hstorable, ⟨_, hgives, hless⟩, by omega, ?_⟩
  have hbound := gives_lt hgives
  have hsum : (put.reply.age * SECOND + (now - put.now)) / SECOND =
      put.reply.age + (now - put.now) / SECOND := by
    rw [Nat.add_comm, Nat.add_mul_div_right _ _ Clock.pos, Nat.add_comm]
  have hcount : (put.reply.age * SECOND + (now - put.now)) / SECOND < 2 ^ 64 :=
    Nat.div_lt_of_lt_mul (by omega)
  rw [all_age_aged, hsum, Nat.min_eq_left (by omega)]

/-- **A cached reply is served as its service allowed, for its own key.** After any calls, a fresh
answer is of the last reply kept for the key, which no change to its URL put out of date; the reply
said nothing against it, where a `Vary` that lists `*` says no more than that. A reply with nothing
to check it by is forgotten once stale. The index names each reply once, and those least recently
used went first. -/
theorem fresh_served (parseHttpDate : Text → Option SystemTime) (calls : List Call)
    (hwhole : ∀ call ∈ calls, ∀ put, call.puts = some put → put.reply.ReachesVary →
      put.reply.VariesByAll → ∃ value ∈ put.reply.all "vary", trim value = ['*'])
    (key : Key) (now : Nat) (hsorted : (calls.filterMap Call.now ++ [now]).Pairwise (· ≤ ·)) :
    (∀ answer, (lookup (after parseHttpDate calls) key now).1 = .fresh answer →
      ∃ before call between put, calls = before ++ call :: between ∧ call.puts = some put ∧
        put.key = key ∧ (∀ other ∈ between, ¬ other.Forgets key) ∧ put.now ≤ now ∧
          Served parseHttpDate put now answer ∧ ¬ put.reply.VariesByAll) ∧
    (∀ entry, (after parseHttpDate calls).entries.lookup key = some entry →
      entry.freshUntil ≤ now → conditions entry.reply = [] →
        (lookup (after parseHttpDate calls) key now).1 = .miss ∧
        (lookup (after parseHttpDate calls) key now).2.entries.lookup key = none) ∧
    Indexed (after parseHttpDate calls) ∧
    (Follows (after parseHttpDate calls) (recentAfter parseHttpDate calls) ∧
      (recentAfter parseHttpDate calls).entries.Pairwise fun a b =>
        UsedSince parseHttpDate calls a.1 b.1) ∧
    ∀ visible url headers, Key.new visible url headers = some key →
      ∀ other address others, Key.new other address others = some key ↔
        other = visible ∧ address = url ∧ (lowercased others).Perm (lowercased headers) := by
  have hfollows := @follows_after _ parseHttpDate calls
  refine ⟨?_, ?_, hfollows.indexed (total_after calls), ⟨hfollows, recent_ordered calls⟩,
    fun visible url headers hkey other address others => key_new hkey⟩
  · intro answer hanswer
    rw [lookup_found hfollows, Recent.found] at hanswer
    cases hkept : (recentAfter parseHttpDate calls).lookup key with
    | none =>
      rw [hkept] at hanswer
      cases hanswer
    | some kept =>
      rw [hkept] at hanswer
      simp only at hanswer
      split_ifs at hanswer with hfresh
      obtain ⟨before, call, between, put, life, hcalls, hput, hkey, hlife, rfl, hbetween⟩ :=
        sourced_after hkept
      have hmem : call ∈ calls := by
        rw [hcalls]
        exact List.mem_append_right _ List.mem_cons_self
      have hnow : put.now ≤ now := by
        have htime : put.now ∈ calls.filterMap Call.now := by
          refine List.mem_filterMap.mpr ⟨call, hmem, ?_⟩
          cases call with
          | store k reply time clock =>
            obtain rfl := Option.some.inj hput
            rfl
          | refresh k stale updated time clock =>
            obtain rfl := Option.some.inj hput
            rfl
          | lookup k time => cases hput
          | invalidate url => cases hput
        exact (List.pairwise_append.mp hsorted).2.2 _ htime _ List.mem_cons_self
      have hserved := served hlife hfresh hnow
      obtain rfl := Lookup.fresh.inj hanswer
      refine ⟨before, call, between, put, hcalls, hput, hkey, hbetween, hnow, hserved, ?_⟩
      intro hvaries
      have hreaches := reachesVary_of_lifetime hlife
      obtain ⟨value, hvalue, hstar⟩ := hwhole call hmem put hput hreaches hvaries
      exact hserved.storable.noVary value hvalue hstar
  · intro entry hentry hstale hnone
    rw [lookup, hentry]
    simp only [Nat.not_lt.mpr hstale, hnone, decide_false, and_self, if_true, true_and]
    rw [Inner.remove, hentry]
    exact AList.lookup_erase key _

end

def aKey : Key := ⟨⟨1, none, false, false, false⟩, "https://api.example/".toList, []⟩

def epoch : @SystemTime seconds := @SystemTime.mk seconds 0 (by decide) (by decide)

/-- A reply that may be kept for a minute. -/
def forAMinute : Reply :=
  ⟨200, [("cache-control".toList, "max-age=60".toList)], [], "https://api.example/".toList, none⟩

/-- And its `Vary` lists `*` with another header. -/
def varied : Reply :=
  { forAMinute with headers := forAMinute.headers ++ [("vary".toList, "accept, *".toList)] }

theorem fresh_served_for_a_minute :
    @Indexed (@after seconds (fun _ => none) [@Call.store seconds aKey forAMinute 0 epoch]) ∧
    (@lookup seconds (@after seconds (fun _ => none) [@Call.store seconds aKey forAMinute 0 epoch])
      aKey 59).1 = .fresh (@Reply.aged seconds forAMinute 59) := by
  have hserved := @fresh_served seconds (fun _ => none)
    [@Call.store seconds aKey forAMinute 0 epoch] ?_ aKey 59 (by decide)
  · exact ⟨hserved.2.2.1, by decide +kernel⟩
  · intro call hc put hput _ hvaries
    rw [List.mem_singleton] at hc
    rw [hc] at hput
    obtain rfl := Option.some.inj hput
    obtain ⟨value, hvalue, -⟩ := hvaries
    have hnone : forAMinute.all "vary" = [] := by decide
    rw [hnone] at hvalue
    cases hvalue

/-- A reply is served whose `Vary` lists `*` beside another header. -/
theorem varied_served :
    (@lookup seconds (@after seconds (fun _ => none) [@Call.store seconds aKey varied 0 epoch])
      aKey 59).1 = .fresh (@Reply.aged seconds varied 59) ∧ varied.VariesByAll := by
  refine ⟨by decide +kernel, "accept, *".toList, by decide, [' ', '*'], by decide, by decide⟩

end JewelCase.Network.Cache
