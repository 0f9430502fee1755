import JewelCase.Library.Recency
import JewelCase.Queue.EditResults
import JewelCase.Queues.Store

/-!
# Applying edits to the active queue

`crates/server/src/queue/edit.rs`. An edit applies through the core, bumps the version and is
announced, all under the same lock. A version is 32 bits, as the released build counts it: the last
is followed by 0.
-/
namespace JewelCase.Queues

open JewelCase.Library (remember Spread spread_nil)
open JewelCase.Queue (QueueState Source Edit Call QueueError)
open JewelCase.Queue.QueueState (edited)

set_option autoImplicit false

/-- How many of an account's latest edits are remembered to answer one sent again. -/
def REMEMBERED : Nat := 32

/-- Why an edit was not applied. -/
inductive EditError where
  | noQueue
  | changed
  | refused (error : QueueError)
deriving DecidableEq, Repr

/-- A list an add brings. -/
structure Added where
  hash : String
  libraryId : Int
  tracks : List Nat
deriving DecidableEq, Repr

/-- An edit applied: the queue's version once it was, and for an add the source registered. -/
structure Applied where
  version : UInt32
  source : Option Source
deriving DecidableEq, Repr

/-- The edit an account remembers under an ID. -/
def Account.remembered (account : Account) (editId : Uuid) : Option Done :=
  account.done.find? fun done => done.editId = editId

/-- The answer to `editId`, if it is among the latest edits. -/
def answered (account : Option Account) (queueId editId : Uuid) : Option Applied :=
  (account.filter fun account => account.queueId = queueId).bind fun account =>
    (account.remembered editId).map fun done => ⟨done.version, done.source⟩

/-- The source an add registers. -/
def addedSource : Edit → Option Source
  | .add source _ => some source
  | _ => none

/-- What an account holds once an add brings a list. -/
def holdAdded (lists : HeldLists) (added : Option Added) : HeldLists :=
  match added.filter fun added => ¬ added.tracks.isEmpty with
  | some added => lists.insert added.hash ⟨added.libraryId, added.tracks⟩
  | none => lists

/-- Applies `edit`, which `editId` names, to the queue `queueId`: the answer, the account after it,
and what is announced. An ID among the latest is not applied again, and answers as the first did. -/
def apply (account : Option Account) (queueId editId : Uuid) (edit : Edit) (added : Option Added) :
    Except EditError Applied × Option Account × List (UInt32 × Edit) :=
  match account with
  | none => (.error .noQueue, none, [])
  | some account =>
    if account.queueId ≠ queueId then (.error .changed, some account, [])
    else
      match account.remembered editId with
      | some done => (.ok ⟨done.version, done.source⟩, some account, [])
      | none =>
        match account.state.apply edit with
        | (.error error, state) => (.error (.refused error), some { account with state }, [])
        | (.ok (), state) =>
          let lists := holdAdded account.lists added
          let version := account.version + 1
          let source := addedSource edit
          let done := remember REMEMBERED account.done ⟨editId, version, source⟩
          (.ok ⟨version, source⟩, some { account with state, lists, version, done, changed := true },
            [(version, edit)])

/-- What happens to an account: an edit is sent, or another queue becomes active, as a start or a
restore makes one, in a state that edits have led to. -/
inductive Event where
  | edit (queueId editId : Uuid) (edit : Edit) (added : Option Added)
  | activate (queueId : Uuid) (version : UInt32) (context : String) (calls : List Call)
      (position place : Option Position) (lists : HeldLists)

/-- An account, the queue that last became active as it was then, what has been announced since, and
every edit applied to the account. -/
structure Life where
  account : Option Account
  origin : Option Queue
  announced : List (UInt32 × Edit)
  applied : List Done

namespace Life

/-- Makes `queue` active. -/
def activate (life : Life) (queue : Queue) (place : Option Position) (lists : HeldLists) : Life :=
  let account := (life.account.elim (Account.fromQueue queue) fun account =>
    account.parkFor queue place)
  { life with account := some { account with lists }, origin := some queue, announced := [] }

def step (life : Life) : Event → Life
  | .edit queueId editId edit added =>
    let (_, account, announced) := apply life.account queueId editId edit added
    { life with
      account
      announced := life.announced ++ announced
      applied := life.applied ++
        announced.map fun announced => ⟨editId, announced.1, addedSource announced.2⟩ }
  | .activate queueId version context calls position place lists =>
    life.activate ⟨queueId, version, context, QueueState.run calls, position⟩ place lists

def run (events : List Event) : Life := events.foldl step ⟨none, none, [], []⟩

end Life

/-! ### What a call does -/

/-- A call on an account whose state is a queue's. -/
theorem apply_cases {account : Option Account} (hvalid : ∀ a ∈ account, a.state.Valid)
    (queueId editId : Uuid) (edit : Edit) (added : Option Added) :
    (account = none ∧ apply account queueId editId edit added = (.error .noQueue, account, [])) ∨
    ∃ a ∈ account,
      (a.queueId ≠ queueId ∧ apply account queueId editId edit added = (.error .changed, account, [])) ∨
      (a.queueId = queueId ∧ ∃ done, a.remembered editId = some done ∧
        apply account queueId editId edit added = (.ok ⟨done.version, done.source⟩, account, [])) ∨
      (a.queueId = queueId ∧ a.remembered editId = none ∧ ∃ error,
        (a.state.apply edit).1 = .error error ∧
          apply account queueId editId edit added = (.error (.refused error), account, [])) ∨
      (a.queueId = queueId ∧ a.remembered editId = none ∧ (a.state.apply edit).1 = .ok () ∧
        apply account queueId editId edit added =
          (.ok ⟨a.version + 1, addedSource edit⟩, some { a with
            state := edited a.state edit
            lists := holdAdded a.lists added
            version := a.version + 1
            done := remember REMEMBERED a.done ⟨editId, a.version + 1, addedSource edit⟩
            changed := true }, [(a.version + 1, edit)])) := by
  cases account with
  | none => exact Or.inl ⟨rfl, rfl⟩
  | some a =>
    refine Or.inr ⟨a, rfl, ?_⟩
    by_cases hid : a.queueId = queueId
    · rw [apply, if_neg (by simpa using hid)]
      cases hdone : a.remembered editId with
      | some done => exact Or.inr (Or.inl ⟨hid, done, rfl, rfl⟩)
      | none =>
        cases happly : a.state.apply edit with
        | mk answer state =>
          cases answer with
          | error error =>
            have hsame : state = a.state := by
              have := (hvalid a rfl).refused edit (by rw [happly]; simp)
              rwa [happly] at this
            refine Or.inr (Or.inr (Or.inl ⟨hid, rfl, error, rfl, ?_⟩))
            simp only [hsame]
          | ok answer =>
            refine Or.inr (Or.inr (Or.inr ⟨hid, rfl, rfl, ?_⟩))
            simp only [edited, happly]
    · exact Or.inl ⟨hid, by rw [apply, if_pos hid]⟩

namespace Life

/-- What every run keeps to. -/
structure Good (life : Life) : Prop where
  empty : life.account = none → life.announced = [] ∧ life.applied = []
  active : ∀ account ∈ life.account, ∃ queue ∈ life.origin, account.queueId = queue.queueId ∧
    account.state = (life.announced.map Prod.snd).foldl edited queue.state ∧
    account.version = queue.version + UInt32.ofNat life.announced.length ∧
    life.announced.map Prod.fst =
      (List.range life.announced.length).map fun i => queue.version + UInt32.ofNat (i + 1)
  done : ∀ account ∈ life.account, account.done = life.applied.rtake REMEMBERED
  spread : Spread REMEMBERED (life.applied.map (·.editId))
  valid : ∀ account ∈ life.account, account.state.Valid

theorem ofNat_succ (version : UInt32) (n : Nat) :
    version + UInt32.ofNat n + 1 = version + UInt32.ofNat (n + 1) := by
  rw [UInt32.ofNat_add, UInt32.add_assoc]
  rfl

theorem Good.edit {life : Life} (h : life.Good) (queueId editId : Uuid) (edit : Edit)
    (added : Option Added) : (life.step (.edit queueId editId edit added)).Good := by
  have hunchanged : ∀ {answer : Except EditError Applied},
      apply life.account queueId editId edit added = (answer, life.account, []) →
        life.step (.edit queueId editId edit added) = life := by
    intro answer he
    simp only [step, he, List.map_nil, List.append_nil]
  obtain ⟨-, he⟩ | ⟨a, ha, ⟨-, he⟩ | ⟨-, done, -, he⟩ | ⟨-, -, error, -, he⟩ |
    ⟨hid, hnew, hok, he⟩⟩ := apply_cases h.valid queueId editId edit added
  · rw [hunchanged he]
    exact h
  · rw [hunchanged he]
    exact h
  · rw [hunchanged he]
    exact h
  · rw [hunchanged he]
    exact h
  obtain ⟨queue, hqueue, hsame, hstate, hversion, hversions⟩ := h.active a ha
  have hdone := h.done a ha
  simp only [step, he]
  refine ⟨fun hnone => by (cases hnone), ?_, ?_, ?_, ?_⟩
  · intro account haccount
    cases haccount
    refine ⟨queue, hqueue, hsame, ?_, ?_, ?_⟩
    · simp only [List.map_append, List.map_cons, List.map_nil, List.foldl_append, List.foldl_cons,
        List.foldl_nil, ← hstate]
    · simp only [List.length_append, List.length_cons, List.length_nil, Nat.zero_add]
      rw [hversion, ofNat_succ]
    · simp only [List.map_append, List.map_cons, List.map_nil, List.length_append, List.length_cons,
        List.length_nil, Nat.zero_add, List.range_succ, hversions]
      rw [hversion, ofNat_succ]
  · intro account haccount
    cases haccount
    simp only [List.map_cons, List.map_nil]
    rw [hdone]
    exact JewelCase.Library.remember_rtake (by decide) life.applied _
  · simp only [List.map_append, List.map_cons, List.map_nil]
    refine h.spread.append fun hin => ?_
    rw [List.rtake, List.length_map, ← List.map_drop, ← List.rtake, ← hdone] at hin
    obtain ⟨done, hmem, heq⟩ := List.mem_map.mp hin
    rw [Account.remembered, List.find?_eq_none] at hnew
    exact hnew done hmem (by simpa using heq)
  · intro account haccount
    cases haccount
    exact ((h.valid a ha).keeps_edited edit).valid

theorem Good.activate {life : Life} (h : life.Good) (queue : Queue) (hvalid : queue.state.Valid)
    (place : Option Position) (lists : HeldLists) : (life.activate queue place lists).Good := by
  cases ha : life.account with
  | none =>
    obtain ⟨-, happlied⟩ := h.empty ha
    have he : life.activate queue place lists =
        ⟨some { Account.fromQueue queue with lists }, some queue, [], life.applied⟩ := by
      rw [Life.activate, ha]
      rfl
    rw [he]
    refine ⟨fun hnone => by (cases hnone), ?_, ?_, h.spread, ?_⟩
    · intro account haccount
      cases haccount
      exact ⟨queue, rfl, rfl, rfl, (UInt32.add_zero _).symm, rfl⟩
    · intro account haccount
      cases haccount
      rw [happlied]
      rfl
    · intro account haccount
      cases haccount
      exact hvalid
  | some a =>
    have he : life.activate queue place lists =
        ⟨some { a.parkFor queue place with lists }, some queue, [], life.applied⟩ := by
      rw [Life.activate, ha]
      rfl
    rw [he]
    refine ⟨fun hnone => by (cases hnone), ?_, ?_, h.spread, ?_⟩
    · intro account haccount
      cases haccount
      exact ⟨queue, rfl, rfl, rfl, (UInt32.add_zero _).symm, rfl⟩
    · intro account haccount
      cases haccount
      exact h.done a ha
    · intro account haccount
      cases haccount
      exact hvalid

theorem run_good (events : List Event) : (run events).Good := by
  induction events using List.reverseRecOn with
  | nil =>
    exact ⟨fun _ => ⟨rfl, rfl⟩, fun _ h => by (cases h), fun _ h => by (cases h), spread_nil _,
      fun _ h => by (cases h)⟩
  | append_singleton events event ih =>
    rw [run, List.foldl_append]
    cases event with
    | edit queueId editId edit added => exact ih.edit queueId editId edit added
    | activate queueId version context calls position place lists =>
      exact ih.activate _ (QueueState.run_valid calls) place lists

/-- In every run, a call that is refused changes and announces nothing. One whose ID is among the
latest 32 applied to the account answers as it did then, and changes and announces nothing. Every
other call applies its edit, announces it once and makes the next version. The active queue is then
the one that became active, with the edits announced since applied in order, and its version as many
later. No ID is applied again among the next 32. -/
theorem edits_numbered (events : List Event) (queueId editId : Uuid) (edit : Edit)
    (added : Option Added) :
    ((∀ error, (apply (run events).account queueId editId edit added).1 = .error error →
        (apply (run events).account queueId editId edit added).2 = ((run events).account, [])) ∧
      ((apply (run events).account queueId editId edit added).1 = .error .noQueue ↔
        (run events).account = none) ∧
      ((apply (run events).account queueId editId edit added).1 = .error .changed ↔
        ∃ account ∈ (run events).account, account.queueId ≠ queueId)) ∧
    (∀ account ∈ (run events).account, account.queueId = queueId →
      (∀ done ∈ (run events).applied.rtake REMEMBERED, done.editId = editId →
        answered (run events).account queueId editId = some ⟨done.version, done.source⟩ ∧
        apply (run events).account queueId editId edit added =
          (.ok ⟨done.version, done.source⟩, (run events).account, [])) ∧
      ((∀ done ∈ (run events).applied.rtake REMEMBERED, done.editId ≠ editId) →
        (∀ error, (account.state.apply edit).1 = .error error →
          (apply (run events).account queueId editId edit added).1 = .error (.refused error)) ∧
        ((account.state.apply edit).1 = .ok () →
          apply (run events).account queueId editId edit added =
            (.ok ⟨account.version + 1, addedSource edit⟩, some { account with
              state := edited account.state edit
              lists := holdAdded account.lists added
              version := account.version + 1
              done := remember REMEMBERED account.done ⟨editId, account.version + 1, addedSource edit⟩
              changed := true }, [(account.version + 1, edit)])))) ∧
    (∀ account ∈ (run events).account, ∃ queue ∈ (run events).origin,
      account.queueId = queue.queueId ∧
      account.state = ((run events).announced.map Prod.snd).foldl edited queue.state ∧
      account.version = queue.version + UInt32.ofNat (run events).announced.length ∧
      (run events).announced.map Prod.fst =
        (List.range (run events).announced.length).map fun i => queue.version + UInt32.ofNat (i + 1)) ∧
    Spread REMEMBERED ((run events).applied.map (·.editId)) := by
  have h := run_good events
  refine ⟨⟨?_, ?_, ?_⟩, ?_, h.active, h.spread⟩
  · intro error herror
    obtain ⟨-, he⟩ | ⟨a, ha, ⟨-, he⟩ | ⟨-, done, -, he⟩ | ⟨-, -, error', -, he⟩ |
      ⟨-, -, -, he⟩⟩ := apply_cases h.valid queueId editId edit added
    · rw [he]
    · rw [he]
    · rw [he] at herror
      cases herror
    · rw [he]
    · rw [he] at herror
      cases herror
  · obtain ⟨hnone, he⟩ | ⟨a, ha, ⟨-, he⟩ | ⟨-, done, -, he⟩ | ⟨-, -, error', -, he⟩ |
      ⟨-, -, -, he⟩⟩ := apply_cases h.valid queueId editId edit added
    · rw [he]
      simp [hnone]
    all_goals
      rw [he]
      simp [Option.mem_def.mp ha]
  · obtain ⟨hnone, he⟩ | ⟨a, ha, ⟨hid, he⟩ | ⟨hid, done, -, he⟩ | ⟨hid, -, error', -, he⟩ |
      ⟨hid, -, -, he⟩⟩ := apply_cases h.valid queueId editId edit added
    · rw [he]
      simp [hnone]
    all_goals
      rw [he]
      simp [Option.mem_def.mp ha, hid]
  · intro account haccount hid
    have hdone := h.done account haccount
    rw [Option.mem_def] at haccount
    constructor
    · intro done hmem heq
      have hremembered : account.remembered editId = some done := by
        rw [← hdone] at hmem
        cases hfound : account.remembered editId with
        | none =>
          rw [Account.remembered, List.find?_eq_none] at hfound
          exact absurd (by simpa using heq) (hfound done hmem)
        | some found =>
          have hmem' := List.mem_of_find?_eq_some hfound
          have heq' : found.editId = editId := by simpa using List.find?_some hfound
          rw [hdone] at hmem hmem'
          rw [h.spread.eq_of_rtake hmem' hmem (heq'.trans heq.symm)]
      constructor
      · rw [answered, haccount, Option.filter_some, if_pos (by simpa using hid), Option.bind_some,
          hremembered]
        rfl
      · simp [apply, haccount, hid, hremembered]
    · intro hnew
      have hforgotten : account.remembered editId = none := by
        rw [Account.remembered, List.find?_eq_none]
        intro done hmem
        rw [hdone] at hmem
        simpa using hnew done hmem
      obtain ⟨hnone, -⟩ | ⟨a, ha, ⟨hne, -⟩ | ⟨-, done, hsome, -⟩ | ⟨-, -, error', hrefused, he⟩ |
        ⟨-, -, hok, he⟩⟩ := apply_cases h.valid queueId editId edit added
      · rw [haccount] at hnone
        cases hnone
      all_goals
        rw [Option.mem_def, haccount] at ha
        cases ha
      · exact absurd hid hne
      · rw [hforgotten] at hsome
        cases hsome
      · refine ⟨fun error herror => ?_, fun hok => ?_⟩
        · rw [hrefused] at herror
          cases herror
          rw [he]
        · rw [hrefused] at hok
          cases hok
      · refine ⟨fun error herror => ?_, fun _ => he⟩
        rw [hok] at herror
        cases herror

/-- An ID that the account applied to another queue is answered without its edit, and the version
after the last of 32 bits is 0. -/
theorem remembered_elsewhere :
    let life := run [.activate "A" 0 "" [.start ⟨"a", "", none, 2, none⟩ 0] none none .empty,
      .edit "A" "e" .next none,
      .activate "B" 0 "" [.start ⟨"b", "", none, 2, none⟩ 0] none none .empty]
    let loaded := run [.activate "A" 4294967295 "" [.start ⟨"a", "", none, 2, none⟩ 0] none none .empty]
    (life.announced = [] ∧ (apply life.account "B" "e" .next none).1 = .ok ⟨1, none⟩ ∧
      (apply life.account "B" "e" .next none).2.2 = []) ∧
    (apply loaded.account "A" "e" .next none).1 = .ok ⟨0, none⟩ := by
  decide +kernel

end Life

end JewelCase.Queues
