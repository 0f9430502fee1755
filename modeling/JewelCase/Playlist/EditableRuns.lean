import JewelCase.Library.Optimistic
import JewelCase.Playlist.Editable

/-!
# What an edited playlist shows and sends

What is shown is what is confirmed with the queued edits made to it, in order, whatever comes
between. One request is under way at a time, of the oldest edit and against the version confirmed
last. An array shown is never shown again once another was, so an undo acts on the array its edit
left, or not at all.
-/
namespace JewelCase.Editing

set_option autoImplicit false

open Playlist.Web
open Library.Optimistic

namespace EditablePlaylist

variable {s : EditablePlaylist}

/-! ### The parts of a step -/

@[simp] theorem enqueue_queue (next : Pending) (after : List PlaylistItem) :
    (s.enqueue next after).queue = s.queue ++ [next] := by
  unfold enqueue
  dsimp only
  split <;> rfl

@[simp] theorem enqueue_confirmed (next : Pending) (after : List PlaylistItem) :
    (s.enqueue next after).confirmed = s.confirmed := by
  unfold enqueue
  dsimp only
  split <;> rfl

@[simp] theorem enqueue_sending (next : Pending) (after : List PlaylistItem) :
    (s.enqueue next after).sending = s.sending := by
  unfold enqueue
  dsimp only
  split <;> rfl

@[simp] theorem enqueue_undos (next : Pending) (after : List PlaylistItem) :
    (s.enqueue next after).undos = s.undos := by
  unfold enqueue
  dsimp only
  split <;> rfl

/-- What an edit shows is what its ops leave. -/
theorem enqueue_items {next : Pending} {after : List PlaylistItem}
    (h : next.apply s.items.items = .ok after) :
    (s.enqueue next after).items.items = after := by
  unfold enqueue
  dsimp only
  cases hops : next.change.ops with
  | none =>
    rw [Pending.apply, hops, Except.ok.injEq] at h
    exact h
  | some ops => rfl

/-- A send changes only where sending is. -/
theorem send_eq (s : EditablePlaylist) : s.send.1 = { s with sending := s.send.1.sending } := by
  unfold send
  split
  · unfold ask
    split <;> rfl
  · rfl

theorem ask_eq (s : EditablePlaylist) (attempt : Nat) :
    (s.ask attempt).1 = { s with sending := (s.ask attempt).1.sending } := by
  unfold ask
  split <;> rfl

/-- The edit that an edit's call queues, where its ops apply. -/
theorem makeEdit_eq (change : PlaylistChange) (resolve : Resolve Playable PlaylistItem)
    (key : String) :
    (∃ e, (⟨change, key, resolve⟩ : Pending).apply s.items.items = .error e ∧
        s.makeEdit change resolve key = .error e) ∨
      ∃ after undo, (⟨change, key, resolve⟩ : Pending).apply s.items.items = .ok after ∧
        s.makeEdit change resolve key = .ok ((s.enqueue ⟨change, key, resolve⟩ after).send.1,
          (s.enqueue ⟨change, key, resolve⟩ after).send.2, undo) ∧
        undo.after = (s.enqueue ⟨change, key, resolve⟩ after).items ∧
        (⟨undo.undo, key, undo.resolve⟩ : Pending).apply after = .ok s.items.items := by
  cases happly : (⟨change, key, resolve⟩ : Pending).apply s.items.items with
  | error e =>
    refine .inl ⟨e, rfl, ?_⟩
    unfold makeEdit
    simp only [happly]
  | ok after =>
    right
    obtain ⟨inv, hinv, hback⟩ : ∃ inv, inverse s.items.items change resolve = .ok inv ∧
        applyOps inv.resolve after inv.ops = .ok s.items.items := by
      unfold inverse
      cases hops : change.ops with
      | none =>
        rw [Pending.apply, hops, Except.ok.injEq] at happly
        exact ⟨⟨[], resolve⟩, rfl, congrArg _ happly.symm⟩
      | some ops =>
        rw [Pending.apply, hops] at happly
        exact undo_restores _ _ _ _ toPlayable happly
    refine ⟨after, ⟨(s.enqueue ⟨change, key, resolve⟩ after).send.1.items,
      undoOf s.playlist change inv, inv.resolve⟩, rfl, ?_, ?_, ?_⟩
    · unfold makeEdit
      simp only [happly, hinv]
    · rw [send_eq]
    · simp only [Pending.apply, undoOf]
      by_cases hempty : inv.ops.isEmpty
      · rw [if_pos hempty]
        rw [List.isEmpty_iff.mp hempty] at hback
        exact hback
      · rw [if_neg hempty]
        exact hback

/-! ### What a step does -/

/-- Whether an input answers what is awaited from the server. -/
def answered (s : EditablePlaylist) : Input → Bool
  | .answer _ => match s.sending with
    | .asking _ _ _ => true
    | _ => false
  | .loaded _ => match s.sending with
    | .reloading _ => true
    | _ => false
  | _ => false

/-- The edit an input makes, where it makes one. -/
def made (s : EditablePlaylist) : Input → List Pending
  | .edit change tracks addedAt key =>
    match s.makeEdit change (resolveAdded tracks addedAt) key with
    | .error _ => []
    | .ok _ => [⟨change, key, resolveAdded tracks addedAt⟩]
  | .undo n key =>
    match s.undos[n]? with
    | none => []
    | some undo =>
      if s.items.array ≠ undo.after.array ∨ undo.undo = {} then []
      else
        match s.makeEdit undo.undo undo.resolve key with
        | .error _ => []
        | .ok _ => [⟨undo.undo, key, undo.resolve⟩]
  | _ => []

/-- What becomes of edits by an input: the one asked for is confirmed, or all are dropped. -/
def fates (s : EditablePlaylist) : Input → List (Fate Pending)
  | .answer (.ok _) => match s.sending with
    | .asking next _ _ => [.confirmed next]
    | _ => []
  | .answer (.error e) => match s.sending with
    | .asking _ _ _ => if unreachable e ∨ versionConflict e then [] else [.dropped s.queue]
    | _ => []
  | .loaded _ => match s.sending with
    | .reloading _ => [.dropped s.queue]
    | _ => []
  | _ => []

/-- Where sending is agrees with what is queued and confirmed. -/
def Sends (s : EditablePlaylist) : Prop :=
  match s.sending with
  | .idle => s.queue = []
  | .asking next base _ => base = s.confirmed ∧ ∃ rest, s.queue = next :: rest
  | .waiting _ _ => s.queue ≠ []
  | .reloading _ => s.queue ≠ []

/-- What holds of every playlist edited here. -/
structure Inv (s : EditablePlaylist) : Prop where
  shows : Draft.Shows Pending.apply ⟨s.confirmed.items, s.queue⟩ s.items.items
  presents : s.playlist = presented s.confirmed.playlist s.queue s.items.items
  sends : s.Sends

/-- Everything a step can do. -/
inductive Stepped (s : EditablePlaylist) :
    Input → EditablePlaylist × List Output → List Pending → List (Fate Pending) → Prop where
  | still {input : Input} {outputs : List Output} (hno : ∀ r, Output.request r ∉ outputs)
    (hn : s.answered input = false) : Stepped s input (s, outputs) [] []
  | made {input : Input} {next : Pending} {after : List PlaylistItem} (undos : List Undo)
    (happly : next.apply s.items.items = .ok after) (hn : s.answered input = false) :
    Stepped s input ({ (s.enqueue next after).send.1 with undos := s.undos ++ undos },
      (s.enqueue next after).send.2) [next] []
  | confirmed {next : Pending} {base : LoadedPlaylist} {attempt : Nat} (p : Playlist)
    {items : List PlaylistItem} (hs : s.sending = .asking next base attempt)
    (happly : next.apply base.items = .ok items) :
    Stepped s (.answer (.ok p))
      (ask (present { s with confirmed := ⟨p, items⟩, queue := s.queue.tail }) 0) []
      [.confirmed next]
  | lost {next : Pending} {base : LoadedPlaylist} {attempt : Nat} {e : Failure} (ms : Nat)
    (hs : s.sending = .asking next base attempt) (he : unreachable e = true) :
    Stepped s (.answer (.error e)) ({ s with sending := .waiting ms (attempt + 1) }, []) [] []
  | conflict {next : Pending} {base : LoadedPlaylist} {attempt : Nat} {e : Failure}
    (hs : s.sending = .asking next base attempt) (he : unreachable e = false) :
    Stepped s (.answer (.error e)) ({ s with sending := .reloading attempt }, []) [] []
  | refused {next : Pending} {base : LoadedPlaylist} {attempt : Nat} {e : Failure}
    (message : String) (hs : s.sending = .asking next base attempt) (he : unreachable e = false) :
    Stepped s (.answer (.error e)) ((s.reset.ask attempt).1,
      .toast message :: (s.reset.ask attempt).2) [] [.dropped s.queue]
  | woken {ms attempt : Nat} (hs : s.sending = .waiting ms attempt) :
    Stepped s .wake (s.ask attempt) [] []
  | reloaded {attempt : Nat} (loaded : Option LoadedPlaylist) (message : String)
    (hs : s.sending = .reloading attempt) :
    Stepped s (.loaded loaded)
      (((reset { s with confirmed := loaded.getD s.confirmed }).ask attempt).1,
        .toast message :: ((reset { s with confirmed := loaded.getD s.confirmed }).ask attempt).2)
      [] [.dropped s.queue]

/-- **What a step does**: it is one of these. -/
theorem Inv.stepped (h : s.Inv) (input : Input) :
    Stepped s input (s.step input) (s.made input) (s.fates input) := by
  cases input with
  | edit change tracks addedAt key =>
    rcases @makeEdit_eq s change (resolveAdded tracks addedAt) key with
      ⟨e, -, hmake⟩ | ⟨after, undo, happly, hmake, -, -⟩
    · simp only [step, edit, EditablePlaylist.made, fates, hmake]
      exact .still (by simp) rfl
    · simp only [step, edit, EditablePlaylist.made, fates, hmake]
      have hundos : (s.enqueue ⟨change, key, resolveAdded tracks addedAt⟩ after).send.1.undos =
          s.undos := by rw [send_eq, enqueue_undos]
      rw [hundos]
      exact .made [undo] happly rfl
  | undo n key =>
    cases hundo : s.undos[n]? with
    | none =>
      simp only [step, EditablePlaylist.made, fates, hundo]
      exact .still (by simp) rfl
    | some undo =>
      simp only [step, callUndo, EditablePlaylist.made, fates, hundo]
      split
      · exact .still (by simp) rfl
      · rcases @makeEdit_eq s undo.undo undo.resolve key with
          ⟨e, -, hmake⟩ | ⟨after, undone, happly, hmake, -, -⟩
        · simp only [hmake]
          exact .still (by simp) rfl
        · simp only [hmake]
          have hundos : (s.enqueue ⟨undo.undo, key, undo.resolve⟩ after).send.1.undos =
              s.undos ++ [] := by rw [send_eq, enqueue_undos, List.append_nil]
          have hstep := @Stepped.made s (.undo n key) _ _ [] happly rfl
          rw [← hundos] at hstep
          exact hstep
  | answer answer =>
    cases hs : s.sending with
    | asking next base attempt =>
      obtain ⟨hbase, rest, hqueue⟩ : base = s.confirmed ∧ ∃ rest, s.queue = next :: rest := by
        have hsends := h.sends
        rw [Sends, hs] at hsends
        exact hsends
      cases answer with
      | ok p =>
        have hshows := h.shows
        rw [hqueue] at hshows
        obtain ⟨items, happly, -⟩ := hshows.confirm
        rw [← hbase] at happly
        simp only [step, EditablePlaylist.made, fates, hs, EditablePlaylist.confirm, happly]
        exact .confirmed p hs happly
      | error e =>
        simp only [step, EditablePlaylist.made, fates, hs, refuse]
        cases hun : unreachable e with
        | true =>
          simp only [if_true, true_or]
          exact .lost _ hs hun
        | false =>
          cases hconflict : versionConflict e with
          | true =>
            simp only [Bool.false_eq_true, if_false, if_true, or_true]
            exact .conflict hs hun
          | false =>
            simp only [Bool.false_eq_true, if_false, or_self]
            exact .refused _ hs hun
    | idle | waiting _ _ | reloading _ =>
      cases answer <;> simp only [step, EditablePlaylist.made, fates, hs] <;>
        exact .still (by simp) (by simp only [answered, hs])
  | wake =>
    cases hs : s.sending with
    | waiting ms attempt =>
      simp only [step, EditablePlaylist.made, fates, hs]
      exact .woken hs
    | idle | asking _ _ _ | reloading _ =>
      simp only [step, EditablePlaylist.made, fates, hs]
      exact .still (by simp) rfl
  | loaded loaded =>
    cases hs : s.sending with
    | reloading attempt =>
      simp only [step, EditablePlaylist.made, fates, hs, EditablePlaylist.reloaded]
      exact .reloaded loaded _ hs
    | idle | asking _ _ _ | waiting _ _ =>
      simp only [step, EditablePlaylist.made, fates, hs]
      exact .still (by simp) (by simp only [answered, hs])

/-! ### What holds of every playlist -/

theorem ask_sends (s : EditablePlaylist) (attempt : Nat) : (s.ask attempt).1.Sends := by
  unfold ask
  split
  · assumption
  · rename_i next rest hqueue
    exact ⟨rfl, rest, hqueue⟩

/-- A turn of the loop leaves what is shown. -/
theorem inv_ask (attempt : Nat)
    (hshows : Draft.Shows Pending.apply ⟨s.confirmed.items, s.queue⟩ s.items.items)
    (hpresents : s.playlist = presented s.confirmed.playlist s.queue s.items.items) :
    (s.ask attempt).1.Inv := by
  refine ⟨?_, ?_, ask_sends s attempt⟩
  · rw [ask_eq]
    exact hshows
  · rw [ask_eq]
    exact hpresents

theorem inv_reset_ask (s : EditablePlaylist) (attempt : Nat) : (s.reset.ask attempt).1.Inv :=
  inv_ask attempt rfl rfl

/-- Sending goes on as it was, or begins, with an edit more in the queue. -/
theorem sends_enqueue (h : s.Sends) (next : Pending) (after : List PlaylistItem) :
    (s.enqueue next after).send.1.Sends := by
  unfold send
  rw [enqueue_sending]
  cases hs : s.sending with
  | idle => exact ask_sends _ 0
  | asking first base attempt =>
    rw [Sends, hs] at h
    obtain ⟨hbase, rest, hqueue⟩ := h
    simp only [Sends, enqueue_sending, hs, enqueue_confirmed, enqueue_queue, hqueue]
    exact ⟨hbase, rest ++ [next], rfl⟩
  | waiting ms attempt =>
    simp only [Sends, enqueue_sending, hs, enqueue_queue]
    exact List.append_ne_nil_of_right_ne_nil _ (List.cons_ne_nil _ _)
  | reloading attempt =>
    simp only [Sends, enqueue_sending, hs, enqueue_queue]
    exact List.append_ne_nil_of_right_ne_nil _ (List.cons_ne_nil _ _)

theorem enqueue_presents (s : EditablePlaylist) (next : Pending) (after : List PlaylistItem) :
    (s.enqueue next after).playlist = presented (s.enqueue next after).confirmed.playlist
      (s.enqueue next after).queue (s.enqueue next after).items.items := by
  unfold enqueue
  dsimp only
  split <;> rfl

/-- **A step leaves what is shown as what is confirmed with what is pending made to it.** -/
theorem Stepped.inv (h : s.Inv) {input : Input} {r : EditablePlaylist × List Output}
    {made : List Pending} {fates : List (Fate Pending)} (hstep : Stepped s input r made fates) :
    r.1.Inv := by
  cases hstep with
  | still _ _ => exact h
  | @made _ next after undos happly _ =>
    refine ⟨?_, ?_, ?_⟩
    · rw [send_eq]
      simp only [enqueue_confirmed, enqueue_queue, enqueue_items happly]
      exact h.shows.make happly
    · rw [send_eq]
      exact enqueue_presents s next after
    · exact sends_enqueue h.sends next after
  | confirmed p hs happly =>
    have hsends := h.sends
    rw [Sends, hs] at hsends
    obtain ⟨rfl, rest, hqueue⟩ := hsends
    have hshows := h.shows
    rw [hqueue] at hshows
    obtain ⟨items, hitems, hshown⟩ := hshows.confirm
    rw [happly, Except.ok.injEq] at hitems
    subst hitems
    refine inv_ask 0 ?_ rfl
    rw [hqueue]
    exact hshown
  | lost ms hs he =>
    have hsends := h.sends
    rw [Sends, hs] at hsends
    obtain ⟨-, rest, hqueue⟩ := hsends
    refine ⟨h.shows, h.presents, ?_⟩
    show s.queue ≠ []
    rw [hqueue]
    exact List.cons_ne_nil _ _
  | conflict hs he =>
    have hsends := h.sends
    rw [Sends, hs] at hsends
    obtain ⟨-, rest, hqueue⟩ := hsends
    refine ⟨h.shows, h.presents, ?_⟩
    show s.queue ≠ []
    rw [hqueue]
    exact List.cons_ne_nil _ _
  | @refused _ _ attempt _ message hs he => exact inv_reset_ask s attempt
  | woken hs => exact inv_ask _ h.shows h.presents
  | @reloaded attempt loaded message hs => exact inv_reset_ask _ attempt

theorem inv_new (loaded : LoadedPlaylist) : (new loaded).Inv := ⟨rfl, rfl, rfl⟩

theorem Inv.runFrom (h : s.Inv) (inputs : List Input) : (s.runFrom inputs).Inv := by
  induction inputs generalizing s with
  | nil => exact h
  | cons input inputs ih => exact ih ((h.stepped input).inv h)

theorem run_inv (loaded : LoadedPlaylist) (inputs : List Input) : (run loaded inputs).Inv :=
  (inv_new loaded).runFrom inputs

/-! ### What became of the edits -/

/-- A step is one of a draft. -/
theorem Stepped.moved (h : s.Inv) {input : Input} {r : EditablePlaylist × List Output}
    {made : List Pending} {fates : List (Fate Pending)} (hstep : Stepped s input r made fates) :
    Draft.Moved Pending.apply ⟨s.confirmed.items, s.queue⟩ made fates
      ⟨r.1.confirmed.items, r.1.queue⟩ := by
  cases hstep with
  | still _ _ => exact .stay _
  | made undos happly _ =>
    rw [send_eq]
    simp only [enqueue_confirmed, enqueue_queue]
    exact .make _ _
  | confirmed p hs happly =>
    have hsends := h.sends
    rw [Sends, hs] at hsends
    obtain ⟨rfl, rest, hqueue⟩ := hsends
    rw [ask_eq, hqueue]
    exact .confirm rest happly
  | lost ms hs he => exact .stay _
  | conflict hs he => exact .stay _
  | @refused next base attempt e message hs he =>
    show Draft.Moved _ _ _ _
      ⟨(s.reset.ask attempt).1.confirmed.items, (s.reset.ask attempt).1.queue⟩
    rw [ask_eq]
    exact .drop _ _
  | woken hs =>
    rw [ask_eq]
    exact .stay _
  | @reloaded attempt loaded message hs =>
    show Draft.Moved _ _ _ _
      ⟨((reset { s with confirmed := loaded.getD s.confirmed }).ask attempt).1.confirmed.items,
        ((reset { s with confirmed := loaded.getD s.confirmed }).ask attempt).1.queue⟩
    rw [ask_eq]
    exact .drop _ _

/-- The edits that `inputs` make, in order. -/
def madeBy (s : EditablePlaylist) : List Input → List Pending
  | [] => []
  | input :: inputs => s.made input ++ (s.step input).1.madeBy inputs

/-- What becomes of the edits by `inputs`, in order. -/
def fatesBy (s : EditablePlaylist) : List Input → List (Fate Pending)
  | [] => []
  | input :: inputs => s.fates input ++ (s.step input).1.fatesBy inputs

theorem Inv.accounts (h : s.Inv) {made : List Pending} {fates : List (Fate Pending)}
    (hacc : Accounts made fates s.queue) (inputs : List Input) :
    Accounts (made ++ s.madeBy inputs) (fates ++ s.fatesBy inputs) (s.runFrom inputs).queue := by
  induction inputs generalizing s made fates with
  | nil =>
    rw [madeBy, fatesBy, List.append_nil, List.append_nil]
    exact hacc
  | cons input inputs ih =>
    have hstep := h.stepped input
    rw [madeBy, fatesBy, ← List.append_assoc, ← List.append_assoc]
    exact ih (hstep.inv h) (Accounts.moved hacc (hstep.moved h))

/-! ### What is sent -/

/-- What passes between the playlist and the server: an answer that is awaited, or a request. -/
inductive Entry where
  | got (input : Input)
  | did (output : Output)

/-- What passes as `inputs` are taken. -/
def trace (s : EditablePlaylist) : List Input → List Entry
  | [] => []
  | input :: inputs =>
    (if s.answered input then [Entry.got input] else []) ++ (s.step input).2.map Entry.did ++
      (s.step input).1.trace inputs

/-- What the requests and answers so far tell: the version they left the playlist at, the request
under way, and the last request where its answer was lost. -/
structure Wire where
  version : Nat
  underway : Option Request
  lost : Option Request

def Wire.see (w : Wire) : Entry → Wire
  | .did (.request r) => ⟨w.version, some r, none⟩
  | .got (.answer (.ok p)) => ⟨p.version, none, none⟩
  | .got (.answer (.error e)) => ⟨w.version, none, if unreachable e then w.underway else none⟩
  | .got (.loaded (some loaded)) => { w with version := loaded.playlist.version }
  | _ => w

/-- Whether `r` may be sent now: nothing is under way, it is against the version left, and it is
the last request again where the answer to that was lost. -/
def Wire.Allows (w : Wire) (r : Request) : Prop :=
  w.underway = none ∧ r.baseVersion = w.version ∧ ∀ last, w.lost = some last → r = last

/-- Whether every request of `entries` may be sent when it is. -/
def Wire.AllowsAll (w : Wire) (entries : List Entry) : Prop :=
  ∀ before r after, entries = before ++ .did (.request r) :: after →
    (before.foldl Wire.see w).Allows r

theorem Wire.allowsAll_append {w : Wire} {xs ys : List Entry} (hx : w.AllowsAll xs)
    (hy : (xs.foldl Wire.see w).AllowsAll ys) : w.AllowsAll (xs ++ ys) := by
  intro before r after h
  rcases List.append_eq_append_iff.mp h with ⟨mid, hbefore, hys⟩ | ⟨mid, hxs, hmid⟩
  · rw [hbefore, List.foldl_append]
    exact hy mid r after hys
  · cases mid with
    | nil =>
      rw [List.append_nil] at hxs
      rw [← hxs]
      exact hy [] r after hmid.symm
    | cons entry mid =>
      obtain ⟨rfl, rfl⟩ := List.cons.inj hmid
      exact hx before r mid hxs

theorem Wire.allowsAll_nil (w : Wire) : w.AllowsAll [] := by
  intro before r after h
  cases before <;> cases h

theorem Wire.allowsAll_request {w : Wire} {r : Request} (h : w.Allows r) :
    w.AllowsAll [.did (.request r)] := by
  intro before r' after he
  cases before with
  | nil =>
    obtain ⟨he, -⟩ := List.cons.inj he
    cases he
    exact h
  | cons entry before =>
    obtain ⟨-, he⟩ := List.cons.inj he
    cases before <;> cases he

theorem Wire.allowsAll_quiet {w : Wire} {xs : List Entry}
    (h : ∀ r, Entry.did (.request r) ∉ xs) : w.AllowsAll xs := by
  rintro before r after rfl
  exact absurd (List.mem_append_right _ List.mem_cons_self) (h r)

/-- The request that the oldest edit is sent as. -/
def requestOf (confirmed : LoadedPlaylist) (next : Pending) : Request :=
  ⟨confirmed.playlist.libraryId, confirmed.playlist.id, next.change, confirmed.playlist.version,
    next.key⟩

/-- What passed agrees with where sending is. -/
def Wired (s : EditablePlaylist) (w : Wire) : Prop :=
  w.version = s.confirmed.playlist.version ∧
    match s.sending with
    | .idle => w.underway = none ∧ w.lost = none
    | .asking next _ _ => w.underway = some (requestOf s.confirmed next) ∧ w.lost = none
    | .waiting _ _ => w.underway = none ∧
      ∃ next rest, s.queue = next :: rest ∧ w.lost = some (requestOf s.confirmed next)
    | .reloading _ => w.underway = none ∧ w.lost = none

/-- A turn of the loop sends what may be sent. -/
theorem ask_wired {w : Wire} (attempt : Nat) (hversion : w.version = s.confirmed.playlist.version)
    (hunderway : w.underway = none)
    (hlost : ∀ next rest, s.queue = next :: rest → ∀ last, w.lost = some last →
      requestOf s.confirmed next = last)
    (hempty : s.queue = [] → w.lost = none) :
    w.AllowsAll ((s.ask attempt).2.map Entry.did) ∧
      Wired (s.ask attempt).1 (((s.ask attempt).2.map Entry.did).foldl Wire.see w) := by
  unfold ask
  split
  · rename_i hqueue
    exact ⟨w.allowsAll_nil, hversion, hunderway, hempty hqueue⟩
  · rename_i next rest hqueue
    refine ⟨Wire.allowsAll_request ⟨hunderway, hversion.symm, hlost next rest hqueue⟩,
      hversion, rfl, rfl⟩

theorem Wire.allowsAll_cons {w : Wire} {entry : Entry} {xs : List Entry}
    (h : ∀ r, entry ≠ .did (.request r)) (hx : (w.see entry).AllowsAll xs) :
    w.AllowsAll (entry :: xs) :=
  Wire.allowsAll_append (Wire.allowsAll_quiet fun r hr => h r (List.mem_singleton.mp hr).symm) hx

/-- What passes in one step. -/
def entries (s : EditablePlaylist) (input : Input) (outputs : List Output) : List Entry :=
  (if s.answered input then [Entry.got input] else []) ++ outputs.map Entry.did

/-- Whether a step sends what may be sent, and leaves what passed in agreement. -/
def WiredStep (s : EditablePlaylist) (w : Wire) (input : Input)
    (r : EditablePlaylist × List Output) : Prop :=
  w.AllowsAll (s.entries input r.2) ∧ Wired r.1 ((s.entries input r.2).foldl Wire.see w)

/-- An answer, then a turn of the loop with nothing left to ask again. -/
theorem wiredStep_answer {w : Wire} {input : Input} {s' : EditablePlaylist} {attempt : Nat}
    {toasts : List String} (hn : s.answered input = true)
    (hversion : (w.see (.got input)).version = s'.confirmed.playlist.version)
    (hunderway : (w.see (.got input)).underway = none)
    (hlost : (w.see (.got input)).lost = none) :
    s.WiredStep w input ((s'.ask attempt).1, toasts.map Output.toast ++ (s'.ask attempt).2) := by
  have htoasts : (toasts.map fun message => Entry.did (.toast message)).foldl Wire.see
      (w.see (.got input)) = w.see (.got input) := by
    induction toasts with
    | nil => rfl
    | cons message toasts ih => exact ih
  have hquiet : (w.see (.got input)).AllowsAll
      (toasts.map fun message => Entry.did (.toast message)) := by
    refine Wire.allowsAll_quiet fun r hr => ?_
    obtain ⟨message, -, he⟩ := List.mem_map.mp hr
    cases he
  have hask := @ask_wired s' (w.see (.got input)) attempt hversion hunderway
    (fun next rest _ last hlast => by rw [hlost] at hlast; cases hlast) fun _ => hlost
  have hentries : s.entries input (toasts.map Output.toast ++ (s'.ask attempt).2) =
      .got input :: ((toasts.map fun message => Entry.did (.toast message)) ++
        (s'.ask attempt).2.map Entry.did) := by
    rw [entries, hn, if_pos rfl, List.map_append, List.map_map]
    rfl
  rw [WiredStep, hentries, List.foldl_cons, List.foldl_append, htoasts]
  refine ⟨Wire.allowsAll_cons (fun r he => by cases he) (Wire.allowsAll_append hquiet ?_), hask.2⟩
  rw [htoasts]
  exact hask.1

/-- **A step sends what may be sent.** -/
theorem Stepped.wired (h : s.Inv) {w : Wire} (hw : s.Wired w) {input : Input}
    {r : EditablePlaylist × List Output} {made : List Pending} {fates : List (Fate Pending)}
    (hstep : Stepped s input r made fates) : s.WiredStep w input r := by
  obtain ⟨hversion, hwired⟩ := hw
  have hsends := h.sends
  cases hstep with
  | @still _ outputs hno hn =>
    have hquiet : (outputs.map Entry.did).foldl Wire.see w = w := by
      clear hn
      induction outputs with
      | nil => rfl
      | cons output outputs ih =>
        cases output with
        | request r => exact absurd List.mem_cons_self (hno r)
        | toast message => exact ih fun r hr => hno r (List.mem_cons_of_mem _ hr)
        | threw e => exact ih fun r hr => hno r (List.mem_cons_of_mem _ hr)
    rw [WiredStep, entries, hn, if_neg Bool.false_ne_true, List.nil_append, hquiet]
    refine ⟨Wire.allowsAll_quiet fun r hr => ?_, hversion, hwired⟩
    obtain ⟨output, ho, he⟩ := List.mem_map.mp hr
    cases he
    exact hno r ho
  | @made _ next after undos happly hn =>
    rw [WiredStep, entries, hn, if_neg Bool.false_ne_true, List.nil_append]
    show w.AllowsAll ((s.enqueue next after).send.2.map Entry.did) ∧
      Wired (s.enqueue next after).send.1 _
    unfold send
    rw [enqueue_sending]
    cases hs : s.sending with
    | idle =>
      rw [hs] at hwired
      refine ask_wired 0 (by rw [enqueue_confirmed]; exact hversion) hwired.1 ?_ fun _ => hwired.2
      intro first rest _ last hlast
      rw [hwired.2] at hlast
      cases hlast
    | asking first base attempt =>
      rw [hs] at hwired
      refine ⟨w.allowsAll_nil, by rw [enqueue_confirmed]; exact hversion, ?_⟩
      simp only [enqueue_sending, hs, enqueue_confirmed]
      exact hwired
    | waiting ms attempt =>
      rw [hs] at hwired
      obtain ⟨hunderway, first, rest, hqueue, hlost⟩ := hwired
      refine ⟨w.allowsAll_nil, by rw [enqueue_confirmed]; exact hversion, ?_⟩
      simp only [enqueue_sending, hs, enqueue_confirmed, enqueue_queue, hqueue]
      exact ⟨hunderway, first, rest ++ [next], rfl, hlost⟩
    | reloading attempt =>
      rw [hs] at hwired
      refine ⟨w.allowsAll_nil, by rw [enqueue_confirmed]; exact hversion, ?_⟩
      simp only [enqueue_sending, hs]
      exact hwired
  | @confirmed next base attempt p items hs happly =>
    exact @wiredStep_answer s w (.answer (.ok p)) _ 0 [] (by simp only [answered, hs]) rfl rfl rfl
  | @lost next base attempt e ms hs he =>
    rw [hs] at hwired
    rw [Sends, hs] at hsends
    obtain ⟨-, rest, hqueue⟩ := hsends
    have hn : s.answered (.answer (.error e)) = true := by simp only [answered, hs]
    rw [WiredStep, entries, hn, if_pos rfl, List.map_nil, List.append_nil]
    refine ⟨Wire.allowsAll_cons (fun r he => by cases he) (Wire.allowsAll_nil _), hversion, rfl,
      next, rest, hqueue, ?_⟩
    show (if unreachable e then w.underway else none) = _
    rw [he, if_pos rfl, hwired.1]
  | @conflict next base attempt e hs he =>
    have hn : s.answered (.answer (.error e)) = true := by simp only [answered, hs]
    rw [WiredStep, entries, hn, if_pos rfl, List.map_nil, List.append_nil]
    refine ⟨Wire.allowsAll_cons (fun r he => by cases he) (Wire.allowsAll_nil _), hversion, rfl, ?_⟩
    show (if unreachable e then w.underway else none) = none
    rw [he, if_neg Bool.false_ne_true]
  | @refused next base attempt e message hs he =>
    refine @wiredStep_answer s w (.answer (.error e)) s.reset attempt [message]
      (by simp only [answered, hs]) hversion rfl ?_
    show (if unreachable e then w.underway else none) = none
    rw [he, if_neg Bool.false_ne_true]
  | @woken ms attempt hs =>
    rw [hs] at hwired
    obtain ⟨hunderway, first, rest, hqueue, hlost⟩ := hwired
    refine ask_wired attempt hversion hunderway ?_ ?_
    · intro next rest' hqueue' last hlast
      rw [hqueue] at hqueue'
      obtain ⟨rfl, -⟩ := List.cons.inj hqueue'
      rw [hlost, Option.some.injEq] at hlast
      exact hlast
    · intro hempty
      rw [hqueue] at hempty
      cases hempty
  | @reloaded attempt loaded message hs =>
    rw [hs] at hwired
    have hn : s.answered (.loaded loaded) = true := by simp only [answered, hs]
    cases loaded with
    | none =>
      exact @wiredStep_answer s w _ (reset { s with confirmed := s.confirmed }) attempt [message]
        hn hversion hwired.1 hwired.2
    | some loaded =>
      exact @wiredStep_answer s w _ (reset { s with confirmed := loaded }) attempt [message] hn rfl
        hwired.1 hwired.2

/-- **Every request may be sent when it is.** -/
theorem Inv.allowsAll (h : s.Inv) {w : Wire} (hw : s.Wired w) (inputs : List Input) :
    w.AllowsAll (s.trace inputs) := by
  induction inputs generalizing s w with
  | nil => exact w.allowsAll_nil
  | cons input inputs ih =>
    have hstep := h.stepped input
    obtain ⟨hallows, hwired⟩ := hstep.wired h hw
    exact Wire.allowsAll_append hallows (ih (hstep.inv h) hwired)

/-- Whether a step's requests are all of the oldest edit then pending, which sending waits for. -/
def AsksOldest (r : EditablePlaylist × List Output) : Prop :=
  ∀ sent, .request sent ∈ r.2 → ∃ next rest attempt, r.1.queue = next :: rest ∧
    sent = requestOf r.1.confirmed next ∧ r.1.sending = .asking next r.1.confirmed attempt

theorem asksOldest_quiet {s : EditablePlaylist} {outputs : List Output}
    (hno : ∀ r, Output.request r ∉ outputs) : AsksOldest (s, outputs) :=
  fun r hr => absurd hr (hno r)

theorem ask_asksOldest (s : EditablePlaylist) (attempt : Nat) : AsksOldest (s.ask attempt) := by
  unfold ask
  split
  · exact asksOldest_quiet fun r hr => List.not_mem_nil hr
  · rename_i next rest hqueue
    intro sent hsent
    rw [List.mem_singleton, Output.request.injEq] at hsent
    exact ⟨next, rest, attempt, hqueue, hsent, rfl⟩

theorem AsksOldest.toast {r : EditablePlaylist × List Output} (h : AsksOldest r)
    (message : String) : AsksOldest (r.1, .toast message :: r.2) := by
  intro sent hsent
  rcases List.mem_cons.mp hsent with he | hsent
  · cases he
  · exact h sent hsent

/-- **A request is of the oldest edit pending**, and against what is confirmed. -/
theorem Stepped.asksOldest {input : Input} {r : EditablePlaylist × List Output}
    {made : List Pending} {fates : List (Fate Pending)} (hstep : Stepped s input r made fates) :
    AsksOldest r := by
  cases hstep with
  | still hno _ => exact asksOldest_quiet hno
  | @made _ next after undos _ _ =>
    have hsent : AsksOldest (s.enqueue next after).send := by
      unfold send
      split
      · exact ask_asksOldest _ 0
      · exact asksOldest_quiet fun r hr => List.not_mem_nil hr
    exact hsent
  | confirmed p hs happly => exact ask_asksOldest _ 0
  | lost ms hs he => exact asksOldest_quiet fun r hr => List.not_mem_nil hr
  | conflict hs he => exact asksOldest_quiet fun r hr => List.not_mem_nil hr
  | @refused _ _ attempt _ message hs he => exact (ask_asksOldest s.reset attempt).toast message
  | woken hs => exact ask_asksOldest s _
  | @reloaded attempt loaded message hs => exact (ask_asksOldest _ attempt).toast message

/-- Sending rests exactly where nothing is pending. -/
theorem Sends.idle_iff (h : s.Sends) : s.sending = .idle ↔ s.queue = [] := by
  rw [Sends] at h
  cases hs : s.sending with
  | idle =>
    rw [hs] at h
    exact ⟨fun _ => h, fun _ => rfl⟩
  | asking next base attempt =>
    rw [hs] at h
    obtain ⟨-, rest, hqueue⟩ := h
    simp [hqueue]
  | waiting ms attempt =>
    rw [hs] at h
    simp [h]
  | reloading attempt =>
    rw [hs] at h
    simp [h]

/-- What is asked for is the oldest edit pending, made to what is confirmed. -/
theorem Sends.asking (h : s.Sends) {next : Pending} {base : LoadedPlaylist} {attempt : Nat}
    (hs : s.sending = .asking next base attempt) :
    base = s.confirmed ∧ s.queue.head? = some next := by
  rw [Sends, hs] at h
  obtain ⟨hbase, rest, hqueue⟩ := h
  exact ⟨hbase, by rw [hqueue, List.head?_cons]⟩

/-! ### Undos -/

/-- What a step does to the array shown: nothing, or another takes its place. -/
theorem Stepped.shown {input : Input} {r : EditablePlaylist × List Output} {made : List Pending}
    {fates : List (Fate Pending)} (hstep : Stepped s input r made fates) :
    (r.1.items = s.items ∧ r.1.arrays = s.arrays ∨
        r.1.items.array = s.arrays ∧ r.1.arrays = s.arrays + 1) ∧
      ∃ more, r.1.undos = s.undos ++ more := by
  cases hstep with
  | still _ _ => exact ⟨.inl ⟨rfl, rfl⟩, [], (List.append_nil _).symm⟩
  | @made _ next after undos happly _ =>
    refine ⟨?_, undos, rfl⟩
    rw [send_eq]
    unfold enqueue
    cases hops : next.change.ops.isSome with
    | true => exact .inr ⟨rfl, rfl⟩
    | false => exact .inl ⟨rfl, rfl⟩
  | confirmed p hs happly =>
    rw [ask_eq]
    exact ⟨.inl ⟨rfl, rfl⟩, [], (List.append_nil _).symm⟩
  | lost ms hs he => exact ⟨.inl ⟨rfl, rfl⟩, [], (List.append_nil _).symm⟩
  | conflict hs he => exact ⟨.inl ⟨rfl, rfl⟩, [], (List.append_nil _).symm⟩
  | @refused _ _ attempt _ message hs he =>
    have hask := ask_eq s.reset attempt
    simp only
    rw [hask]
    exact ⟨.inr ⟨rfl, rfl⟩, [], (List.append_nil _).symm⟩
  | woken hs =>
    rw [ask_eq]
    exact ⟨.inl ⟨rfl, rfl⟩, [], (List.append_nil _).symm⟩
  | @reloaded attempt loaded message hs =>
    have hask := ask_eq (reset { s with confirmed := loaded.getD s.confirmed }) attempt
    simp only
    rw [hask]
    exact ⟨.inr ⟨rfl, rfl⟩, [], (List.append_nil _).symm⟩

/-- Whether `x` was shown, and is what is shown if its array is. -/
def WasShown (s : EditablePlaylist) (x : Shown) : Prop :=
  x.array < s.arrays ∧ (s.items.array = x.array → s.items = x)

/-- **What was shown** is shown still, or its array is never shown again; undos stay callable. -/
theorem Inv.wasShown (h : s.Inv) {x : Shown} (hx : s.WasShown x) (inputs : List Input) :
    (s.runFrom inputs).WasShown x ∧ ∃ more, (s.runFrom inputs).undos = s.undos ++ more := by
  induction inputs generalizing s with
  | nil => exact ⟨hx, [], (List.append_nil _).symm⟩
  | cons input inputs ih =>
    have hstep := h.stepped input
    obtain ⟨hshown, more, hundos⟩ := hstep.shown
    have hx' : (s.step input).1.WasShown x := by
      obtain ⟨hlt, hsame⟩ := hx
      rcases hshown with ⟨hitems, harrays⟩ | ⟨harray, harrays⟩
      · rw [WasShown, hitems, harrays]
        exact ⟨hlt, hsame⟩
      · refine ⟨by omega, fun he => ?_⟩
        omega
    obtain ⟨hlast, more', hundos'⟩ := ih (hstep.inv h) hx'
    refine ⟨hlast, more ++ more', ?_⟩
    rw [← List.append_assoc, ← hundos]
    exact hundos'

/-- An undo called while the array its edit left is shown brings back what it reverses to; else it
does nothing. -/
theorem callUndo_items {undo : Undo} {before : List PlaylistItem} (key : String)
    (hback : ∀ key, (⟨undo.undo, key, undo.resolve⟩ : Pending).apply undo.after.items = .ok before)
    (hshown : s.items.array = undo.after.array → s.items = undo.after) :
    (s.items.array ≠ undo.after.array → s.callUndo undo key = (s, [])) ∧
      (s.items.array = undo.after.array →
        s.items = undo.after ∧ (s.callUndo undo key).1.items.items = before) := by
  refine ⟨fun hne => by rw [callUndo, if_pos (.inl hne)], fun he => ⟨hshown he, ?_⟩⟩
  have hsame := hshown he
  rw [callUndo]
  by_cases hnothing : undo.undo = {}
  · rw [if_pos (.inr hnothing), hsame]
    have happly := hback key
    rw [hnothing, Pending.apply, Except.ok.injEq] at happly
    exact happly
  · rw [if_neg (not_or.mpr ⟨not_not.mpr he, hnothing⟩)]
    rcases @makeEdit_eq s undo.undo undo.resolve key with
      ⟨e, happly, -⟩ | ⟨after, undone, happly, hmake, -, -⟩
    · rw [hsame, hback key] at happly
      cases happly
    · rw [hmake]
      simp only
      rw [send_eq]
      rw [hsame, hback key, Except.ok.injEq] at happly
      rw [happly]
      refine enqueue_items ?_
      rw [hsame, hback key, happly]

/-- An edit's undo, called at any time later. -/
theorem Inv.edit_undo (h : s.Inv) {change : PlaylistChange} {tracks : List TrackSummary}
    {addedAt key : String} {made : EditablePlaylist × List Output × Undo}
    (hmade : s.makeEdit change (resolveAdded tracks addedAt) key = .ok made)
    (hops : change.ops.isSome) (more : List Input) (again : String) :
    let edited := (s.edit change tracks addedAt key).1
    let later := edited.runFrom more
    (later.items.array ≠ edited.items.array →
        later.step (.undo s.undos.length again) = (later, [])) ∧
      (later.items.array = edited.items.array → later.items = edited.items ∧
        (later.step (.undo s.undos.length again)).1.items.items = s.items.items) := by
  intro edited later
  obtain ⟨e, -, hfail⟩ | ⟨after, undo, happly, hmake, hafter, hback⟩ :=
    @makeEdit_eq s change (resolveAdded tracks addedAt) key
  · rw [hfail] at hmade
    cases hmade
  have hedited : edited = { (s.enqueue ⟨change, key, resolveAdded tracks addedAt⟩ after).send.1 with
      undos := s.undos ++ [undo] } := by
    show (s.edit change tracks addedAt key).1 = _
    rw [edit, hmake]
    simp only
    rw [send_eq, enqueue_undos]
  have hitems : edited.items = undo.after := by
    rw [hedited, hafter]
    simp only
    rw [send_eq]
  have hundos : edited.undos = s.undos ++ [undo] := by rw [hedited]
  have hinv : edited.Inv := (h.stepped (.edit change tracks addedAt key)).inv h
  have harrays : edited.items.array < edited.arrays := by
    have hshow : (s.enqueue ⟨change, key, resolveAdded tracks addedAt⟩ after).items.array <
        (s.enqueue ⟨change, key, resolveAdded tracks addedAt⟩ after).arrays := by
      unfold enqueue
      simp only [hops, if_true]
      exact Nat.lt_succ_self _
    rw [hedited]
    simp only
    rw [send_eq]
    exact hshow
  obtain ⟨hwas, more', hmore⟩ := hinv.wasShown ⟨harrays, fun _ => rfl⟩ more
  have hcalled : later.step (.undo s.undos.length again) = later.callUndo undo again := by
    have hget : later.undos[s.undos.length]? = some undo := by
      show (edited.runFrom more).undos[s.undos.length]? = _
      rw [hmore, hundos, List.append_assoc, List.getElem?_append_right (Nat.le_refl _), Nat.sub_self]
      rfl
    rw [step, hget]
  have hundo := @callUndo_items later undo s.items.items again (fun _ => by
    have hleft : undo.after.items = after := by rw [hafter, enqueue_items happly]
    rw [hleft]
    exact hback) (hitems ▸ hwas.2)
  rw [hcalled, hitems]
  exact hundo

/-- For every run: what is shown is what is confirmed with the queued edits made to it, in the order
they were made; sending rests exactly while no edit is queued, and each request is of the oldest
queued edit, with its key, for the playlist confirmed; a request is sent while none is under way,
against the version the last answer left, and the same again where its answer was lost; each input
makes an edit, confirms the oldest, drops all there are, or does neither, and each edit made is
pending or settled, in order; and an undo of an edit with ops, called at any later time, brings back
what was shown before the edit while what it left is shown, and else does nothing. -/
theorem shows_pending (loaded : LoadedPlaylist) (inputs : List Input) :
    let s := run loaded inputs
    replay Pending.apply s.confirmed.items s.queue = .ok s.items.items ∧
    s.playlist = presented s.confirmed.playlist s.queue s.items.items ∧
    (s.sending = .idle ↔ s.queue = []) ∧
    (∀ next base attempt, s.sending = .asking next base attempt →
      base = s.confirmed ∧ s.queue.head? = some next) ∧
    (∀ input, AsksOldest (s.step input)) ∧
    Wire.AllowsAll ⟨loaded.playlist.version, none, none⟩ ((new loaded).trace inputs) ∧
    (∀ input, Draft.Moved Pending.apply ⟨s.confirmed.items, s.queue⟩ (s.made input)
      (s.fates input) ⟨(s.step input).1.confirmed.items, (s.step input).1.queue⟩) ∧
    Accounts ((new loaded).madeBy inputs) ((new loaded).fatesBy inputs) s.queue ∧
    ∀ change tracks addedAt key made,
      s.makeEdit change (resolveAdded tracks addedAt) key = .ok made → change.ops.isSome →
      ∀ (more : List Input) (again : String),
        let edited := (s.edit change tracks addedAt key).1
        let later := edited.runFrom more
        (later.items.array ≠ edited.items.array →
          later.step (.undo s.undos.length again) = (later, [])) ∧
        (later.items.array = edited.items.array → later.items = edited.items ∧
          (later.step (.undo s.undos.length again)).1.items.items = s.items.items) := by
  intro s
  have h := run_inv loaded inputs
  refine ⟨h.shows, h.presents, h.sends.idle_iff, fun _ _ _ => h.sends.asking,
    fun input => (h.stepped input).asksOldest, ?_, fun input => (h.stepped input).moved h, ?_, ?_⟩
  · exact (inv_new loaded).allowsAll ⟨rfl, rfl, rfl⟩ inputs
  · have hnew : Accounts [] [] (new loaded).queue := rfl
    exact (inv_new loaded).accounts hnew inputs
  · intro change tracks addedAt key made hmade hops more again
    exact h.edit_undo hmade hops more again

/-- A playlist of one track, at version 3. -/
def oneTrack : LoadedPlaylist where
  playlist := ⟨"p", "l", 3, "Mornings", none, false, 1, 200000000, none⟩
  items := [⟨.track ⟨"a", 200000000⟩, "2026-01-01"⟩]

/-- Its track removed. -/
def emptied : PlaylistChange := { ops := some [.remove [0]] }

/-- The track is removed and the removal confirmed; the undo, called then, brings it back, and goes
to the server against the version the removal left. -/
theorem shows_pending_undone :
    let removed := (new oneTrack).step (.edit emptied [] "2026-01-02" "k1")
    let confirmed := { oneTrack.playlist with version := 4, trackCount := 0, durationUs := 0 }
    let later := removed.1.runFrom [.answer (.ok confirmed)]
    removed.2 = [.request ⟨"l", "p", emptied, 3, "k1"⟩] ∧ later.items.items = [] ∧
      (later.step (.undo 0 "k2")).1.items.items = oneTrack.items ∧
      ∃ change, (later.step (.undo 0 "k2")).2 = [.request ⟨"l", "p", change, 4, "k2"⟩] := by
  intro removed confirmed later
  have hone := shows_pending oneTrack []
  have hundo := (hone.2.2.2.2.2.2.2.2 emptied [] "2026-01-02" "k1" _ rfl rfl
    [.answer (.ok confirmed)] "k2").2 rfl
  exact ⟨rfl, rfl, hundo.2, _, rfl⟩

end EditablePlaylist

end JewelCase.Editing
