import Mathlib.Data.List.Basic

/-!
# Changes shown before they are confirmed

What is shown is what is confirmed with the pending changes made to it, in order. Making a change
makes it to what is shown, confirming the oldest leaves what is shown as it is, and dropping all of
them shows what is confirmed.
-/
namespace JewelCase.Library.Optimistic

set_option autoImplicit false

variable {σ ε θ : Type}

/-- What is confirmed, and the changes made to it that are not, oldest first. -/
structure Draft (σ ε : Type) where
  confirmed : σ
  pending : List ε

variable (apply : ε → σ → Except θ σ)

/-- `state` after `changes`. -/
def replay : σ → List ε → Except θ σ
  | state, [] => .ok state
  | state, change :: changes =>
    match apply change state with
    | .error e => .error e
    | .ok state => replay state changes

/-- Whether `state` is what `d` shows. -/
def Draft.Shows (d : Draft σ ε) (state : σ) : Prop :=
  replay apply d.confirmed d.pending = .ok state

/-- A change was confirmed, or all that were pending were dropped. -/
inductive Fate (ε : Type) where
  | confirmed (change : ε)
  | dropped (changes : List ε)

def Fate.settled : Fate ε → List ε
  | .confirmed change => [change]
  | .dropped changes => changes

/-- What can happen to a draft, with the changes made and those settled. -/
inductive Draft.Moved : Draft σ ε → List ε → List (Fate ε) → Draft σ ε → Prop where
  | stay (d : Draft σ ε) : Moved d [] [] d
  | make (d : Draft σ ε) (change : ε) : Moved d [change] [] ⟨d.confirmed, d.pending ++ [change]⟩
  | confirm {before after : σ} {change : ε} (rest : List ε) (h : apply change before = .ok after) :
    Moved ⟨before, change :: rest⟩ [] [.confirmed change] ⟨after, rest⟩
  | drop (d : Draft σ ε) (state : σ) : Moved d [] [.dropped d.pending] ⟨state, []⟩

variable {apply} {state after : σ} {change : ε} {changes rest : List ε}

theorem replay_append (h : replay apply state changes = .ok after) :
    replay apply state (changes ++ rest) = replay apply after rest := by
  induction changes generalizing state with
  | nil =>
    rw [replay, Except.ok.injEq] at h
    rw [List.nil_append, h]
  | cons change changes ih =>
    rw [List.cons_append, replay]
    rw [replay] at h
    cases hc : apply change state with
    | error e =>
      rw [hc] at h
      cases h
    | ok next =>
      rw [hc] at h
      exact ih h

/-- A change made to what is shown is shown. -/
theorem Draft.Shows.make {d : Draft σ ε} (h : d.Shows apply state)
    (hc : apply change state = .ok after) :
    Draft.Shows apply ⟨d.confirmed, d.pending ++ [change]⟩ after := by
  show replay apply _ _ = _
  rw [replay_append h, replay, hc]
  rfl

/-- The oldest change, once confirmed, is shown as before. -/
theorem Draft.Shows.confirm (h : Draft.Shows apply ⟨state, change :: rest⟩ after) :
    ∃ next, apply change state = .ok next ∧ Draft.Shows apply ⟨next, rest⟩ after := by
  rw [Draft.Shows, replay] at h
  cases hc : apply change state with
  | error e =>
    rw [hc] at h
    cases h
  | ok next =>
    rw [hc] at h
    exact ⟨next, rfl, h⟩

/-! ### What became of the changes -/

/-- Whether every change made has its fate or is pending, in the order they were made. -/
def Accounts (made : List ε) (fates : List (Fate ε)) (pending : List ε) : Prop :=
  made = fates.flatMap Fate.settled ++ pending

theorem Accounts.moved {made more : List ε} {fates settled : List (Fate ε)} {d d' : Draft σ ε}
    (h : Accounts made fates d.pending) (hm : Draft.Moved apply d more settled d') :
    Accounts (made ++ more) (fates ++ settled) d'.pending := by
  rw [Accounts] at h ⊢
  rw [h, List.flatMap_append, List.append_assoc, List.append_assoc]
  congr 1
  cases hm with
  | stay => rw [List.append_nil]; rfl
  | make d change => rfl
  | confirm rest _ => rw [List.append_nil]; rfl
  | drop d state => rw [List.flatMap_singleton]; rfl

end JewelCase.Library.Optimistic
