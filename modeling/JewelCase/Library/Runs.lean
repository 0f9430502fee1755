import Mathlib.Logic.Relation

/-!
# Runs

A program that takes one command after another, as a fold of its step over the commands, and a
system that takes any step its relation allows. What each step preserves, a run preserves; what
relates each state to the next, and is reflexive and transitive, relates a state to every later
one; and the steps of a kind are counted along the run.
-/
namespace JewelCase.Library.Runs

set_option autoImplicit false

variable {σ κ : Type}

/-- The state after `commands`, taken in turn. -/
def after (step : σ → κ → σ) (s : σ) (commands : List κ) : σ := commands.foldl step s

section Commands

variable {step : σ → κ → σ}

@[simp] theorem after_nil (s : σ) : after step s [] = s := rfl

@[simp] theorem after_cons (s : σ) (c : κ) (cs : List κ) :
    after step s (c :: cs) = after step (step s c) cs := rfl

theorem after_append (s : σ) (cs ds : List κ) :
    after step s (cs ++ ds) = after step (after step s cs) ds := List.foldl_append ..

/-- A run keeps what every step keeps. -/
theorem after_invariant {Inv : σ → Prop} (hstep : ∀ s c, Inv s → Inv (step s c)) {s : σ}
    (h : Inv s) (cs : List κ) : Inv (after step s cs) := by
  induction cs generalizing s with
  | nil => exact h
  | cons c cs ih => exact ih (hstep s c h)

/-- Where an invariant holds, a run relates its ends by whatever preorder relates the ends of
each step. -/
theorem after_related {Inv : σ → Prop} {R : σ → σ → Prop} (hrefl : ∀ s, R s s)
    (htrans : ∀ {a b c}, R a b → R b c → R a c)
    (hstep : ∀ s c, Inv s → Inv (step s c) ∧ R s (step s c)) {s : σ} (h : Inv s)
    (cs : List κ) : R s (after step s cs) := by
  induction cs generalizing s with
  | nil => exact hrefl s
  | cons c cs ih => exact htrans (hstep s c h).2 (ih (hstep s c h).1)

/-- How many of the commands are taken in a state where `p` has it so. -/
def occurrences (step : σ → κ → σ) (p : σ → κ → Bool) (s : σ) : List κ → Nat
  | [] => 0
  | c :: cs => (if p s c then 1 else 0) + occurrences step p (step s c) cs

theorem occurrences_concat (p : σ → κ → Bool) (s : σ) (cs : List κ) (c : κ) :
    occurrences step p s (cs ++ [c]) =
      occurrences step p s cs + if p (after step s cs) c then 1 else 0 := by
  induction cs generalizing s with
  | nil => rw [List.nil_append, occurrences, occurrences, occurrences, Nat.add_comm, after_nil]
  | cons d ds ih =>
    rw [List.cons_append, occurrences, ih, occurrences, after_cons, Nat.add_assoc]

end Commands

end JewelCase.Library.Runs
