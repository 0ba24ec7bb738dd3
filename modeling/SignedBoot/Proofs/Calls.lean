import Mathlib

/-!
# Calls in a row

The operations of a set share a state, and nothing stops a caller from calling them in any order.
What holds of every sequence of calls follows from what one call does.
-/

namespace SignedBoot

variable {σ γ ρ : Type}

section Perform

variable (perform : γ → σ → ρ × σ)

/-- What a sequence of calls leaves of a state. -/
def afterCalls (s : σ) (calls : List γ) : σ := calls.foldl (fun s c => (perform c s).2) s

/-- What each call of a sequence yields and what it leaves. -/
def answers : σ → List γ → List (ρ × σ)
  | _, [] => []
  | s, c :: calls => perform c s :: answers (perform c s).2 calls

theorem afterCalls_concat (s : σ) (calls : List γ) (c : γ) :
    afterCalls perform s (calls ++ [c]) = (perform c (afterCalls perform s calls)).2 := by
  simp [afterCalls]

variable {perform}

/-- What holds of a state before any call, and after a call if it did before, holds after every
sequence of calls. -/
theorem afterCalls_induction {P : List γ → σ → Prop} {s : σ} (h : P [] s)
    (hstep : ∀ calls c s, P calls s → P (calls ++ [c]) (perform c s).2) (calls : List γ) :
    P calls (afterCalls perform s calls) := by
  induction calls using List.reverseRecOn with
  | nil => exact h
  | append_singleton calls c ih =>
    rw [afterCalls_concat]
    exact hstep calls c _ ih

/-- Calls that do the same on every state can take each other's place. -/
theorem answers_eq_of_forall₂ {same : γ → γ → Prop}
    (hsame : ∀ c d s, same c d → perform c s = perform d s) {calls calls' : List γ}
    (h : List.Forall₂ same calls calls') (s : σ) :
    answers perform s calls = answers perform s calls' := by
  induction h generalizing s with
  | nil => rfl
  | cons hcd _ ih => rw [answers, answers, hsame _ _ s hcd, ih]

end Perform

end SignedBoot
