import Mathlib
import SignedBoot.Fault

/-!
# Steps that may fail

When a chain of steps succeeds, each of its steps does: `bind_eq_ok_iff` takes a chain apart at
its first step and `guard_eq_ok_iff` at a check. When it fails, one of its steps does:
`FailsWith.bind` and `FailsWith.guard` say so of a property that all its errors have.
-/

namespace SignedBoot

variable {ε α β : Type}

theorem bind_eq_ok_iff {x : Except ε α} {k : α → Except ε β} {b : β} :
    x >>= k = .ok b ↔ ∃ a, x = .ok a ∧ k a = .ok b := by
  cases x with
  | error f =>
    constructor
    · intro h
      cases h
    · rintro ⟨a, h, -⟩
      cases h
  | ok a =>
    constructor
    · intro h
      exact ⟨a, rfl, h⟩
    · rintro ⟨c, h, hk⟩
      cases h
      exact hk

/-- A check in front of a continuation lets it run exactly when the refused condition fails. -/
theorem guard_eq_ok_iff {c : Prop} [Decidable c] {f : ε} {k : Unit → Except ε β} {b : β} :
    (if c then throw f >>= k else k ()) = .ok b ↔ ¬ c ∧ k () = .ok b := by
  by_cases hc : c
  · rw [if_pos hc]
    constructor
    · intro h
      cases h
    · intro h
      exact absurd hc h.1
  · rw [if_neg hc]
    simp [hc]

/-- A step whose value has no use can be exchanged for one that fails as it does. -/
theorem bind_eq_of_map_eq {γ : Type} {x y : Except ε α} {c : β}
    (h : x.map (fun _ => c) = y.map fun _ => c) (r : Except ε γ) :
    (x >>= fun _ => r) = y >>= fun _ => r := by
  cases x with
  | error f =>
    cases y with
    | error g =>
      obtain rfl : f = g := Except.error.inj h
      rfl
    | ok b => cases h
  | ok a =>
    cases y with
    | error g => cases h
    | ok b => rfl

/-! ### What steps fail with -/

/-- Every error of `x` has a property. -/
def FailsWith (P : ε → Prop) (x : Except ε α) : Prop := ∀ f, x = .error f → P f

namespace FailsWith

variable {P : ε → Prop} {x : Except ε α}

theorem ok (a : α) : FailsWith P (.ok a : Except ε α) := by
  intro f h
  cases h

theorem error {f : ε} (h : P f) : FailsWith P (.error f : Except ε α) := by
  intro g hg
  cases hg
  exact h

theorem mono {Q : ε → Prop} (hx : FailsWith P x) (h : ∀ f, P f → Q f) : FailsWith Q x :=
  fun f hf => h f (hx f hf)

theorem bind {k : α → Except ε β} (hx : FailsWith P x) (hk : ∀ a, FailsWith P (k a)) :
    FailsWith P (x >>= k) := by
  intro f h
  cases x with
  | error g =>
    cases h
    exact hx f rfl
  | ok a => exact hk a f h

theorem map (hx : FailsWith P x) (g : α → β) : FailsWith P (x.map g) := by
  intro f h
  cases x with
  | error e =>
    cases h
    exact hx f rfl
  | ok a => cases h

theorem ite {c : Prop} [Decidable c] {f : ε} (hf : P f) (hx : FailsWith P x) :
    FailsWith P (if c then .error f else x) := by
  by_cases hc : c
  · rw [if_pos hc]
    exact error hf
  · rw [if_neg hc]
    exact hx

theorem guard {c : Prop} [Decidable c] {f : ε} {k : Unit → Except ε β} (hf : P f)
    (hk : FailsWith P (k ())) : FailsWith P (if c then throw f >>= k else k ()) := by
  by_cases hc : c
  · rw [if_pos hc]
    exact (error hf).bind fun _ => hk
  · rw [if_neg hc]
    exact hk

/-! A chain fails as its front does, or behind it. -/

variable {γ : Type} {Q : ε → Prop}

theorem front_bind {k : α → Except ε β} {front : α → Except ε γ}
    (h : ∀ a, FailsWith (fun f => front a = .error f ∨ Q f) (k a)) :
    FailsWith (fun f => x >>= front = .error f ∨ Q f) (x >>= k) := by
  cases x with
  | error g =>
    intro f hf
    cases hf
    exact .inl rfl
  | ok a => exact h a

theorem front_guard {c : Prop} [Decidable c] {g : ε} {k : Unit → Except ε β}
    (h : FailsWith Q (k ())) :
    FailsWith (fun f => (if c then throw g else pure () : Except ε Unit) = .error f ∨ Q f)
      (if c then throw g >>= k else k ()) := by
  by_cases hc : c
  · intro f hf
    rw [if_pos hc] at hf ⊢
    cases hf
    exact .inl rfl
  · rw [if_neg hc, if_neg hc]
    exact h.mono fun f hf => .inr hf

end FailsWith

end SignedBoot
