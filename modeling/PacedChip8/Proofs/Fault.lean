/-
Computations that can fault: when a computation made of two parts goes through and when it faults,
and when two computations go in step. When both parts go through does not depend on what a fault is.
-/
import PacedChip8.Fault
import Mathlib.Tactic

namespace PacedChip8

variable {α β γ δ ε : Type}

theorem bind_eq_ok {x : Except ε α} {f : α → Except ε β} {b : β} :
    x >>= f = .ok b ↔ ∃ a, x = .ok a ∧ f a = .ok b := by
  rcases x with e | a <;> simp [bind, Except.bind]

theorem bind_eq_error {x : Except Fault α} {f : α → Except Fault β} {e : Fault} :
    x >>= f = .error e ↔ x = .error e ∨ ∃ a, x = .ok a ∧ f a = .error e := by
  rcases x with e' | a <;> simp [bind, Except.bind]

theorem pure_eq_ok {a b : α} : (pure a : Except Fault α) = .ok b ↔ a = b := by
  simp [pure, Except.pure]

theorem pure_ne_error {a : α} {e : Fault} : (pure a : Except Fault α) ≠ .error e := by
  simp [pure, Except.pure]

/-- Two computations that both fault, in the same way, or both give a result, and related ones. -/
inductive InStep (R : α → β → Prop) : Except Fault α → Except Fault β → Prop
  | ok {a : α} {b : β} : R a b → InStep R (.ok a) (.ok b)
  | error (e : Fault) : InStep R (.error e) (.error e)

/-- What goes in step can be put together from parts that do. -/
theorem InStep.bind {R : α → β → Prop} {S : γ → δ → Prop} {x : Except Fault α} {y : Except Fault β}
    {f : α → Except Fault γ} {g : β → Except Fault δ} (h : InStep R x y)
    (hfg : ∀ a b, R a b → InStep S (f a) (g b)) : InStep S (x >>= f) (y >>= g) := by
  cases h with
  | ok hR => exact hfg _ _ hR
  | error e => exact .error e

/-- The first part may be the same computation on both sides. -/
theorem InStep.bind_same {S : γ → δ → Prop} {x : Except Fault α} {f : α → Except Fault γ} {g : α → Except Fault δ}
    (hfg : ∀ a, InStep S (f a) (g a)) : InStep S (x >>= f) (x >>= g) := by
  rcases x with e | a
  · exact .error e
  · exact hfg a

theorem InStep.mono {R S : α → β → Prop} {x : Except Fault α} {y : Except Fault β} (h : InStep R x y)
    (hRS : ∀ a b, R a b → S a b) : InStep S x y := by
  cases h with
  | ok hR => exact .ok (hRS _ _ hR)
  | error e => exact .error e

theorem InStep.map {R : γ → δ → Prop} {x : Except Fault α} {f : α → γ} {g : α → δ} (hfg : ∀ a, R (f a) (g a)) :
    InStep R (x.map f) (x.map g) := by
  rcases x with e | a
  · exact .error e
  · exact .ok (hfg a)

theorem InStep.of_ok {R : α → β → Prop} {x : Except Fault α} {y : Except Fault β} {a : α} (h : InStep R x y)
    (hx : x = .ok a) : ∃ b, y = .ok b ∧ R a b := by
  subst hx
  cases h with
  | ok hR => exact ⟨_, rfl, hR⟩

end PacedChip8
