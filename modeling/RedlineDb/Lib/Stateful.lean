import Mathlib.Logic.Basic

/-!
# Fallible code that changes a state

`EStateM ε σ` is code that may end with an error and then leaves the state as far as it was changed.
The rules below take an execution that ended well apart, call by call.
-/

namespace Lib
variable {ε σ α β : Type}

def reading (f : σ → Except ε α) : EStateM ε σ α := fun s =>
  match f s with
  | .ok a => .ok a s
  | .error e => .error e s

def finalState (m : EStateM ε σ α) (s : σ) : Except ε σ :=
  match m s with
  | .ok _ s' => .ok s'
  | .error e _ => .error e

section Ok
variable {s s' : σ} {a : α} {b : β}

theorem stateful_bind_eq_ok {m : EStateM ε σ α} {f : α → EStateM ε σ β} :
    (m >>= f) s = .ok b s' ↔ ∃ a s₁, m s = .ok a s₁ ∧ f a s₁ = .ok b s' := by
  simp only [bind, EStateM.bind]
  cases m s with
  | ok a s₁ => simp [and_assoc]
  | error e s₁ => simp

theorem stateful_pure_eq_ok {a' : α} : (pure a' : EStateM ε σ α) s = .ok a s' ↔ a' = a ∧
    s = s' := by
  simp [pure, EStateM.pure]

theorem reading_eq_ok {f : σ → Except ε α} : reading f s = .ok a s' ↔ f s = .ok a ∧ s = s' := by
  unfold reading
  cases f s with
  | ok a' => simp
  | error e => simp

theorem get_eq_ok {s₁ : σ} : (get : EStateM ε σ σ) s = .ok s₁ s' ↔ s = s₁ ∧ s = s' := by
  show EStateM.Result.ok s s = .ok s₁ s' ↔ _
  simp

theorem modify_eq_ok {f : σ → σ} {u : PUnit} : (modify f : EStateM ε σ PUnit) s = .ok u s' ↔
    f s = s' := by
  show EStateM.Result.ok PUnit.unit (f s) = .ok u s' ↔ _
  simp

theorem throw_eq_ok {e : ε} : ¬ (throw e : EStateM ε σ α) s = .ok a s' := by
  show ¬ EStateM.Result.error e s = .ok a s'
  simp

theorem finalState_eq_ok {m : EStateM ε σ α} : finalState m s = .ok s' ↔ ∃ a, m s = .ok a s' := by
  unfold finalState
  cases m s with
  | ok a s₁ => simp
  | error e s₁ => simp

end Ok
end Lib
