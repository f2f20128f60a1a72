import Mathlib.Data.List.Basic

/-!
# Runs of a fallible step function

A machine is a step function `step : σ → ι → Except ε σ`. `Run step P s is s'` says that the
accepted steps `is` lead from `s` to `s'` and that each of them met the condition `P` in the state
it was taken from. Invariants may speak about the steps taken so far, so a run is extended at its
end.
-/

namespace Lib
variable {ε σ ι α β : Type}

theorem mem_toOption {x : Except ε α} {a : α} : a ∈ x.toOption ↔ x = .ok a := by
  cases x with
  | error e => simp [Except.toOption]
  | ok b => simp [Except.toOption, eq_comm]

theorem bind_eq_ok {x : Except ε α} {f : α → Except ε β} {b : β} :
    (x >>= f) = .ok b ↔ ∃ a, x = .ok a ∧ f a = .ok b := by
  cases x with
  | error e => simp [bind, Except.bind]
  | ok a => simp [bind, Except.bind]

theorem pure_eq_ok {a b : α} : (pure a : Except ε α) = .ok b ↔ a = b := by
  simp [pure, Except.pure]

def require (c : Prop) [Decidable c] (e : ε) : Except ε Unit := if c then .ok () else .error e

theorem require_eq_ok {c : Prop} [Decidable c] {e : ε} {u : Unit} : require c e = .ok u ↔ c := by
  unfold require
  split <;> simp_all

theorem guarded_eq_ok {c : Prop} [Decidable c] {e : ε} {a b : α} :
    (require c e >>= fun _ => pure a) = .ok b ↔ c ∧ a = b := by
  rw [bind_eq_ok]
  simp only [require_eq_ok, pure_eq_ok, exists_const]

/-- `Run step P s is s'`: the steps `is` are accepted one after the other from `s`, each meets `P`
in the state before it, and the last state is `s'`. -/
inductive Run (step : σ → ι → Except ε σ) (P : σ → ι → Prop) (s : σ) : List ι → σ → Prop
  | nil : Run step P s [] s
  | snoc {is : List ι} {s' s'' : σ} {i : ι} :
      Run step P s is s' → P s' i → step s' i = .ok s'' → Run step P s (is ++ [i]) s''

namespace Run
variable {step : σ → ι → Except ε σ} {P Q : σ → ι → Prop} {s s' s'' : σ} {is js : List ι} {i : ι}

/-- The invariant rule: what holds at the start and is kept by every step holds at the end. -/
theorem invariant {I : List ι → σ → Prop} (h : Run step P s is s') (h0 : I [] s)
    (hstep : ∀ is s i s', I is s → P s i → step s i = .ok s' → I (is ++ [i]) s') : I is s' := by
  induction h with
  | nil => exact h0
  | snoc _ hP hs ih => exact hstep _ _ _ _ ih hP hs

theorem mono (hPQ : ∀ s i, P s i → Q s i) (h : Run step P s is s') : Run step Q s is s' := by
  induction h with
  | nil => exact .nil
  | snoc _ hP hs ih => exact .snoc ih (hPQ _ _ hP) hs

theorem append (h : Run step P s is s') (h' : Run step P s' js s'') :
    Run step P s (is ++ js) s'' := by
  induction h' with
  | nil => simpa using h
  | snoc _ hP hs ih => rw [← List.append_assoc]; exact .snoc ih hP hs

theorem cons (hP : P s i) (hs : step s i = .ok s') (h : Run step P s' is s'') :
    Run step P s (i :: is) s'' :=
  append (.snoc .nil hP hs) h

theorem eq_of_nil (h : Run step P s [] s') : s' = s := by
  generalize hl : [] = l at h
  cases h with
  | nil => rfl
  | snoc => simp at hl

theorem cons_inv (h : Run step P s (i :: is) s'') :
    ∃ s', P s i ∧ step s i = .ok s' ∧ Run step P s' is s'' := by
  generalize hl : i :: is = l at h
  induction h generalizing is with
  | nil => cases hl
  | snoc h hP hs ih =>
    rcases List.cons_eq_append_iff.1 hl with ⟨rfl, hj⟩ | ⟨js, rfl, rfl⟩
    · cases hj
      obtain rfl := eq_of_nil h
      exact ⟨_, hP, hs, .nil⟩
    · obtain ⟨s₁, hP₁, hs₁, hrest⟩ := ih rfl
      exact ⟨s₁, hP₁, hs₁, .snoc hrest hP hs⟩

end Run

def runWhile (step : σ → ι → Except ε σ) (p : σ → ι → Bool) : σ → List ι → Option σ
  | s, [] => some s
  | s, i :: is =>
    if p s i then
      match step s i with
      | .ok s' => runWhile step p s' is
      | .error _ => none
    else none

section Decide
variable {step : σ → ι → Except ε σ} {P : σ → ι → Prop} [∀ s i, Decidable (P s i)] {s : σ}
    {is : List ι}

theorem runWhile_eq_some {s' : σ} : runWhile step (fun s i => decide (P s i)) s is = some s' ↔
    Run step P s is s' := by
  induction is generalizing s with
  | nil =>
    rw [runWhile, Option.some.injEq]
    exact ⟨fun h => h ▸ .nil, fun h => h.eq_of_nil.symm⟩
  | cons i is ih =>
    rw [runWhile]
    constructor
    · intro h
      split at h
      case isTrue hP =>
        split at h
        case h_1 s₁ hs => exact .cons (of_decide_eq_true hP) hs (ih.1 h)
        case h_2 => cases h
      case isFalse => cases h
    · intro h
      obtain ⟨s₁, hP, hs, hrun⟩ := h.cons_inv
      rw [if_pos (decide_eq_true hP), hs]
      exact ih.2 hrun

/-- A closed trace has one last state at most, so what is said of it can be computed. -/
instance decidableExistsRun {q : σ → Prop} [DecidablePred q] :
    Decidable (∃ s', Run step P s is s' ∧ q s') :=
  decidable_of_iff ((runWhile step (fun s i => decide (P s i)) s is).any (fun s' => decide (q s')) =
    true) (by
    simp only [Option.any_eq_true, decide_eq_true_eq, runWhile_eq_some])

end Decide
end Lib
