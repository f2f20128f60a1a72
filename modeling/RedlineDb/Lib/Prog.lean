import Mathlib.Logic.Basic

/-!
# Programs that call an environment

A `Prog C R ε α` is a finite tree of calls: a call `c : C` is answered with a value of `R c`, on
which the rest depends, and the program ends with a result or an error. `run` answers the calls by a
handler with a state. A handler may also refuse a call with an error, which ends the program: a
program can catch its own errors (`attempt`), not the handler's.

`Calls.run_invariant` is the rule for programs of which only the calls are known.
-/

namespace Lib
variable {C : Type} {R : C → Type} {ε α β σ : Type}

inductive Prog (C : Type) (R : C → Type) (ε α : Type) : Type
  | done (r : Except ε α)
  | call (c : C) (next : R c → Prog C R ε α)

namespace Prog

def bind : Prog C R ε α → (α → Prog C R ε β) → Prog C R ε β
  | done (.ok a), f => f a
  | done (.error e), _ => done (.error e)
  | call c next, f => call c fun r => (next r).bind f

instance : Monad (Prog C R ε) where
  pure a := done (.ok a)
  bind := bind

def fail (e : ε) : Prog C R ε α := done (.error e)

def attempt : Prog C R ε α → Prog C R ε (Except ε α)
  | done r => done (.ok r)
  | call c next => call c fun r => (next r).attempt

def ask (c : C) : Prog C R ε (R c) := call c pure

def Calls (p : C → Prop) : Prog C R ε α → Prop
  | done _ => True
  | call c next => p c ∧ ∀ r, (next r).Calls p

def run (handle : σ → (c : C) → Except ε (R c) × σ) : Prog C R ε α → σ → Except ε α × σ
  | done r, s => (r, s)
  | call c next, s =>
    match handle s c with
    | (.ok r, s) => (next r).run handle s
    | (.error e, s) => (.error e, s)

variable {handle : σ → (c : C) → Except ε (R c) × σ} {p : C → Prop}

theorem calls_true (m : Prog C R ε α) : m.Calls fun _ => True := by
  induction m with
  | done r => trivial
  | call c next ih => exact ⟨trivial, ih⟩

theorem calls_bind {m : Prog C R ε α} {f : α → Prog C R ε β} (hm : m.Calls p)
    (hf : ∀ a, (f a).Calls p) :
    (m.bind f).Calls p := by
  induction m with
  | done r =>
    cases r with
    | ok a => exact hf a
    | error e => trivial
  | call c next ih => exact ⟨hm.1, fun r => ih r (hm.2 r)⟩

theorem calls_forM {l : List β} {f : β → Prog C R ε PUnit} (hf : ∀ b ∈ l, (f b).Calls p) :
    (l.forM f).Calls p := by
  induction l with
  | nil => trivial
  | cons b l ih => exact calls_bind (hf b (by simp)) fun _ => ih fun b' hb' => hf b' (by simp [hb'])

/-- What holds before and is kept by every call the program can make holds after it. -/
theorem Calls.run_invariant {I : σ → Prop} {m : Prog C R ε α} (hm : m.Calls p)
    (hI : ∀ s c, p c → I s → I (handle s c).2) {s : σ} (hs : I s) : I (m.run handle s).2 := by
  induction m generalizing s with
  | done r => exact hs
  | call c next ih =>
    have h1 := hI s c hm.1 hs
    simp only [run]
    split
    case h_1 r s' h =>
      rw [h] at h1
      exact ih r (hm.2 r) h1
    case h_2 e s' h =>
      rw [h] at h1
      exact h1

end Prog
end Lib
