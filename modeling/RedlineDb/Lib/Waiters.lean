import Mathlib.Data.List.Nodup
import Mathlib.Logic.Function.Basic

/-!
# Calls that wait in the queue of a key

A call that finds its key taken is parked with what it waits for, and its number joins the queue of
the key. The queues name exactly the parked calls, each once.
-/

namespace Lib
open Function List
variable {P K : Type*} {keyOf : P → K} {parked : Nat → Option P} {next call c : Nat}
    {queue : K → List Nat} {p : P}

structure Queues (keyOf : P → K) (parked : Nat → Option P) (next : Nat) (queue : K → List Nat) :
    Prop where
  nodup : ∀ k, (queue k).Nodup
  mem : ∀ k c, c ∈ queue k ↔ ∃ p, parked c = some p ∧ keyOf p = k
  lt : ∀ c p, parked c = some p → c < next

section
variable (h : Queues keyOf parked next queue)
include h

theorem Queues.not_parked : parked next = none := by
  cases hp : parked next with
  | none => rfl
  | some p => exact absurd (h.lt next p hp) (Nat.lt_irrefl _)

theorem Queues.note {f : P → P} (hf : ∀ p, keyOf (f p) = keyOf p) :
    Queues keyOf (update parked call ((parked call).map f)) next queue := by
  refine ⟨h.nodup, fun k c => (h.mem k c).trans ?_, fun c p hp => ?_⟩
  · by_cases hc : c = call
    · simp [hc, hf]
    · simp [hc]
  · by_cases hc : c = call
    · simp only [hc, update_self, Option.map_eq_some_iff] at hp
      obtain ⟨q, hq, -⟩ := hp
      exact hc ▸ h.lt call q hq
    · exact h.lt c p (by simpa [hc] using hp)

variable [DecidableEq K]

theorem Queues.leave (hp : parked call = some p) :
    Queues keyOf (update parked call none)
      next (update queue (keyOf p) ((queue (keyOf p)).erase call)) := by
  refine ⟨fun k => ?_, fun k c => ?_, fun c q hq => ?_⟩
  · by_cases hk : k = keyOf p
    · simpa [hk] using (h.nodup _).erase call
    · simpa [hk] using h.nodup k
  · by_cases hk : k = keyOf p
    · rw [hk, update_self, (h.nodup _).mem_erase_iff, h.mem]
      by_cases hc : c = call <;> simp [hc]
    · rw [update_of_ne hk, h.mem]
      by_cases hc : c = call
      · simp [hc, hp, Ne.symm hk]
      · simp [hc]
  · by_cases hc : c = call
    · simp [hc] at hq
    · exact h.lt c q (by simpa [hc] using hq)

theorem Queues.join (p : P) :
    Queues keyOf (update parked next (some p)) (next + 1)
      (update queue (keyOf p) (queue (keyOf p) ++ [next])) := by
  have hnew : ∀ k, next ∉ queue k := by simp [h.mem, h.not_parked]
  refine ⟨fun k => ?_, fun k c => ?_, fun c q hq => ?_⟩
  · by_cases hk : k = keyOf p
    · simpa [hk] using (h.nodup _).append (nodup_singleton next) (disjoint_singleton.2 (hnew _))
    · simpa [hk] using h.nodup k
  · by_cases hc : c = next
    · by_cases hk : k = keyOf p
      · simp [hc, hk]
      · simp [hc, hk, hnew k, Ne.symm hk]
    · by_cases hk : k = keyOf p
      · simp [hc, hk, h.mem]
      · simp [hc, hk, h.mem]
  · by_cases hc : c = next
    · rw [hc]
      exact Nat.lt_succ_self _
    · exact Nat.lt_succ_of_lt (h.lt c q (by simpa [hc] using hq))

end
end Lib
