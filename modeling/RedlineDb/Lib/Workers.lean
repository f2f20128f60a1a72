import Mathlib.Data.List.Perm.Basic
import Mathlib.Data.List.Nodup
import Mathlib.Data.List.Range

/-!
# Work shared out among workers

Worker `i` of `w` takes every `w`-th number from `start + i` on; together they take each number of
the range once. Their results come through one channel, in any order that keeps each worker's own.
-/

namespace Lib
open List

/-- `n`, `n + step`, ... as long as they are below `stop`. -/
def strided (stop step : Nat) : Nat → Nat → List Nat
  | 0, _ => []
  | fuel + 1, n => if n < stop then n :: strided stop step fuel (n + step) else []

theorem mem_strided {stop step fuel n m : Nat} (hstep : 0 < step) (hfuel : stop - n ≤ fuel) :
    m ∈ strided stop step fuel n ↔ m < stop ∧ ∃ k, m = n + step * k := by
  induction fuel generalizing n with
  | zero =>
    simp only [strided, not_mem_nil, false_iff, not_and, not_exists]
    intro _ k _
    have := Nat.zero_le (step * k)
    omega
  | succ fuel ih =>
    rw [strided]
    split
    · next hlt =>
      rw [mem_cons, ih (by omega)]
      constructor
      · rintro (rfl | ⟨hm, k, rfl⟩)
        · exact ⟨hlt, 0, by simp⟩
        · exact ⟨hm, k + 1, by rw [Nat.mul_succ]; omega⟩
      · rintro ⟨hm, k, rfl⟩
        cases k with
        | zero => exact .inl (by simp)
        | succ k => exact .inr ⟨hm, k, by rw [Nat.mul_succ]; omega⟩
    · next hge =>
      simp only [not_mem_nil, false_iff, not_and, not_exists]
      intro _ k _
      have := Nat.zero_le (step * k)
      omega

theorem nodup_strided {stop step fuel n : Nat} (hstep : 0 < step) (hfuel : stop - n ≤ fuel) :
    (strided stop step fuel n).Nodup := by
  induction fuel generalizing n with
  | zero => exact nodup_nil
  | succ fuel ih =>
    rw [strided]
    split
    · refine nodup_cons.2 ⟨fun hmem => ?_, ih (by omega)⟩
      obtain ⟨-, k, hk⟩ := (mem_strided hstep (by omega)).1 hmem
      have := Nat.zero_le (step * k)
      omega
    · exact nodup_nil

def share (start stop workers i : Nat) : List Nat :=
  strided stop workers (stop - (start + i)) (start + i)

theorem shares_perm (start stop : Nat) {workers : Nat} (hw : 0 < workers) :
    ((List.range workers).flatMap (share start stop workers)).Perm
    (List.range' start (stop - start)) := by
  have hmem : ∀ i m, m ∈ share start stop workers i ↔ m < stop ∧ ∃ k, m = start + i + workers * k :=
    fun i m => mem_strided hw le_rfl
  refine (perm_ext_iff_of_nodup ?_ nodup_range').2 fun m => ?_
  · refine nodup_flatMap.2 ⟨fun i _ => nodup_strided hw le_rfl, ?_⟩
    refine nodup_range.pairwise_of_forall_ne fun i hi j hj hne m hmi hmj => hne ?_
    obtain ⟨-, k, hk⟩ := (hmem i m).1 hmi
    obtain ⟨-, k', hk'⟩ := (hmem j m).1 hmj
    have heq : i + workers * k = j + workers * k' := by omega
    have hmod := congrArg (· % workers) heq
    simpa [Nat.mod_eq_of_lt (mem_range.1 hi), Nat.mod_eq_of_lt (mem_range.1 hj)] using hmod
  · simp only [mem_flatMap, mem_range, hmem, mem_range'_1]
    constructor
    · rintro ⟨i, _, hm, k, rfl⟩
      have := Nat.zero_le (workers * k)
      omega
    · rintro ⟨hge, hlt⟩
      refine ⟨(m - start) % workers, Nat.mod_lt _ hw, by omega, (m - start) / workers, ?_⟩
      have := Nat.mod_add_div (m - start) workers
      omega

variable {α : Type}

theorem mapM_eq_ok {ε β : Type} {f : α → Except ε β} {g : α → β} {l : List α}
    (h : ∀ x ∈ l, f x = .ok (g x)) :
    l.mapM f = .ok (l.map g) := by
  induction l with
  | nil => rfl
  | cons x l ih =>
    rw [mapM_cons, h x mem_cons_self, ih fun y hy => h y (mem_cons_of_mem _ hy)]
    rfl

/-- What the channel delivers: `schedule` says whose result comes next; when it is over, the rest
follows. -/
def drain : List Nat → List (List α) → List α
  | [], queues => queues.flatten
  | i :: schedule, queues =>
    match queues[i]? with
    | some (r :: rest) => r :: drain schedule (queues.set i rest)
    | _ => drain schedule queues

theorem drain_perm (schedule : List Nat) (queues : List (List α)) :
    (drain schedule queues).Perm queues.flatten := by
  induction schedule generalizing queues with
  | nil => exact .refl _
  | cons i schedule ih =>
    rw [drain]
    split
    · next r rest hi =>
      obtain ⟨hlt, hget⟩ := List.getElem?_eq_some_iff.1 hi
      refine ((ih _).cons r).trans ?_
      have hsplit : queues = queues.take i ++ (r :: rest) :: queues.drop (i + 1) := by
        rw [← hget, getElem_cons_drop, take_append_drop]
      rw [set_eq_take_append_cons_drop, if_pos hlt]
      conv_rhs => rw [hsplit]
      simp only [flatten_append, flatten_cons, cons_append]
      exact perm_middle.symm
    · exact ih queues

end Lib
