import Mathlib.Data.List.Sort
import Mathlib.Order.Basic

/-!
# Levels of fences

The nodes of one level of a search tree stand in a list. Each node has a lower fence `lo` and covers
the keys from there up to the lower fence of the next node. `At lo L k A n B` says that `n` is the
node of `L` that covers `k`, with `A` before it and `B` after it. `Linked R L x` says that `R`
relates every node of `L` to the one after it, the last one to `x`.
-/

namespace Lib
open List
variable {β κ : Type}
section At
variable [LinearOrder κ] {lo : β → κ} {L : List β} {k : κ} {n : β}

structure At (lo : β → κ) (L : List β) (k : κ) (A : List β) (n : β) (B : List β) : Prop where
  eq : L = A ++ n :: B
  le : lo n ≤ k
  lt : ∀ b ∈ B, k < lo b

theorem At.append {A B P Q : List β} (h : At lo L k A n B) (hQ : ∀ q ∈ Q, k < lo q) :
    At lo (P ++ L ++ Q) k (P ++ A) n (B ++ Q) where
  eq := by simp [h.eq]
  le := h.le
  lt b hb := (mem_append.1 hb).elim (h.lt b) (hQ b)

end At

section Linked
variable {R S : β → Option β → Prop} {A B L : List β} {n : β} {x : Option β}

def Linked (R : β → Option β → Prop) : List β → Option β → Prop
  | [], _ => True
  | n :: L, x => R n (L.head?.or x) ∧ Linked R L x

@[simp] theorem linked_nil : Linked R [] x := trivial

theorem linked_cons : Linked R (n :: L) x ↔ R n (L.head?.or x) ∧ Linked R L x := Iff.rfl

theorem linked_append : Linked R (A ++ B) x ↔ Linked R A (B.head?.or x) ∧ Linked R B x := by
  induction A with
  | nil => simp
  | cons a A ih =>
    rw [cons_append, linked_cons, linked_cons, ih, and_assoc]
    cases A with
    | nil => rfl
    | cons a' A => rfl

theorem linked_cons_none : Linked R (n :: L) none ↔ R n L.head? ∧ Linked R L none := by
  rw [linked_cons, Option.or_none]

theorem linked_append_none : Linked R (A ++ B) none ↔ Linked R A B.head? ∧ Linked R B none := by
  rw [linked_append, Option.or_none]

theorem Linked.mono (h : Linked R L x) (hRS : ∀ n ∈ L, ∀ y, R n y → S n y) : Linked S L x := by
  induction L with
  | nil => trivial
  | cons n L ih =>
    exact ⟨hRS n (by simp) _ h.1, ih h.2 fun m hm => hRS m (mem_cons_of_mem _ hm)⟩

theorem Linked.of_mem (h : Linked R L x) (hn : n ∈ L) : ∃ y, R n y := by
  obtain ⟨A, B, rfl⟩ := append_of_mem hn
  exact ⟨_, (linked_append.1 h).2.1⟩

theorem Linked.of_mem_none (h : Linked R L none) (hn : n ∈ L) : ∃ y, R n y ∧ ∀ m ∈ y, m ∈ L := by
  obtain ⟨A, B, rfl⟩ := append_of_mem hn
  refine ⟨B.head?, (linked_cons_none.1 (linked_append_none.1 h).2).1, fun m hm => ?_⟩
  simp [mem_of_mem_head? hm]

end Linked

theorem drop_length_takeWhile (p : β → Bool) (l : List β) :
    l.drop (l.takeWhile p).length = l.dropWhile p := by
  induction l with
  | nil => rfl
  | cons a l ih => by_cases h : p a = true <;> simp [h, ih]

theorem insertIdx_eq_append {l : List β} {i : Nat} (h : i ≤ l.length) (x : β) :
    l.insertIdx i x = l.take i ++ x :: l.drop i := by
  induction l generalizing i with
  | nil => simp_all
  | cons a l ih =>
    cases i with
    | zero => rfl
    | succ i =>
      rw [insertIdx_succ_cons, ih (Nat.le_of_succ_le_succ h)]
      rfl

/-- Sorting puts an element that was pushed to a sorted list behind those it is not less than. -/
theorem insertionSort_push {r : β → β → Prop} [DecidableRel r] {A B : List β} {x : β}
    (h : (A ++ B).Pairwise r)
    (hA : ∀ a ∈ A, r a x) (hB : ∀ b ∈ B, ¬ r b x) : (A ++ B ++ [x]).insertionSort r = A ++
    x :: B := by
  have hinsert : ∀ {b : β} {l : List β}, (∀ c ∈ l, r b c) → l.orderedInsert r b = b :: l := by
    intro b l hl
    cases l with
    | nil => rfl
    | cons c l => rw [orderedInsert_cons, if_pos (hl c (by simp))]
  have hlast : (B ++ [x]).insertionSort r = x :: B := by
    have hpair : B.Pairwise r := (pairwise_append.1 h).2.1
    clear h hA
    induction B with
    | nil => rfl
    | cons b B ih =>
      rw [pairwise_cons] at hpair
      rw [cons_append, insertionSort_cons, ih (fun c hc => hB c (mem_cons_of_mem _ hc)) hpair.2,
        orderedInsert_cons, if_neg (hB b (by simp)), hinsert hpair.1]
  induction A with
  | nil => exact hlast
  | cons a A ih =>
    rw [cons_append, pairwise_cons] at h
    rw [cons_append, cons_append, insertionSort_cons,
      ih h.2 fun c hc => hA c (mem_cons_of_mem _ hc),
      hinsert, cons_append]
    intro c hc
    rcases mem_append.1 hc with hc | hc
    · exact h.1 c (mem_append_left _ hc)
    · rcases mem_cons.1 hc with rfl | hc
      · exact hA a (by simp)
      · exact h.1 c (mem_append_right _ hc)

end Lib
