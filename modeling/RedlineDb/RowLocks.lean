import RedlineDb.Frontier

/-!
# Row locks, and what a step leaves alone

A call belongs to one transaction. `Spares` says that it leaves the others alone, their locks
included; `Later` what it keeps of every transaction that was there: isolation level, fixed
snapshot, CSN.
-/

namespace RedlineDb
open Lib

def Op.tx? : Op → Option Nat
  | .begin _ => none
  | .getForRelation tx _ _ | .insertForRelation tx _ _ _ | .lockRowForRelation tx _ _
  | .updateForRelation tx _ _ _ | .deleteForRelation tx _ _ | .appendCommit tx | .finishCommit tx
  | .failCommit tx | .rollback tx => some tx

namespace Engine
variable {e e' : Engine} {tx : Nat} {t : Txn}

structure Later (e e' : Engine) : Prop extends TxLe e e' where
  txn : ∀ x t', x < e.txs.nextTx → e'.txns.lookup x = some t' → ∃ t, e.txns.lookup x = some t ∧
    t'.isolation = t.isolation ∧ (t.isolation = .snapshot → t'.snapshot = t.snapshot)
  csn : ∀ x c, e'.HasCsn x c → e.HasCsn x c ∨ e.txs.nextCsn ≤ c

theorem Moved.txn {st : TxState} (hM : Moved e tx t st e') (x : Nat) (t' : Txn)
    (hlt : x < e.txs.nextTx)
    (hx : e'.txns.lookup x = some t') :
    ∃ t, e.txns.lookup x = some t ∧ t'.isolation = t.isolation ∧
      (t.isolation = .snapshot → t'.snapshot = t.snapshot) := by
  rw [hM.lookup] at hx
  split at hx
  · next h =>
    cases hx
    subst h
    rcases hM.was with ⟨h, -⟩ | ⟨t0, h0, -, -, hiso, hsnap⟩
    · omega
    · refine ⟨t0, h0, hiso, fun h => hsnap.resolve_right ?_⟩
      simp [h]
  · exact ⟨t', hx, rfl, fun _ => rfl⟩

theorem Touch.later (hT : Touch e tx t e') (hi : TxInv e) (hc : CsnInv e) : Later e e' :=
  ⟨(hT.moved hi).txLe hi, (hT.moved hi).txn, (hT.csn hi hc).has⟩

theorem step_later {op : Op} (hi : TxInv e) (hc : CsnInv e) (hs : e.step op = .ok e') :
    Later e e' := by
  obtain ⟨x, t, st, hM, -⟩ := step_moved hi hs
  exact ⟨hM.txLe hi, hM.txn, (step_csn hi hc hs).has⟩

def LockInv (e : Engine) : Prop :=
  ∀ x t, e.txns.lookup x = some t → ∀ k ∈ t.rowLocks, e.locks.lookup k = some x

theorem lookup_foldl_unlock {locks : AList (fun _ : Nat × Nat => Nat)} {ks : List (Nat × Nat)}
    {k : Nat × Nat} {x : Nat}
    (hne : x ≠ tx) (hk : locks.lookup k = some x) : (ks.foldl (unlock · tx) locks).lookup k =
    some x := by
  induction ks generalizing locks with
  | nil => exact hk
  | cons k0 ks ih =>
    refine ih ?_
    show (unlock locks tx k0).lookup k = some x
    unfold unlock
    split
    · next h0 =>
      have hkk : k ≠ k0 := by
        rintro rfl
        rw [hk] at h0
        cases h0
        exact hne rfl
      rw [AList.lookup_erase_ne hkk]
      exact hk
    · exact hk

theorem lockRowForRelation_locks {rel row : Nat} {t' : Txn} (hL : LockInv e)
    (hl : e.lockRowForRelation tx rel row = .ok (t', e')) : LockInv e' ∧
    e'.locks.lookup (rel, row) = some tx ∧
      ∀ k x, e.locks.lookup k = some x → e'.locks.lookup k = some x := by
  have hT := lockRowForRelation_touch hl
  simp only [lockRowForRelation, bind_eq_ok, openTxn_eq_ok, Prod.exists, pure_eq_ok] at hl
  obtain ⟨t, ⟨ht, hopen⟩, t1, e1, hl1, hl⟩ := hl
  have hA := refresh_touch ht hopen
  obtain ⟨hlk, hrl⟩ := refresh_locks e tx t
  obtain ⟨hlk', hrl'⟩ := refresh_locks e1 tx t1
  rw [hl] at hlk' hrl'
  obtain ⟨-, -, -, -, -, -, -, hmem, hcase⟩ := lockRowInRel_ok hA.self hl1
  rw [hlk, hrl] at hcase
  rw [LockInv, hlk']
  have hpre : e.locks.lookup (rel, row) = none ∨ e.locks.lookup (rel, row) = some tx := by
    rcases hcase with ⟨h1, -, -⟩ | ⟨-, h1, -, -⟩
    · exact .inr (hL tx t ht _ h1)
    · exact h1
  have hpost : e1.locks.lookup (rel, row) = some tx := by
    rcases hcase with ⟨h1, -, rfl⟩ | ⟨-, -, h1, -⟩
    · rw [hlk]; exact hL tx t ht _ h1
    · exact h1
  have hkeep : ∀ k x, e.locks.lookup k = some x → e1.locks.lookup k = some x := by
    intro k x hk
    rcases hcase with ⟨-, -, rfl⟩ | ⟨-, -, -, h1⟩
    · rw [hlk]; exact hk
    · by_cases hkk : k = (rel, row)
      · subst hkk
        rcases hpre with h | h
        · rw [h] at hk; cases hk
        · rw [h] at hk; cases hk; exact hpost
      · rw [h1 k hkk]; exact hk
  refine ⟨?_, hpost, hkeep⟩
  intro x tx' hx k hk
  by_cases hne : x = tx
  · subst hne
    rw [hT.self] at hx
    cases hx
    rw [hrl'] at hk
    rcases hcase with ⟨-, rfl, -⟩ | ⟨h1, -, -, -⟩
    · rw [hrl] at hk
      exact hkeep k x (hL x t ht k hk)
    · rw [h1] at hk
      rcases List.mem_append.1 hk with hk | hk
      · exact hkeep k x (hL x t ht k hk)
      · rw [List.mem_singleton.1 hk]; exact hpost
  · rw [hT.other x hne] at hx
    exact hkeep k x (hL x tx' hx k hk)

structure Spares (e : Engine) (tx : Nat) (e' : Engine) : Prop where
  locks : LockInv e'
  txn : ∀ x, x ≠ tx → e'.txns.lookup x = e.txns.lookup x
  owned : ∀ x k, x ≠ tx → e.locks.lookup k = some x → e'.locks.lookup k = some x

theorem Touch.spares (hT : Touch e tx t e') (hL : LockInv e) (hlk : e'.locks = e.locks)
    (hrl : ∀ t0, e.txns.lookup tx = some t0 → t.rowLocks = t0.rowLocks) : Spares e tx e' := by
  refine ⟨?_, hT.other, fun x k _ h => hlk ▸ h⟩
  intro x t' hx k hk
  rw [hlk]
  by_cases hne : x = tx
  · subst hne
    rw [hT.self] at hx
    cases hx
    obtain ⟨t0, h0, -⟩ := hT.snapshot
    rw [hrl t0 h0] at hk
    exact hL x t0 h0 k hk
  · rw [hT.other x hne] at hx
    exact hL x t' hx k hk

theorem lockRowForRelation_spares {rel row : Nat} {t' : Txn} (hL : LockInv e)
    (hl : e.lockRowForRelation tx rel row = .ok (t', e')) : Spares e tx e' := by
  obtain ⟨h1, -, h4⟩ := lockRowForRelation_locks hL hl
  exact ⟨h1, (lockRowForRelation_touch hl).other, fun x k _ h => h4 k x h⟩

theorem Spares.setHeap (hS : Spares e tx e') (heap : PageBackedHeap) :
    Spares e tx { e' with heap } :=
  ⟨hS.locks, hS.txn, hS.owned⟩

theorem closeTxn_spares {e0 : Engine} (hL : LockInv e) (he : e0.txns = e.txns)
    (hlk : e0.locks = e.locks) :
    Spares e tx (e0.closeTxn tx t) := by
  have hother : ∀ x, x ≠ tx → (e0.closeTxn tx t).txns.lookup x = e.txns.lookup x := by
    intro x hx
    rw [closeTxn_lookup, if_neg hx, he]
  have howned : ∀ x k, x ≠ tx → e.locks.lookup k = some x →
      (e0.closeTxn tx t).locks.lookup k = some x := by
    intro x k hx h
    exact lookup_foldl_unlock hx (hlk ▸ h)
  refine ⟨?_, hother, howned⟩
  intro x t' hx k hk
  by_cases hne : x = tx
  · subst hne
    rw [closeTxn_lookup, if_pos rfl] at hx
    cases hx
    cases hk
  · rw [hother x hne] at hx
    exact howned x k hne (hL x t' hx k hk)

theorem refresh_spares (ht : e.txns.lookup tx = some t) (hopen : t.isOpen) (hL : LockInv e) :
    Spares e tx (e.refresh tx t).2 := by
  obtain ⟨h1, h2⟩ := refresh_locks e tx t
  refine (refresh_touch ht hopen).spares hL h1 ?_
  intro t0 h0
  rw [ht] at h0
  cases h0
  exact h2

theorem step_spares {op : Op} (hL : LockInv e) (htx : op.tx? = some tx) (hs : e.step op = .ok e') :
    Spares e tx e' := by
  cases op with
  | begin iso => cases htx
  | getForRelation tx rel row =>
    cases htx
    simp only [step, getForRelation, bind_eq_ok, openTxn_eq_ok, pure_eq_ok, Prod.exists,
      Prod.mk.injEq] at hs
    obtain ⟨_, e1, ⟨t, ⟨ht, hopen⟩, _, -, -, rfl⟩, rfl⟩ := hs
    exact refresh_spares ht hopen hL
  | insertForRelation tx rel row payload =>
    cases htx
    simp only [step, insertForRelation, bind_eq_ok, openTxn_eq_ok, pure_eq_ok] at hs
    obtain ⟨t, ⟨ht, hopen⟩, heap, -, rfl⟩ := hs
    exact (refresh_spares ht hopen hL).setHeap heap
  | lockRowForRelation tx rel row =>
    cases htx
    simp only [step, bind_eq_ok, pure_eq_ok, Prod.exists] at hs
    obtain ⟨t, e1, h1, rfl⟩ := hs
    exact lockRowForRelation_spares hL h1
  | updateForRelation tx rel row payload =>
    cases htx
    obtain ⟨t, e1, hl, heap, -, rfl⟩ := updateForRelation_eq_ok hs
    exact (lockRowForRelation_spares hL hl).setHeap heap
  | deleteForRelation tx rel row =>
    cases htx
    obtain ⟨t, e1, hl, heap, -, rfl⟩ := deleteForRelation_eq_ok hs
    exact (lockRowForRelation_spares hL hl).setHeap heap
  | appendCommit tx =>
    cases htx
    obtain ⟨t, a, wal, ht, -, -, rfl⟩ := appendCommit_ok hs
    refine ⟨?_, ?_, fun _ _ _ h => h⟩
    · intro x t' hx k hk
      rw [setTxn_lookup] at hx
      split at hx
      · next h => cases hx; subst h; exact hL x t ht k hk
      · exact hL x t' hx k hk
    · intro x hx
      rw [setTxn_lookup, if_neg hx]
  | finishCommit tx =>
    cases htx
    obtain ⟨t, csn, endLsn, d, wal, ht, -, -, rfl⟩ := finishCommit_ok hs
    exact closeTxn_spares hL rfl rfl
  | failCommit tx =>
    cases htx
    obtain ⟨t, csn, endLsn, ht, -, rfl⟩ := failCommit_ok hs
    exact closeTxn_spares hL rfl rfl
  | rollback tx =>
    cases htx
    obtain ⟨t, ht, -, rfl⟩ := rollback_ok hs
    exact closeTxn_spares hL rfl rfl

theorem begin_spares {iso : Isolation} (hL : LockInv e) (hb : e.begin iso = .ok e') :
    Spares e e.txs.nextTx e' := by
  obtain ⟨-, hlk, -, -, -, -, htx⟩ := begin_ok hb
  have hother : ∀ x, x ≠ e.txs.nextTx → e'.txns.lookup x = e.txns.lookup x := by
    intro x hx
    rw [htx, AList.lookup_insert_ne hx]
  refine ⟨?_, hother, fun x k _ h => hlk ▸ h⟩
  intro x t' hx k hk
  by_cases hne : x = e.txs.nextTx
  · subst hne
    rw [htx, AList.lookup_insert] at hx
    cases hx
    cases hk
  · rw [hother x hne] at hx
    rw [hlk]
    exact hL x t' hx k hk

theorem step_spares_some {op : Op} (hL : LockInv e) (hs : e.step op = .ok e') :
    ∃ x, Spares e x e' ∧ (op.tx? = some x ∨ x = e.txs.nextTx) := by
  cases htx : op.tx? with
  | some x => exact ⟨x, step_spares hL htx hs, .inl rfl⟩
  | none =>
    cases op with
    | begin iso => exact ⟨_, begin_spares hL hs, .inr rfl⟩
    | _ => cases htx

end Engine
end RedlineDb
