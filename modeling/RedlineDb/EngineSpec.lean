import RedlineDb.Engine
import RedlineDb.HeapChain

/-!
# What one engine step does to transactions

`TxInv` ties the engine's transactions to the status table; `TxLe e e'` is what every step grants to
the states of the transactions: commits and aborts are final, snapshots of open transactions only
move forward.
-/

namespace RedlineDb.Engine
open Lib ConcurrentTxStatus
variable {e e' e1 : Engine} {tx tx' rel row : Nat} {t t' : Txn}

structure TxInv (e : Engine) : Prop where
  next : 1 ≤ e.txs.nextTx
  /-- Ids from the counter on are unused. -/
  fresh : ∀ tx, e.txs.nextTx ≤ tx → e.txns.lookup tx = none
  pos : ∀ tx t, e.txns.lookup tx = some t → 1 ≤ tx
  running : ∀ tx t, e.txns.lookup tx = some t → t.phase ≠ .closed → e.txs.state tx = .inProgress
  visible : ∀ tx t, e.txns.lookup tx = some t → t.snapshot.visibleCsn ≤ e.txs.publishedCsn
  /-- Only transactions that were begun commit. -/
  begun : ∀ tx csn, e.txs.state tx = .committed csn → tx < e.txs.nextTx

structure TxLe (e e' : Engine) : Prop where
  next : e.txs.nextTx ≤ e'.txs.nextTx
  committed : ∀ tx csn, e.txs.state tx = .committed csn → e'.txs.state tx = .committed csn
  aborted : ∀ tx, tx < e.txs.nextTx → e.txs.state tx = .aborted → e'.txs.state tx = .aborted
  inProgress : ∀ tx, tx < e.txs.nextTx → e'.txs.state tx = .inProgress →
    e.txs.state tx = .inProgress
  published : e.txs.publishedCsn ≤ e'.txs.publishedCsn
  /-- The snapshot of an open transaction is as recent as before, or as the step. -/
  snapshot : ∀ tx t', e'.txns.lookup tx = some t' → t'.isOpen →
    e.txs.publishedCsn ≤ t'.snapshot.visibleCsn ∨
      ∃ t, e.txns.lookup tx = some t ∧ t.isOpen ∧ t.snapshot.visibleCsn ≤ t'.snapshot.visibleCsn

theorem TxInv.lt (hi : TxInv e) (ht : e.txns.lookup tx = some t) : tx < e.txs.nextTx := by
  by_contra hge
  rw [hi.fresh tx (Nat.le_of_not_lt hge)] at ht
  cases ht

theorem isOpen_iff : t.isOpen ↔ t.phase = .active := by simp [Txn.isOpen]

theorem setTxn_lookup (x : Nat) :
    (e.setTxn tx t).txns.lookup x = if x = tx then some t else e.txns.lookup x :=
  Lib.lookup_insert

theorem openTxn_eq_ok : e.openTxn tx = .ok t ↔ e.txns.lookup tx = some t ∧ t.isOpen := by
  unfold openTxn
  cases e.txns.lookup tx with
  | none => simp
  | some t' =>
    dsimp only
    split
    · next h =>
      simp only [Except.ok.injEq, Option.some.injEq]
      exact ⟨fun h' => h' ▸ ⟨rfl, h⟩, fun h' => h'.1⟩
    · next h =>
      simp only [reduceCtorEq, Option.some.injEq, false_iff, not_and]
      rintro rfl
      simpa using h

def Committing (e : Engine) (x c : Nat) : Prop :=
  ∃ t endLsn, e.txns.lookup x = some t ∧ t.phase = .committing c endLsn

theorem committing_iff {c : Nat} (ht : e.txns.lookup tx = some t) :
    e.Committing tx c ↔ ∃ l, t.phase = .committing c l := by
  simp [Committing, ht]

theorem not_committing {c : Nat} (ht : e.txns.lookup tx = some t) (hopen : t.isOpen) :
    ¬ e.Committing tx c := by
  simp [committing_iff ht, isOpen_iff.1 hopen]

/-! ### A step of one transaction -/

structure Moved (e : Engine) (tx : Nat) (t : Txn) (st : TxState) (e' : Engine) : Prop where
  was : (tx = e.txs.nextTx ∧ t.snapshot.visibleCsn = e.txs.publishedCsn) ∨
    ∃ t0, e.txns.lookup tx = some t0 ∧
    t0.phase ≠ .closed ∧ (t.isOpen → t0.isOpen) ∧ t.isolation = t0.isolation ∧
    (t.snapshot = t0.snapshot ∨ t0.isolation = .readCommitted ∧ t.snapshot = e.txs.snapshot)
  running : t.phase ≠ .closed → st = .inProgress
  lt : tx < e'.txs.nextTx
  next : e.txs.nextTx ≤ e'.txs.nextTx
  published : e.txs.publishedCsn ≤ e'.txs.publishedCsn
  state : ∀ x, e'.txs.state x = if x = tx then st else e.txs.state x
  lookup : ∀ x, e'.txns.lookup x = if x = tx then some t else e.txns.lookup x

variable {st : TxState}
section
variable (hM : Moved e tx t st e')
include hM

theorem Moved.visible (hi : TxInv e) : t.snapshot.visibleCsn ≤ e.txs.publishedCsn := by
  rcases hM.was with ⟨-, h⟩ | ⟨t0, h0, -, -, -, h | ⟨-, h⟩⟩
  · exact h.le
  · exact h ▸ hi.visible tx t0 h0
  · exact h ▸ le_rfl

theorem Moved.live (hi : TxInv e) (hlt : tx < e.txs.nextTx) : e.txs.state tx = .inProgress := by
  rcases hM.was with ⟨h, -⟩ | ⟨t0, h0, hp, -⟩
  · omega
  · exact hi.running tx t0 h0 hp

theorem Moved.txInv (hi : TxInv e) : TxInv e' := by
  have hlt := hM.lt
  have hnext := hM.next
  refine ⟨hi.next.trans hnext, fun x hx => ?_, fun x t1 hx => ?_, fun x t1 hx hph => ?_,
    fun x t1 hx => ?_, fun x csn hx => ?_⟩
  · rw [hM.lookup, if_neg (by omega)]
    exact hi.fresh x (by omega)
  · rw [hM.lookup] at hx
    split at hx
    · next h =>
      rcases hM.was with ⟨h', -⟩ | ⟨t0, h0, -⟩
      · exact h ▸ h' ▸ hi.next
      · exact h ▸ hi.pos tx t0 h0
    · exact hi.pos x t1 hx
  · rw [hM.lookup] at hx
    rw [hM.state]
    split at hx
    · next h =>
      cases hx
      exact (if_pos h).trans (hM.running hph)
    · next h => exact (if_neg h).trans (hi.running x t1 hx hph)
  · rw [hM.lookup] at hx
    split at hx
    · cases hx
      exact (hM.visible hi).trans hM.published
    · exact (hi.visible x t1 hx).trans hM.published
  · rw [hM.state] at hx
    split at hx
    · omega
    · exact (hi.begun x csn hx).trans_le hnext

theorem Moved.txLe (hi : TxInv e) : TxLe e e' := by
  have hkeep : ∀ {x st'}, x < e.txs.nextTx → e.txs.state x = st' → st' ≠ .inProgress →
      e'.txs.state x = st' := by
    intro x st' hlt hx hne
    rw [hM.state, if_neg, hx]
    rintro rfl
    exact hne (hx.symm.trans (hM.live hi hlt))
  refine ⟨hM.next, fun x csn hx => hkeep (hi.begun x csn hx) hx (by simp),
    fun x hlt hx => hkeep hlt hx (by simp),
    fun x hlt hx => ?_, hM.published, fun x t1 hx hop => ?_⟩
  · rw [hM.state] at hx
    split at hx
    · next h => exact h ▸ hM.live hi (h ▸ hlt)
    · exact hx
  · rw [hM.lookup] at hx
    split at hx
    · next h =>
      cases hx
      subst h
      rcases hM.was with ⟨-, h⟩ | ⟨t0, h0, -, hopen, -, h | ⟨-, h⟩⟩
      · exact .inl h.symm.le
      · exact .inr ⟨t0, h0, hopen hop, le_of_eq (by rw [h])⟩
      · exact .inl (le_of_eq (by rw [h]; rfl))
    · exact .inr ⟨t1, hx, hop, le_rfl⟩

end

/-! ### Steps of one transaction that leave every state alone -/

/-- `Touch e tx t e'`: transaction `tx` became `t`, still open, with a snapshot that is its old one
or a new one; states, counters and the frontier are as before. -/
structure Touch (e : Engine) (tx : Nat) (t : Txn) (e' : Engine) : Prop where
  heap : e'.heap = e.heap
  txs : e'.txs = { e.txs with activeSnapshots := e'.txs.activeSnapshots }
  self : e'.txns.lookup tx = some t
  other : ∀ tx', tx' ≠ tx → e'.txns.lookup tx' = e.txns.lookup tx'
  snapshot : ∃ t0, e.txns.lookup tx = some t0 ∧ t0.isOpen ∧ t.isolation = t0.isolation ∧
    t.phase = t0.phase ∧
    t.snapshot = if t0.isolation = .readCommitted then e.txs.snapshot else t0.snapshot

section
variable (hT : Touch e tx t e')
include hT

theorem Touch.state (tx' : Nat) : e'.txs.state tx' = e.txs.state tx' := by
  rw [hT.txs]; rfl

theorem Touch.isOpen : t.isOpen := by
  obtain ⟨t0, -, h1, -, h2, -⟩ := hT.snapshot
  rw [isOpen_iff] at h1 ⊢
  rw [h2, h1]

theorem Touch.published : e'.txs.publishedCsn = e.txs.publishedCsn := by rw [hT.txs]

theorem Touch.nextTx : e'.txs.nextTx = e.txs.nextTx := by rw [hT.txs]

theorem Touch.moved (hi : TxInv e) : Moved e tx t .inProgress e' := by
  obtain ⟨t0, h0, hopen, hiso, hph, hsnap⟩ := hT.snapshot
  have hp : t0.phase ≠ .closed := by simp [isOpen_iff.1 hopen]
  refine ⟨.inr ⟨t0, h0, hp, fun _ => hopen, hiso, ?_⟩, fun _ => rfl, hT.nextTx ▸ hi.lt h0,
    hT.nextTx.symm.le, hT.published.symm.le, fun x => ?_, fun x => ?_⟩
  · rw [hsnap]
    split
    · next h => exact .inr ⟨h, rfl⟩
    · exact .inl rfl
  · rw [hT.state]
    split
    · next h => exact h ▸ hi.running tx t0 h0 hp
    · rfl
  · split
    · next h => exact h ▸ hT.self
    · next h => exact hT.other x h

end

theorem refresh_touch (ht : e.txns.lookup tx = some t) (hopen : t.isOpen) :
    Touch e tx (e.refresh tx t).1 (e.refresh tx t).2 := by
  unfold refresh
  split
  · next hrc =>
    refine ⟨rfl, rfl, by simp [setTxn], ?_, t, ht, hopen, rfl, rfl, by simp [hrc]⟩
    intro x hx
    simp [setTxn, AList.lookup_insert_ne hx]
  · next hrc => exact ⟨rfl, rfl, ht, fun _ _ => rfl, t, ht, hopen, rfl, rfl, by simp [hrc]⟩

theorem lockRowInRel_ok {key : Nat × Nat} (ht : e.txns.lookup tx = some t)
    (hl : e.lockRowInRel tx t key = .ok (t', e')) : e'.heap = e.heap ∧ e'.txs = e.txs ∧
    e'.txns.lookup tx = some t' ∧
      (∀ tx', tx' ≠ tx → e'.txns.lookup tx' = e.txns.lookup tx') ∧ t'.isolation = t.isolation ∧
      t'.phase = t.phase ∧ t'.snapshot = t.snapshot ∧ key ∈ t'.rowLocks ∧
        ((key ∈ t.rowLocks ∧ t' = t ∧ e' = e) ∨
        (t'.rowLocks = t.rowLocks ++ [key] ∧
          (e.locks.lookup key = none ∨ e.locks.lookup key = some tx) ∧
          e'.locks.lookup key = some tx ∧ ∀ k, k ≠ key →
            e'.locks.lookup k = e.locks.lookup k)) := by
  unfold lockRowInRel at hl
  split at hl
  · next hmem =>
    obtain ⟨rfl, rfl⟩ := hl
    exact ⟨rfl, rfl, ht, fun _ _ => rfl, rfl, rfl, rfl, hmem, .inl ⟨hmem, rfl, rfl⟩⟩
  · split at hl
    · next hnone =>
      obtain ⟨rfl, rfl⟩ := hl
      refine ⟨rfl, rfl, by simp [setTxn], ?_, rfl, rfl, rfl, by simp,
        .inr ⟨rfl, .inl hnone, by simp [setTxn], ?_⟩⟩
      · intro x hx; simp [setTxn, AList.lookup_insert_ne hx]
      · intro k hk; simp [setTxn, AList.lookup_insert_ne hk]
    · next owner hown =>
      split at hl
      · next heq =>
        subst heq
        obtain ⟨rfl, rfl⟩ := hl
        refine ⟨rfl, rfl, by simp [setTxn], ?_, rfl, rfl, rfl, by simp,
          .inr ⟨rfl, .inr hown, hown, fun _ _ => rfl⟩⟩
        intro x hx; simp [setTxn, AList.lookup_insert_ne hx]
      · cases hl

theorem refresh_locks (e : Engine) (tx : Nat) (t : Txn) : (e.refresh tx t).2.locks = e.locks ∧
    (e.refresh tx t).1.rowLocks = t.rowLocks := by
  unfold refresh
  split <;> exact ⟨rfl, rfl⟩

theorem lockRowForRelation_touch (hl : e.lockRowForRelation tx rel row = .ok (t', e')) :
    Touch e tx t' e' := by
  simp only [lockRowForRelation, bind_eq_ok, openTxn_eq_ok, Prod.exists, pure_eq_ok] at hl
  obtain ⟨t, ⟨ht, hopen⟩, t1, e1, hl1, hl⟩ := hl
  have hA := refresh_touch ht hopen
  obtain ⟨h1, h2, h3, h4, h5, h6, h7, -, -⟩ := lockRowInRel_ok hA.self hl1
  have hB := refresh_touch (t := t1) h3 (by rw [isOpen_iff, h6]; exact isOpen_iff.1 hA.isOpen)
  rw [hl] at hB
  obtain ⟨t0, h0, -, hiso, hphase, hsnap⟩ := hA.snapshot
  obtain ⟨t2, h0', -, hiso', hphase', hsnap'⟩ := hB.snapshot
  rw [ht] at h0
  cases h0
  rw [h3] at h0'
  cases h0'
  refine ⟨hB.heap.trans (h1.trans hA.heap), ?_, hB.self, ?_, t, ht, hopen, ?_, ?_, ?_⟩
  · rw [hB.txs, h2, hA.txs]
  · intro x hx
    rw [hB.other x hx, h4 x hx, hA.other x hx]
  · rw [hiso', h5, hiso]
  · rw [hphase', h6, hphase]
  · -- the second refresh sees the same status table as the first
    have hss : e1.txs.snapshot = e.txs.snapshot := by rw [h2, hA.txs]; rfl
    split <;> simp_all

/-! ### Steps that end a transaction's run or start one -/

theorem begin_ok {iso : Isolation} (hb : e.begin iso = .ok e') :
    e'.heap = e.heap ∧ e'.locks = e.locks ∧
      (∀ x, e'.txs.state x = if x = e.txs.nextTx then .inProgress else e.txs.state x) ∧
      e'.txs.nextTx = e.txs.nextTx + 1 ∧ e'.txs.publishedCsn = e.txs.publishedCsn ∧
        e'.txs.nextCsn = e.txs.nextCsn ∧
      e'.txns = e.txns.insert e.txs.nextTx
        ⟨iso, ⟨e.txs.publishedCsn, e.txs.nextTx + 1, e.txs.nextTx + 1⟩, [], .active⟩ := by
  obtain ⟨-, rfl⟩ := guarded_eq_ok.1 hb
  refine ⟨rfl, rfl, ?_, rfl, rfl, rfl, rfl⟩
  intro x
  exact state_begin e.txs x

theorem appendCommit_ok (ha : e.appendCommit tx = .ok e') : ∃ t a wal, e.txns.lookup tx = some t ∧
    t.isOpen ∧
      e.heap.wal.appendCommit tx e.txs.nextCsn = .ok (a, wal) ∧
      e' = { e with txs := e.txs.reserveCommitCsn.2, heap := { e.heap with wal } }.setTxn tx
        { t with phase := .committing e.txs.nextCsn a.endLsn } := by
  simp only [appendCommit, bind_eq_ok, openTxn_eq_ok, pure_eq_ok, Prod.exists] at ha
  obtain ⟨t, ⟨ht, hopen⟩, a, wal, hw, rfl⟩ := ha
  exact ⟨t, a, wal, ht, hopen, hw, rfl⟩

theorem finishCommit_ok (hf : e.finishCommit tx = .ok e') :
    ∃ t csn endLsn d wal, e.txns.lookup tx = some t ∧ t.phase = .committing csn endLsn ∧
      e.heap.wal.flushUntil endLsn = .ok (d, wal) ∧
      e' = { e with txs := e.txs.publishCommit tx csn, heap := { e.heap with wal } }.closeTxn
        tx t := by
  unfold finishCommit at hf
  split at hf
  · next t ht =>
    split at hf
    · next csn endLsn hp =>
      simp only [bind_eq_ok, pure_eq_ok, Prod.exists] at hf
      obtain ⟨d, wal, hw, rfl⟩ := hf
      exact ⟨t, csn, endLsn, d, wal, ht, hp, hw, rfl⟩
    · cases hf
  · cases hf

theorem failCommit_ok (hf : e.failCommit tx = .ok e') :
    ∃ t csn endLsn, e.txns.lookup tx = some t ∧ t.phase = .committing csn endLsn ∧
      e' = { e with
        txs := (e.txs.cancelReservedCsn csn).abort tx
        heap := { e.heap with wal := { e.heap.wal with failure := true } } }.closeTxn tx t := by
  unfold failCommit at hf
  split at hf
  · next t ht =>
    split at hf
    · next csn endLsn hp =>
      simp only [Except.ok.injEq] at hf
      exact ⟨t, csn, endLsn, ht, hp, hf.symm⟩
    · cases hf
  · cases hf

theorem rollback_ok (hr : e.rollback tx = .ok e') :
    ∃ t, e.txns.lookup tx = some t ∧ t.isOpen ∧
      e' = { e with txs := e.txs.abort tx }.closeTxn tx t := by
  simp only [rollback, bind_eq_ok, openTxn_eq_ok, pure_eq_ok] at hr
  obtain ⟨t, ⟨ht, hopen⟩, rfl⟩ := hr
  exact ⟨t, ht, hopen, rfl⟩

theorem begin_moved {iso : Isolation} (hb : e.begin iso = .ok e') :
    ∃ t, Moved e e.txs.nextTx t .inProgress e' ∧
    t.phase = .active := by
  obtain ⟨-, -, hst, hnx, hpub, -, htx⟩ := begin_ok hb
  exact ⟨⟨iso, ⟨e.txs.publishedCsn, e.txs.nextTx + 1, e.txs.nextTx + 1⟩, [], .active⟩,
    ⟨.inl ⟨rfl, rfl⟩, fun _ => rfl, by omega,
    by omega, hpub.symm.le, hst, fun x => by rw [htx, Lib.lookup_insert]⟩, rfl⟩

theorem appendCommit_moved {a : WalAppend} {wal : WalCoordinator} (hi : TxInv e)
    (ht : e.txns.lookup tx = some t)
    (hopen : t.isOpen) :
    Moved e tx { t with phase := .committing e.txs.nextCsn a.endLsn } .inProgress
      ({ e with txs := e.txs.reserveCommitCsn.2, heap := { e.heap with wal } }.setTxn tx
        { t with phase := .committing e.txs.nextCsn a.endLsn }) := by
  have hp : t.phase ≠ .closed := by simp [isOpen_iff.1 hopen]
  refine ⟨.inr ⟨t, ht, hp, fun _ => hopen, rfl, .inl rfl⟩, fun _ => rfl, hi.lt ht, le_rfl, le_rfl,
    fun x => ?_,
    setTxn_lookup⟩
  split
  · next h => exact h ▸ hi.running tx t ht hp
  · rfl

theorem closeTxn_lookup (x : Nat) : (e.closeTxn tx t).txns.lookup x =
    if x = tx then some { t with rowLocks := [], phase := .closed } else e.txns.lookup x :=
      Lib.lookup_insert

theorem closeTxn_moved {txs : ConcurrentTxStatus} {heap : PageBackedHeap} (hi : TxInv e)
    (ht : e.txns.lookup tx = some t) (hp : t.phase ≠ .closed)
    (hstate : ∀ x, txs.state x = if x = tx then st else e.txs.state x)
    (hnext : txs.nextTx = e.txs.nextTx)
    (hpub : e.txs.publishedCsn ≤ txs.publishedCsn) :
    Moved e tx { t with rowLocks := [], phase := .closed } st
      ({ e with txs, heap }.closeTxn tx t) :=
  ⟨.inr ⟨t, ht, hp, by simp [isOpen_iff], rfl, .inl rfl⟩, by simp,
    Nat.lt_of_lt_of_eq (hi.lt ht) hnext.symm,
    hnext.symm.le, hpub, hstate, closeTxn_lookup⟩

theorem publish_moved {csn l : Nat} (hi : TxInv e) (ht : e.txns.lookup tx = some t)
    (hp : t.phase = .committing csn l)
    (heap : PageBackedHeap) : Moved e tx { t with rowLocks := [], phase := .closed }
    (.committed csn)
      ({ e with txs := e.txs.publishCommit tx csn, heap }.closeTxn tx t) :=
  closeTxn_moved hi ht (by simp [hp]) (fun x => state_publishCommit e.txs x tx csn)
    (nextTx_completeCsn _ _)
    (publishedCsn_le_completeCsn (e.txs.setState tx (.committed csn)) csn)

theorem failCommit_moved (hi : TxInv e) (hf : e.failCommit tx = .ok e') :
    ∃ t, Moved e tx t .aborted e' := by
  obtain ⟨t, csn, endLsn, ht, hp, rfl⟩ := failCommit_ok hf
  refine ⟨_, closeTxn_moved hi ht (by simp [hp]) (fun x => ?_) (nextTx_skipCsn _ _)
    (publishedCsn_le_skipCsn _ _)⟩
  simp [cancelReservedCsn]

theorem rollback_moved (hi : TxInv e) (hr : e.rollback tx = .ok e') :
    ∃ t, Moved e tx t .aborted e' := by
  obtain ⟨t, ht, hopen, rfl⟩ := rollback_ok hr
  exact ⟨_, closeTxn_moved hi ht (by simp [isOpen_iff.1 hopen]) (fun x => state_abort e.txs x tx)
    rfl le_rfl⟩

theorem TxInv.setHeap (hi : TxInv e) (heap : PageBackedHeap) : TxInv { e with heap } :=
  { hi with }

theorem TxLe.setHeap (hl : TxLe e e') (heap : PageBackedHeap) : TxLe e { e' with heap } :=
  { hl with }

theorem TxLe.refl (e : Engine) : TxLe e e :=
  ⟨le_rfl, fun _ _ h => h, fun _ _ h => h, fun _ _ h => h, le_rfl,
    fun _ t h ho => .inr ⟨t, h, ho, le_rfl⟩⟩

theorem insertForRelation_eq_ok {payload : Bytes}
    (hs : e.insertForRelation tx rel row payload = .ok e') :
    ∃ t e1, Touch e tx t e1 ∧ e1.locks = e.locks ∧ ∃ heap,
      e.heap.insertForRelation tx rel row payload 1 = .ok heap ∧ e' = { e1 with heap } := by
  simp only [insertForRelation, bind_eq_ok, openTxn_eq_ok, pure_eq_ok] at hs
  obtain ⟨t, ⟨ht, hopen⟩, heap, hh, rfl⟩ := hs
  have hT := refresh_touch ht hopen
  rw [hT.heap] at hh
  exact ⟨_, _, hT, (refresh_locks _ _ _).1, heap, hh, rfl⟩

theorem updateForRelation_eq_ok {payload : Bytes}
    (hs : e.updateForRelation tx rel row payload = .ok e') :
    ∃ t e1, e.lockRowForRelation tx rel row = .ok (t, e1) ∧ ∃ heap,
      e.heap.updateForRelation tx t.snapshot e1.txs rel row payload 1 = .ok heap ∧
        e' = { e1 with heap } := by
  simp only [updateForRelation, bind_eq_ok, pure_eq_ok, Prod.exists] at hs
  obtain ⟨t, e1, hl, heap, hh, rfl⟩ := hs
  rw [(lockRowForRelation_touch hl).heap] at hh
  exact ⟨t, e1, hl, heap, hh, rfl⟩

theorem deleteForRelation_eq_ok (hs : e.deleteForRelation tx rel row = .ok e') :
    ∃ t e1, e.lockRowForRelation tx rel row = .ok (t, e1) ∧ ∃ heap,
      e.heap.deleteForRelation tx t.snapshot e1.txs rel row 1 = .ok heap ∧
        e' = { e1 with heap } := by
  simp only [deleteForRelation, bind_eq_ok, pure_eq_ok, Prod.exists] at hs
  obtain ⟨t, e1, hl, heap, hh, rfl⟩ := hs
  rw [(lockRowForRelation_touch hl).heap] at hh
  exact ⟨t, e1, hl, heap, hh, rfl⟩

theorem getForRelation_eq_ok {payload : Option Bytes}
    (hs : e.getForRelation tx rel row = .ok (payload, e')) :
    ∃ t, Touch e tx t e' ∧ e'.locks = e.locks := by
  simp only [getForRelation, bind_eq_ok, openTxn_eq_ok, pure_eq_ok, Prod.mk.injEq] at hs
  obtain ⟨t, ⟨ht, hopen⟩, _, -, -, rfl⟩ := hs
  exact ⟨_, refresh_touch ht hopen, (refresh_locks _ _ _).1⟩

inductive Stepped (e : Engine) : Op → Engine → Prop
  | begin {iso : Isolation} {e' : Engine} (h : e.begin iso = .ok e') : Stepped e (.begin iso) e'
  | get {tx rel row : Nat} {t : Txn} {e' : Engine} (hT : Touch e tx t e') :
      Stepped e (.getForRelation tx rel row) e'
  | lock {tx rel row : Nat} {t : Txn} {e' : Engine} (hT : Touch e tx t e') :
      Stepped e (.lockRowForRelation tx rel row) e'
  | insert {tx rel row : Nat} {payload : Bytes} {t : Txn} {e1 : Engine} {heap : PageBackedHeap}
      (hT : Touch e tx t e1)
      (h : e.heap.insertForRelation tx rel row payload 1 = .ok heap) :
      Stepped e (.insertForRelation tx rel row payload) { e1 with heap }
  | update {tx rel row : Nat} {payload : Bytes} {t : Txn} {e1 : Engine} {heap : PageBackedHeap}
      (hT : Touch e tx t e1)
      (h : e.heap.updateForRelation tx t.snapshot e1.txs rel row payload 1 = .ok heap) :
      Stepped e (.updateForRelation tx rel row payload) { e1 with heap }
  | delete {tx rel row : Nat} {t : Txn} {e1 : Engine} {heap : PageBackedHeap} (hT : Touch e tx t e1)
      (h : e.heap.deleteForRelation tx t.snapshot e1.txs rel row 1 = .ok heap) :
      Stepped e (.deleteForRelation tx rel row) { e1 with heap }
  | appendCommit {tx : Nat} {e' : Engine} (h : e.appendCommit tx = .ok e') :
      Stepped e (.appendCommit tx) e'
  | finishCommit {tx : Nat} {e' : Engine} (h : e.finishCommit tx = .ok e') :
      Stepped e (.finishCommit tx) e'
  | failCommit {tx : Nat} {e' : Engine} (h : e.failCommit tx = .ok e') :
      Stepped e (.failCommit tx) e'
  | rollback {tx : Nat} {e' : Engine} (h : e.rollback tx = .ok e') : Stepped e (.rollback tx) e'

theorem stepped {op : Op} (hs : e.step op = .ok e') : Stepped e op e' := by
  cases op with
  | begin iso => exact .begin hs
  | getForRelation tx rel row =>
    simp only [step, bind_eq_ok, pure_eq_ok, Prod.exists] at hs
    obtain ⟨p, e1, h1, rfl⟩ := hs
    obtain ⟨t, hT, -⟩ := getForRelation_eq_ok h1
    exact .get hT
  | insertForRelation tx rel row payload =>
    obtain ⟨t, e1, hT, -, heap, h, rfl⟩ := insertForRelation_eq_ok hs
    exact .insert hT h
  | lockRowForRelation tx rel row =>
    simp only [step, bind_eq_ok, pure_eq_ok, Prod.exists] at hs
    obtain ⟨t, e1, h1, rfl⟩ := hs
    exact .lock (lockRowForRelation_touch h1)
  | updateForRelation tx rel row payload =>
    obtain ⟨t, e1, hl, heap, h, rfl⟩ := updateForRelation_eq_ok hs
    exact .update (lockRowForRelation_touch hl) h
  | deleteForRelation tx rel row =>
    obtain ⟨t, e1, hl, heap, h, rfl⟩ := deleteForRelation_eq_ok hs
    exact .delete (lockRowForRelation_touch hl) h
  | appendCommit tx => exact .appendCommit hs
  | finishCommit tx => exact .finishCommit hs
  | failCommit tx => exact .failCommit hs
  | rollback tx => exact .rollback hs

theorem Moved.setHeap (hM : Moved e tx t st e') (heap : PageBackedHeap) :
    Moved e tx t st { e' with heap } :=
  { hM with }

/-- Every step is a step of one transaction. A commit under way ends with its CSN, or is aborted
when the log fails. -/
theorem step_moved {op : Op} (hi : TxInv e) (hs : e.step op = .ok e') :
    ∃ tx t st, Moved e tx t st e' ∧
    (∀ c, st = .committed c → e.Committing tx c) ∧
    ∀ c, e.Committing tx c → st = .committed c ∨ e'.heap.wal.failure = true ∧ st = .aborted := by
  have hcall : ∀ {tx t e1} heap, Touch e tx t e1 → ∃ tx t st, Moved e tx t st { e1 with heap } ∧
      (∀ c, st = .committed c → e.Committing tx c) ∧
      ∀ c, e.Committing tx c → st = .committed c ∨ heap.wal.failure = true ∧ st = .aborted := by
    intro tx t e1 heap hT
    obtain ⟨t0, h0, hopen, -⟩ := hT.snapshot
    exact ⟨_, _, _, (hT.moved hi).setHeap heap, by simp,
      fun c h => absurd h (not_committing h0 hopen)⟩
  cases stepped hs with
  | begin hb =>
    obtain ⟨t, hM, -⟩ := begin_moved hb
    refine ⟨_, _, _, hM, by simp, ?_⟩
    rintro c ⟨t0, l, h0, -⟩
    exact absurd (hi.lt h0) (lt_irrefl _)
  | get hT | lock hT | insert hT | update hT | delete hT => exact hcall _ hT
  | appendCommit ha =>
    obtain ⟨t, a, wal, ht, hopen, -, rfl⟩ := appendCommit_ok ha
    exact ⟨_, _, _, appendCommit_moved hi ht hopen, by simp,
      fun c h => absurd h (not_committing ht hopen)⟩
  | finishCommit hf =>
    obtain ⟨t, csn, endLsn, d, wal, ht, hp, -, rfl⟩ := finishCommit_ok hf
    refine ⟨_, _, _, publish_moved hi ht hp _, ?_, ?_⟩ <;> simp [committing_iff ht, hp]
  | failCommit hf =>
    obtain ⟨t, hM⟩ := failCommit_moved hi hf
    obtain ⟨_, _, _, -, -, rfl⟩ := failCommit_ok hf
    exact ⟨_, _, _, hM, by simp, fun _ _ => .inr ⟨rfl, rfl⟩⟩
  | rollback hr =>
    obtain ⟨t, hM⟩ := rollback_moved hi hr
    obtain ⟨t0, ht, hopen, -⟩ := rollback_ok hr
    exact ⟨_, _, _, hM, by simp, fun c h => absurd h (not_committing ht hopen)⟩

theorem step_tx {op : Op} (hi : TxInv e) (hs : e.step op = .ok e') : TxInv e' ∧ TxLe e e' := by
  obtain ⟨tx, t, st, hM, -⟩ := step_moved hi hs
  exact ⟨hM.txInv hi, hM.txLe hi⟩

theorem fetch_create {relId lanes segmentBytes walBufferBytes q : Nat} {pageSize : PageSize}
    {p : Page} :
    (create relId lanes pageSize segmentBytes walBufferBytes).heap.store.fetch q ≠ .ok p := by
  intro hq
  rcases Store.fetch_eq_ok.1 hq with ⟨f, hf, -⟩ | ⟨-, hp⟩
  · exact absurd hf (by simp [create, PageBackedHeap.new, Store.create])
  · cases hp

theorem heapWf_create (relId lanes : Nat) (pageSize : PageSize)
    (segmentBytes walBufferBytes : Nat) :
    PageBackedHeap.HeapWf (create relId lanes pageSize segmentBytes walBufferBytes).heap := by
  refine ⟨⟨fun q p hq => absurd hq fetch_create, le_rfl, rfl, List.nodup_nil,
    fun q p hq => absurd hq fetch_create,
    ?_, ?_, ?_, ?_⟩, rfl,
      fun q f hq => absurd hq (by simp [create, PageBackedHeap.new, Store.create])⟩
  · intro q hq; cases hq
  · intro i q hq; cases hq
  · intro i q hq; cases hq
  · intro i q hq; cases hq

theorem txInv_create (relId lanes : Nat) (pageSize : PageSize) (segmentBytes walBufferBytes : Nat) :
    TxInv (create relId lanes pageSize segmentBytes walBufferBytes) := by
  refine ⟨le_rfl, fun _ _ => rfl, ?_, ?_, ?_, ?_⟩
  · intro tx t ht; cases ht
  · intro tx t ht; cases ht
  · intro tx t ht; cases ht
  · intro tx csn hst; cases hst

end RedlineDb.Engine
