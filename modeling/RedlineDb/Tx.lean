import Mathlib.Data.List.Sort
import RedlineDb.Format
import RedlineDb.Lib.Assoc

/-!
# Transaction status and the commit frontier

`ConcurrentTxStatus` of `engine/tx/status.rs`: the state of every transaction (unknown ids count as
aborted), the transaction and CSN counters, and the frontier that turns CSNs reserved in one order
and completed in another into the contiguous `publishedCsn` that snapshots read.
-/

namespace RedlineDb

inductive TxState
  | inProgress
  | committed (csn : Nat)
  | aborted
deriving DecidableEq

inductive Isolation
  | readCommitted | snapshot | serializable
deriving DecidableEq

/-- A snapshot; the set of active transactions is always empty on the engine's path and is left out.
-/
structure Snapshot where
  visibleCsn : Nat
  xmin : Nat
  xmax : Nat
deriving DecidableEq

/-- `pending`, `completed` and `skipped` are the frontier's sets. -/
structure ConcurrentTxStatus where
  states : AList (fun _ : Nat => TxState)
  activeSnapshots : AList (fun _ : Nat => Nat)
  nextTx : Nat
  nextCsn : Nat
  publishedCsn : Nat
  pending : List Nat
  completed : List Nat
  skipped : List Nat

namespace ConcurrentTxStatus

def new : ConcurrentTxStatus where
  states := ∅
  activeSnapshots := ∅
  nextTx := 1
  nextCsn := 1
  publishedCsn := 0
  pending := []
  completed := []
  skipped := []

variable (t : ConcurrentTxStatus)

def state (tx : Nat) : TxState := (t.states.lookup tx).getD .aborted

def setState (tx : Nat) (st : TxState) : ConcurrentTxStatus :=
  { t with states := t.states.insert tx st }

def begin : Nat × ConcurrentTxStatus :=
  (t.nextTx, { t with nextTx := t.nextTx + 1 }.setState t.nextTx .inProgress)

def snapshot : Snapshot where
  visibleCsn := t.publishedCsn
  xmin := t.nextTx
  xmax := t.nextTx

def setActiveSnapshot (tx csn : Nat) : ConcurrentTxStatus :=
  { t with activeSnapshots := t.activeSnapshots.insert tx csn }

def unregisterActive (tx : Nat) : ConcurrentTxStatus :=
  { t with activeSnapshots := t.activeSnapshots.erase tx }

/-- The loop of `advance_published_csn`: each round removes one element, so the number of completed
and skipped CSNs bounds the rounds. -/
def advanceLoop : Nat → ConcurrentTxStatus → ConcurrentTxStatus
  | 0, t => t
  | n + 1, t =>
    let next := t.publishedCsn + 1
    if next ∈ t.completed then
      advanceLoop n { t with completed := t.completed.erase next, publishedCsn := next }
    else if next ∈ t.skipped then
      advanceLoop n { t with skipped := t.skipped.erase next, publishedCsn := next }
    else t

def advancePublishedCsn : ConcurrentTxStatus :=
  advanceLoop (t.completed.length + t.skipped.length) t

def reserveCommitCsn : Nat × ConcurrentTxStatus :=
  (t.nextCsn, { t with nextCsn := t.nextCsn + 1, pending := t.pending.insert t.nextCsn })

def completeCsn (csn : Nat) : ConcurrentTxStatus :=
  { t with pending := t.pending.erase csn, completed := t.completed.insert csn }.advancePublishedCsn

def skipCsn (csn : Nat) : ConcurrentTxStatus :=
  { t with pending := t.pending.erase csn, skipped := t.skipped.insert csn }.advancePublishedCsn

def publishCommit (tx csn : Nat) : ConcurrentTxStatus :=
  ((t.setState tx (.committed csn)).completeCsn csn).unregisterActive tx

def cancelReservedCsn (csn : Nat) : ConcurrentTxStatus := t.skipCsn csn

def abort (tx : Nat) : ConcurrentTxStatus :=
  (t.setState tx .aborted).unregisterActive tx

def publishRecoveredCommit (tx csn : Nat) : ConcurrentTxStatus :=
  let t := t.setState tx (.committed csn)
  { t with nextTx := advancePast t.nextTx tx, nextCsn := advancePast t.nextCsn csn }.completeCsn csn

def restoreFrontier (nextTx nextCsn publishedCsn : Nat) : ConcurrentTxStatus :=
  { t with
    nextTx := max t.nextTx (max nextTx 1)
    nextCsn := max t.nextCsn (max nextCsn 1)
    publishedCsn := max t.publishedCsn publishedCsn }

def committedOf : (Σ _ : Nat, TxState) → Option (Nat × Nat)
  | ⟨tx, .committed csn⟩ => some (tx, csn)
  | _ => none

/-- `committed_states`: the committed transactions with their CSNs, sorted by transaction id. -/
def committedStates : List (Nat × Nat) :=
  (t.states.entries.filterMap committedOf).insertionSort (fun a b => a.1 ≤ b.1)

def isTxVisible (tx : Nat) (snapshot : Snapshot) (owner : Option Nat) : Bool :=
  if some tx = owner then true
  else
    match t.state tx with
    | .committed csn => csn ≤ snapshot.visibleCsn
    | .inProgress | .aborted => false

variable (tx tx' csn : Nat)

@[simp] theorem state_new : new.state tx = .aborted := rfl

@[simp] theorem state_setState (st : TxState) :
    (t.setState tx st).state tx' = if tx' = tx then st else t.state tx' := by
  unfold state setState
  rw [Lib.lookup_insert]
  split <;> rfl

theorem advanceLoop_frame (n : Nat) : (advanceLoop n t).states = t.states ∧
    (advanceLoop n t).activeSnapshots = t.activeSnapshots ∧ (advanceLoop n t).nextTx = t.nextTx ∧
    (advanceLoop n t).nextCsn = t.nextCsn ∧ (advanceLoop n t).pending = t.pending ∧
    t.publishedCsn ≤ (advanceLoop n t).publishedCsn := by
  induction n generalizing t with
  | zero => simp [advanceLoop]
  | succ n ih =>
    simp only [advanceLoop]
    split
    · obtain ⟨h1, h2, h3, h4, h5, h6⟩ := ih
        { t with
          completed := t.completed.erase (t.publishedCsn + 1)
          publishedCsn := t.publishedCsn + 1 }
      exact ⟨h1, h2, h3, h4, h5, by dsimp only at h6; omega⟩
    · split
      · obtain ⟨h1, h2, h3, h4, h5, h6⟩ := ih
          { t with
            skipped := t.skipped.erase (t.publishedCsn + 1)
            publishedCsn := t.publishedCsn + 1 }
        exact ⟨h1, h2, h3, h4, h5, by dsimp only at h6; omega⟩
      · simp

@[simp] theorem states_completeCsn : (t.completeCsn csn).states = t.states :=
  (advanceLoop_frame _ _).1
@[simp] theorem nextTx_completeCsn : (t.completeCsn csn).nextTx = t.nextTx :=
  (advanceLoop_frame _ _).2.2.1
@[simp] theorem nextCsn_completeCsn : (t.completeCsn csn).nextCsn = t.nextCsn :=
  (advanceLoop_frame _ _).2.2.2.1
@[simp] theorem pending_completeCsn : (t.completeCsn csn).pending = t.pending.erase csn :=
  (advanceLoop_frame _ _).2.2.2.2.1

theorem publishedCsn_le_completeCsn : t.publishedCsn ≤ (t.completeCsn csn).publishedCsn := by
  have h := (advanceLoop_frame { t with
      pending := t.pending.erase csn, completed := t.completed.insert csn }
    ((t.completed.insert csn).length + t.skipped.length)).2.2.2.2.2
  exact h

@[simp] theorem states_skipCsn : (t.skipCsn csn).states = t.states := (advanceLoop_frame _ _).1
@[simp] theorem nextTx_skipCsn : (t.skipCsn csn).nextTx = t.nextTx := (advanceLoop_frame _ _).2.2.1
@[simp] theorem nextCsn_skipCsn : (t.skipCsn csn).nextCsn = t.nextCsn :=
  (advanceLoop_frame _ _).2.2.2.1

theorem publishedCsn_le_skipCsn : t.publishedCsn ≤ (t.skipCsn csn).publishedCsn := by
  have h := (advanceLoop_frame { t with
      pending := t.pending.erase csn, skipped := t.skipped.insert csn }
    (t.completed.length + (t.skipped.insert csn).length)).2.2.2.2.2
  exact h

@[simp] theorem state_skipCsn : (t.skipCsn csn).state tx = t.state tx := by simp [state]

@[simp] theorem state_completeCsn : (t.completeCsn csn).state tx = t.state tx := by simp [state]

@[simp] theorem state_unregisterActive : (t.unregisterActive tx').state tx = t.state tx := rfl

@[simp] theorem state_begin :
    (t.begin).2.state tx = if tx = t.nextTx then .inProgress else t.state tx := by
  simp only [begin, state_setState]
  rfl

@[simp] theorem state_reserveCommitCsn : t.reserveCommitCsn.2.state tx = t.state tx := rfl

@[simp] theorem state_publishCommit :
    (t.publishCommit tx' csn).state tx = if tx = tx' then .committed csn else t.state tx := by
  simp [publishCommit]

@[simp] theorem state_abort :
    (t.abort tx').state tx = if tx = tx' then .aborted else t.state tx := by
  simp [abort]

end ConcurrentTxStatus
end RedlineDb
