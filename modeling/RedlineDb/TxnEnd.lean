import RedlineDb.Tx
import RedlineDb.Wal

/-!
# How transactions end

`commit`, `rollback` and the drop of a `Txn`, with their exits: the catalog record cannot be
appended, the commit record cannot be appended, the durability barrier fails, all goes well. What an
exit still has to do is kept as a list of small steps, each of them one critical section of the
transaction table, the CSN frontier or the lock manager, so the ends of several transactions
interleave. The heap and the indexes are left out.

A `Txn` that is dropped, also by a commit whose catalog record fails, keeps its row locks
(`dropped_txn_keeps_lock`). Apart from that, an ended transaction holds nothing
(`ended_txn_released`).
-/

namespace RedlineDb.TxnEnd
open Lib ConcurrentTxStatus List

abbrev RowKey := Nat × Nat

inductive Cleanup
  | setState (st : TxState)
  | completeCsn (csn : Nat)
  | skipCsn (csn : Nat)
  | unregisterActive
  | unlock (key : RowKey)
deriving DecidableEq

inductive Phase
  | active
  | prepared
  | logged (csn : Nat)
  | ending (todo : List Cleanup)
deriving DecidableEq

/-- `csn` is the CSN reserved for the transaction. -/
structure Txn where
  rowLocks : List RowKey
  pendingSchema : Bool
  phase : Phase
  csn : Option Nat
deriving DecidableEq

structure Txns where
  txs : ConcurrentTxStatus
  locks : AList (fun _ : RowKey => Nat)
  txns : AList (fun _ : Nat => Txn)
  isVolatile : Bool
  segmentBytes : Nat

inductive Act
  | begin
  | lockRow (tx : Nat) (key : RowKey)
  /-- `refresh_read_committed`. -/
  | refresh (tx : Nat)
  | setPendingSchema (tx : Nat)
  /-- `commit` up to the commit record; `ok` is the answer to the catalog record. -/
  | commit (tx : Nat) (ok : Bool)
  /-- `append_commit`; `ok` is what `wait_for_wal_buffer` says of the buffer and the log. -/
  | appendCommit (tx : Nat) (ok : Bool)
  /-- `flush_until`, `write_until` or nothing, and its answer. -/
  | barrier (tx : Nat) (ok : Bool)
  | rollback (tx : Nat)
  | drop (tx : Nat)
  /-- The next step of a transaction on its way out. -/
  | cleanup (tx : Nat)
deriving DecidableEq

def publishCommit (csn : Nat) : List Cleanup :=
  [.setState (.committed csn), .completeCsn csn, .unregisterActive]

def abort : List Cleanup := [.setState .aborted, .unregisterActive]

def releaseAndClose (t : Txn) : List Cleanup := t.rowLocks.map .unlock ++ [.unregisterActive]

def lifecycleDrop : List Cleanup := abort ++ [.unregisterActive]

namespace Txns

def new (isVolatile : Bool) (segmentBytes : Nat) : Txns where
  txs := .new
  locks := ∅
  txns := ∅
  isVolatile
  segmentBytes

variable (s : Txns)

def setTxn (tx : Nat) (t : Txn) : Txns := { s with txns := s.txns.insert tx t }

def inPhase (tx : Nat) (p : Phase) : Except Error Txn :=
  match s.txns.lookup tx with
  | some t => if t.phase = p then .ok t else .error .transactionClosed
  | none => .error .transactionClosed

def begin (s : Txns) : Txns :=
  let (tx, txs) := s.txs.begin
  { s with txs := txs.setActiveSnapshot tx txs.snapshot.visibleCsn }.setTxn tx
    ⟨[], false, .active, none⟩

def lockRow (tx : Nat) (key : RowKey) : Except Error Txns := do
  let t ← s.inPhase tx .active
  if key ∈ t.rowLocks then return s
  require ((s.locks.lookup key).getD tx = tx) .lockTimeout
  return { s with locks := s.locks.insert key tx }.setTxn tx
    { t with rowLocks := t.rowLocks ++ [key] }

def refresh (tx : Nat) : Except Error Txns := do
  let _ ← s.inPhase tx .active
  return { s with txs := s.txs.setActiveSnapshot tx s.txs.snapshot.visibleCsn }

def setPendingSchema (tx : Nat) : Except Error Txns := do
  let t ← s.inPhase tx .active
  return s.setTxn tx { t with pendingSchema := true }

def finish (tx : Nat) (t : Txn) (todo : List Cleanup) : Txns :=
  s.setTxn tx { t with phase := .ending todo }

/-- `commit`: a volatile engine publishes at once, otherwise the catalog record comes first. -/
def commit (tx : Nat) (ok : Bool) : Except Error Txns := do
  let t ← s.inPhase tx .active
  if s.isVolatile then
    let (csn, txs) := s.txs.reserveCommitCsn
    return { s with txs }.finish tx { t with csn := some csn }
      (publishCommit csn ++ releaseAndClose t)
  if t.pendingSchema ∧ ok = false then return s.finish tx t lifecycleDrop
  return s.setTxn tx { t with phase := .prepared }

/-- `append_commit`: `wait_for_wal_buffer` refuses the record before a CSN is reserved for it, also
when it is larger than a segment, so that placing it in its segment succeeds. -/
def appendCommit (tx : Nat) (ok : Bool) : Except Error Txns := do
  let t ← s.inPhase tx .prepared
  if walHeaderLen + 17 > s.segmentBytes ∨ ok = false then
    return s.finish tx t (abort ++ releaseAndClose t)
  let (csn, txs) := s.txs.reserveCommitCsn
  return { s with txs }.setTxn tx { t with phase := .logged csn, csn := some csn }

def barrier (tx : Nat) (ok : Bool) : Except Error Txns :=
  match s.txns.lookup tx with
  | some t =>
    match t.phase with
    | .logged csn =>
      if ok then .ok (s.finish tx t (publishCommit csn ++ releaseAndClose t))
      else .ok (s.finish tx t ([.skipCsn csn] ++ abort ++ releaseAndClose t))
    | _ => .error .transactionClosed
  | none => .error .transactionClosed

def rollback (tx : Nat) : Except Error Txns := do
  let t ← s.inPhase tx .active
  return s.finish tx t (abort ++ releaseAndClose t)

def drop (tx : Nat) : Except Error Txns := do
  let t ← s.inPhase tx .active
  return s.finish tx t lifecycleDrop

def doCleanup (tx : Nat) : Cleanup → Txns
  | .setState st => { s with txs := s.txs.setState tx st }
  | .completeCsn csn => { s with txs := s.txs.completeCsn csn }
  | .skipCsn csn => { s with txs := s.txs.skipCsn csn }
  | .unregisterActive => { s with txs := s.txs.unregisterActive tx }
  | .unlock key => if s.locks.lookup key = some tx then { s with locks := s.locks.erase key } else s

def cleanup (tx : Nat) : Except Error Txns :=
  match s.txns.lookup tx with
  | some t =>
    match t.phase with
    | .ending (c :: todo) => .ok ((s.doCleanup tx c).setTxn tx { t with phase := .ending todo })
    | _ => .error .transactionClosed
  | none => .error .transactionClosed

def step : Act → Except Error Txns
  | .begin => .ok s.begin
  | .lockRow tx key => s.lockRow tx key
  | .refresh tx => s.refresh tx
  | .setPendingSchema tx => s.setPendingSchema tx
  | .commit tx ok => s.commit tx ok
  | .appendCommit tx ok => s.appendCommit tx ok
  | .barrier tx ok => s.barrier tx ok
  | .rollback tx => s.rollback tx
  | .drop tx => s.drop tx
  | .cleanup tx => s.cleanup tx

/-- A transaction that is dropped, or whose catalog record fails, has no row locks. -/
def Tidy : Act → Prop
  | .drop tx => ∀ t ∈ s.txns.lookup tx, t.rowLocks = []
  | .commit tx ok => ∀ t ∈ s.txns.lookup tx, s.isVolatile = false → t.pendingSchema = true →
      ok = false → t.rowLocks = []
  | _ => True

instance (s : Txns) (a : Act) : Decidable (s.Tidy a) := by
  unfold Tidy
  split <;> infer_instance

/-- The frontier has passed the CSN, or can pass it: it was published or cancelled. -/
def Settled (s : ConcurrentTxStatus) (csn : Nat) : Prop :=
  csn ∉ s.pending ∧ (csn ≤ s.publishedCsn ∨ csn ∈ s.completed ∨ csn ∈ s.skipped)

structure Released (s : Txns) (tx : Nat) (t : Txn) : Prop where
  state : (∃ csn, s.txs.state tx = .committed csn) ∨ s.txs.state tx = .aborted
  locks : ∀ key, s.locks.lookup key ≠ some tx
  snapshot : s.txs.activeSnapshots.lookup tx = none
  csn : ∀ csn, t.csn = some csn → Settled s.txs csn

/-! ### What a transaction owes -/

structure Owes (s : Txns) (tx : Nat) (t : Txn) (todo : List Cleanup) : Prop where
  final : ∀ st, .setState st ∈ todo → st ≠ .inProgress
  state : s.txs.state tx ≠ .inProgress ∨ ∃ st, .setState st ∈ todo
  locks : ∀ key, s.locks.lookup key = some tx → .unlock key ∈ todo
  snapshot : s.txs.activeSnapshots.lookup tx ≠ none → .unregisterActive ∈ todo
  csn : ∀ csn, t.csn = some csn → Settled s.txs csn ∨ .completeCsn csn ∈ todo ∨ .skipCsn csn ∈ todo

def PhaseOk (tx : Nat) (t : Txn) : Prop :=
  match t.phase with
  | .active | .prepared => (∀ key, s.locks.lookup key = some tx → key ∈ t.rowLocks) ∧ t.csn = none
  | .logged csn => (∀ key, s.locks.lookup key = some tx → key ∈ t.rowLocks) ∧ t.csn = some csn
  | .ending todo => s.Owes tx t todo

structure Inv (s : Txns) : Prop where
  phase : ∀ tx t, s.txns.lookup tx = some t → s.PhaseOk tx t
  known : ∀ tx t, s.txns.lookup tx = some t → tx < s.txs.nextTx
  owner : ∀ key tx, s.locks.lookup key = some tx → tx < s.txs.nextTx
  reserved : ∀ tx t csn, s.txns.lookup tx = some t → t.csn = some csn → csn < s.txs.nextCsn
  pending : s.txs.pending.Nodup

theorem inv_new {isVolatile : Bool} {segmentBytes : Nat} : Inv (new isVolatile segmentBytes) := by
  constructor <;> simp [new, ConcurrentTxStatus.new]

variable {c : ConcurrentTxStatus} {csn csn' : Nat}

theorem taken_advanceLoop (n : Nat)
    (h : csn ≤ c.publishedCsn ∨ csn ∈ c.completed ∨ csn ∈ c.skipped) :
    csn ≤ (c.advanceLoop n).publishedCsn ∨ csn ∈ (c.advanceLoop n).completed ∨
      csn ∈ (c.advanceLoop n).skipped := by
  induction n generalizing c with
  | zero => exact h
  | succ n ih =>
    simp only [advanceLoop]
    have hmem : ∀ {l : List Nat}, csn ∈ l → csn ∈ l.erase (c.publishedCsn + 1) ∨
        csn ≤ c.publishedCsn + 1 := by
      intro l hl
      by_cases heq : csn = c.publishedCsn + 1
      · exact .inr heq.le
      · exact .inl ((mem_erase_of_ne heq).2 hl)
    split
    · apply ih
      rcases h with h | h | h
      · exact .inl (Nat.le_succ_of_le h)
      · exact (hmem h).elim (.inr ∘ .inl) .inl
      · exact .inr (.inr h)
    · split
      · apply ih
        rcases h with h | h | h
        · exact .inl (Nat.le_succ_of_le h)
        · exact .inr (.inl h)
        · exact (hmem h).elim (.inr ∘ .inr) .inl
      · exact h

theorem settled_advance (h : Settled c csn) : Settled c.advancePublishedCsn csn :=
  ⟨by rw [advancePublishedCsn, (advanceLoop_frame _ _).2.2.2.2.1]; exact h.1,
    taken_advanceLoop _ h.2⟩

theorem settled_completeCsn (h : Settled c csn) : Settled (c.completeCsn csn') csn := by
  refine settled_advance ⟨fun hin => h.1 (mem_of_mem_erase hin), ?_⟩
  rcases h.2 with h | h | h
  · exact .inl h
  · exact .inr (.inl (mem_insert_of_mem h))
  · exact .inr (.inr h)

theorem settled_skipCsn (h : Settled c csn) : Settled (c.skipCsn csn') csn := by
  refine settled_advance ⟨fun hin => h.1 (mem_of_mem_erase hin), ?_⟩
  rcases h.2 with h | h | h
  · exact .inl h
  · exact .inr (.inl h)
  · exact .inr (.inr (mem_insert_of_mem h))

theorem settled_completeCsn_self (hnd : c.pending.Nodup) : Settled (c.completeCsn csn) csn :=
  settled_advance ⟨fun hin => hnd.not_mem_erase hin, .inr (.inl mem_insert_self)⟩

theorem settled_skipCsn_self (hnd : c.pending.Nodup) : Settled (c.skipCsn csn) csn :=
  settled_advance ⟨fun hin => hnd.not_mem_erase hin, .inr (.inr mem_insert_self)⟩

theorem settled_reserveCommitCsn (hlt : csn < c.nextCsn) (h : Settled c csn) :
    Settled c.reserveCommitCsn.2 csn := by
  refine ⟨fun hin => ?_, h.2⟩
  rcases mem_insert_iff.1 hin with heq | hin
  · exact absurd heq hlt.ne
  · exact h.1 hin

variable {s} {s' : Txns} {tx : Nat} {t t' : Txn} {todo : List Cleanup}

structure Kept (s s' : Txns) (tx : Nat) : Prop where
  locks : ∀ key, s'.locks.lookup key = some tx → s.locks.lookup key = some tx
  state : s'.txs.state tx = s.txs.state tx
  snapshot : s'.txs.activeSnapshots.lookup tx = s.txs.activeSnapshots.lookup tx
  settled : ∀ csn, csn < s.txs.nextCsn → Settled s.txs csn → Settled s'.txs csn

theorem PhaseOk.kept (h : s.PhaseOk tx t) (hcsn : ∀ csn, t.csn = some csn → csn < s.txs.nextCsn)
    (hk : Kept s s' tx) :
    s'.PhaseOk tx t := by
  unfold PhaseOk at h ⊢
  split at h
  · exact ⟨fun key hl => h.1 key (hk.locks key hl), h.2⟩
  · exact ⟨fun key hl => h.1 key (hk.locks key hl), h.2⟩
  · exact ⟨fun key hl => h.1 key (hk.locks key hl), h.2⟩
  · refine ⟨h.final, ?_, fun key hl => h.locks key (hk.locks key hl), ?_, fun csn hc => ?_⟩
    · rw [hk.state]
      exact h.state
    · rw [hk.snapshot]
      exact h.snapshot
    · exact (h.csn csn hc).imp (hk.settled csn (hcsn csn hc)) id

section
variable (hI : Inv s)
include hI

theorem Inv.update (htxns : s'.txns = s.txns.insert tx t') (hkept : ∀ q, q ≠ tx → Kept s s' q)
    (hphase : s'.PhaseOk tx t')
    (hnext : s.txs.nextTx ≤ s'.txs.nextTx ∧ s.txs.nextCsn ≤ s'.txs.nextCsn)
    (htx : tx < s'.txs.nextTx) (hres : ∀ csn, t'.csn = some csn → csn < s'.txs.nextCsn)
    (hpend : s'.txs.pending.Nodup)
    (howner : ∀ key q, s'.locks.lookup key = some q → q = tx ∨ s.locks.lookup key = some q) :
    Inv s' := by
  have hlook : ∀ {q u}, s'.txns.lookup q = some u → (q = tx ∧ u = t') ∨
      (q ≠ tx ∧ s.txns.lookup q = some u) := by
    intro q u hq
    rw [htxns] at hq
    exact lookup_insert_eq_some.1 hq
  refine ⟨fun q u hq => ?_, fun q u hq => ?_, fun key q hl => ?_, fun q u csn hq hc => ?_, hpend⟩
  · rcases hlook hq with ⟨rfl, rfl⟩ | ⟨hne, hq⟩
    · exact hphase
    · exact (hI.phase q u hq).kept (fun csn hc => hI.reserved q u csn hq hc) (hkept q hne)
  · rcases hlook hq with ⟨rfl, -⟩ | ⟨-, hq⟩
    · exact htx
    · exact (hI.known q u hq).trans_le hnext.1
  · rcases howner key q hl with rfl | hl
    · exact htx
    · exact (hI.owner key q hl).trans_le hnext.1
  · rcases hlook hq with ⟨-, rfl⟩ | ⟨-, hq⟩
    · exact hres csn hc
    · exact (hI.reserved q u csn hq hc).trans_le hnext.2

omit hI in
theorem inPhase_ok {p : Phase} (h : s.inPhase tx p = .ok t) :
    s.txns.lookup tx = some t ∧ t.phase = p := by
  unfold inPhase at h
  split at h
  · next u hu =>
    split at h
    · next hp =>
      cases h
      exact ⟨hu, hp⟩
    · cases h
  · cases h

theorem Inv.setTxn (ht : s.txns.lookup tx = some t) (hphase : (s.setTxn tx t').PhaseOk tx t')
    (hcsn : t'.csn = t.csn) : Inv (s.setTxn tx t') := by
  refine hI.update rfl (fun q _ => ⟨fun _ hl => hl, rfl, rfl, fun _ _ h => h⟩) hphase
    ⟨le_rfl, le_rfl⟩
    (hI.known tx t ht) (fun csn hc => hI.reserved tx t csn ht (hcsn ▸ hc)) hI.pending
    fun _ _ hl => .inr hl

theorem Inv.begin : Inv s.begin := by
  refine hI.update rfl (fun q hq => ⟨fun _ hl => hl, ?_, ?_, fun _ _ h => h⟩)
    ⟨fun key hl => ?_, rfl⟩
    ⟨Nat.le_succ _, le_rfl⟩ (Nat.lt_succ_self _) (by simp) hI.pending fun _ _ hl => .inr hl
  · exact (state_begin s.txs q).trans (if_neg hq)
  · exact AList.lookup_insert_ne hq
  · exact absurd (hI.owner key _ hl) (lt_irrefl _)

theorem Inv.lockRow {key : RowKey} (hs : s.lockRow tx key = .ok s') : Inv s' := by
  simp only [Txns.lockRow, bind_eq_ok] at hs
  obtain ⟨t, ht, hs⟩ := hs
  obtain ⟨ht, hp⟩ := inPhase_ok ht
  split at hs
  · cases hs
    exact hI
  · obtain ⟨hfree, rfl⟩ := guarded_eq_ok.1 hs
    have hok := hI.phase tx t ht
    simp only [PhaseOk, hp] at hok
    have hlook : ∀ {k q}, (s.locks.insert key tx).lookup k = some q → (k = key ∧ q = tx) ∨
        (k ≠ key ∧ s.locks.lookup k = some q) :=
      fun hl => lookup_insert_eq_some.1 hl
    refine hI.update rfl (fun q hq => ⟨fun k hl => ?_, rfl, rfl, fun _ _ h => h⟩) ?_
      ⟨le_rfl, le_rfl⟩
      (hI.known tx t ht) (fun csn hc => hI.reserved tx t csn ht hc) hI.pending fun k q hl => ?_
    · rcases hlook hl with ⟨-, heq⟩ | ⟨-, hl⟩
      · exact absurd heq hq
      · exact hl
    · simp only [PhaseOk, hp]
      refine ⟨fun k hl => mem_append.2 ?_, hok.2⟩
      rcases hlook hl with ⟨rfl, -⟩ | ⟨-, hl⟩
      · exact .inr (mem_singleton_self _)
      · exact .inl (hok.1 k hl)
    · rcases hlook hl with ⟨-, rfl⟩ | ⟨-, hl⟩
      · exact .inl rfl
      · exact .inr hl

theorem Inv.refresh (hs : s.refresh tx = .ok s') : Inv s' := by
  simp only [Txns.refresh, bind_eq_ok, pure_eq_ok] at hs
  obtain ⟨t, ht, rfl⟩ := hs
  obtain ⟨ht, hp⟩ := inPhase_ok ht
  refine ⟨fun q u hq => ?_, hI.known, hI.owner, hI.reserved, hI.pending⟩
  have hok := hI.phase q u hq
  by_cases heq : q = tx
  · subst heq
    rw [hq] at ht
    cases ht
    simp only [PhaseOk, hp] at hok ⊢
    exact hok
  · exact hok.kept (fun csn hc => hI.reserved q u csn hq hc)
      ⟨fun _ hl => hl, rfl, AList.lookup_insert_ne heq, fun _ _ h => h⟩

theorem Inv.setPendingSchema (hs : s.setPendingSchema tx = .ok s') : Inv s' := by
  simp only [Txns.setPendingSchema, bind_eq_ok, pure_eq_ok] at hs
  obtain ⟨t, ht, rfl⟩ := hs
  obtain ⟨ht, hp⟩ := inPhase_ok ht
  have hok := hI.phase tx t ht
  refine hI.setTxn ht ?_ rfl
  simp only [PhaseOk, hp] at hok ⊢
  exact hok

omit hI in
theorem owes_of_exit {first : List Cleanup}
    (hl : ∀ key, s.locks.lookup key = some tx → key ∈ t.rowLocks)
    (hst : ∃ st, .setState st ∈ first) (hfinal : ∀ st, .setState st ∈ first → st ≠ .inProgress)
    (hcsn : ∀ csn, t'.csn = some csn → Settled s.txs csn ∨ .completeCsn csn ∈ first ∨
      .skipCsn csn ∈ first) :
    s.Owes tx t' (first ++ releaseAndClose t) := by
  refine ⟨fun st hin => ?_, .inr ?_, fun key hk => ?_, fun _ => ?_, fun csn hc => ?_⟩
  · rcases mem_append.1 hin with hin | hin
    · exact hfinal st hin
    · simp [releaseAndClose] at hin
  · obtain ⟨st, hst⟩ := hst
    exact ⟨st, mem_append_left _ hst⟩
  · exact mem_append_right _ (mem_append_left _ (mem_map_of_mem (hl key hk)))
  · exact mem_append_right _ (mem_append_right _ (mem_singleton_self _))
  · exact (hcsn csn hc).imp id (Or.imp (mem_append_left _) (mem_append_left _))

omit hI in
theorem owes_lifecycleDrop (hl : ∀ key, s.locks.lookup key ≠ some tx) (hcsn : t.csn = none) :
    s.Owes tx t lifecycleDrop := by
  refine ⟨?_, .inr ⟨.aborted, by simp [lifecycleDrop, abort]⟩,
    fun key hk => absurd hk (hl key), ?_, ?_⟩
  · simp [lifecycleDrop, abort]
  · simp [lifecycleDrop, abort]
  · simp [hcsn]

theorem Inv.reserve (ht : s.txns.lookup tx = some t) (hc : t'.csn = some s.txs.nextCsn)
    (hphase : ({ s with txs := s.txs.reserveCommitCsn.2 }.setTxn tx t').PhaseOk tx t') :
    Inv ({ s with txs := s.txs.reserveCommitCsn.2 }.setTxn tx t') := by
  refine hI.update rfl
    (fun q _ => ⟨fun _ hl => hl, rfl, rfl, fun csn hlt h => settled_reserveCommitCsn hlt h⟩) hphase
    ⟨le_rfl, Nat.le_succ _⟩ (hI.known tx t ht) (fun csn hc' => ?_) (hI.pending.insert)
      fun _ _ hl => .inr hl
  rw [hc] at hc'
  cases hc'
  exact Nat.lt_succ_self _

theorem Inv.commit {ok : Bool} (htidy : s.Tidy (.commit tx ok)) (hs : s.commit tx ok = .ok s') :
    Inv s' := by
  simp only [Txns.commit, bind_eq_ok] at hs
  obtain ⟨t, ht, hs⟩ := hs
  obtain ⟨ht, hp⟩ := inPhase_ok ht
  have hok := hI.phase tx t ht
  simp only [PhaseOk, hp] at hok
  split at hs
  · cases hs
    refine hI.reserve ht rfl (owes_of_exit hok.1 ⟨_, mem_cons_self⟩ ?_ fun csn hc => .inr (.inl ?_))
    · simp [publishCommit]
    · cases hc
      simp [publishCommit]
  · next hvol =>
    split at hs
    · next hfail =>
      cases hs
      have hnil : t.rowLocks = [] := htidy t ht (by simpa using hvol) hfail.1 hfail.2
      refine hI.setTxn ht (owes_lifecycleDrop (fun key hk => ?_) hok.2) rfl
      have := hok.1 key hk
      rw [hnil] at this
      cases this
    · cases hs
      exact hI.setTxn ht hok rfl

theorem Inv.appendCommit {ok : Bool} (hs : s.appendCommit tx ok = .ok s') : Inv s' := by
  simp only [Txns.appendCommit, bind_eq_ok] at hs
  obtain ⟨t, ht, hs⟩ := hs
  obtain ⟨ht, hp⟩ := inPhase_ok ht
  have hok := hI.phase tx t ht
  simp only [PhaseOk, hp] at hok
  split at hs
  · cases hs
    refine hI.setTxn ht (owes_of_exit hok.1 ⟨_, mem_cons_self⟩ (by simp [abort]) ?_) rfl
    simp [hok.2]
  · cases hs
    exact hI.reserve ht rfl ⟨hok.1, rfl⟩

theorem Inv.barrier {ok : Bool} (hs : s.barrier tx ok = .ok s') : Inv s' := by
  unfold Txns.barrier at hs
  split at hs
  · next t ht =>
    split at hs
    · next csn hp =>
      have hok := hI.phase tx t ht
      simp only [PhaseOk, hp] at hok
      split at hs
      · cases hs
        refine hI.setTxn ht (owes_of_exit hok.1 ⟨_, mem_cons_self⟩ (by simp [publishCommit])
          fun csn' hc => .inr (.inl ?_)) rfl
        cases hok.2.symm.trans hc
        simp [publishCommit]
      · cases hs
        refine hI.setTxn ht (owes_of_exit hok.1 ⟨.aborted, by simp [abort]⟩ (by simp [abort])
          fun csn' hc => .inr (.inr ?_)) rfl
        cases hok.2.symm.trans hc
        simp
    · cases hs
  · cases hs

theorem Inv.rollback (hs : s.rollback tx = .ok s') : Inv s' := by
  simp only [Txns.rollback, bind_eq_ok, pure_eq_ok] at hs
  obtain ⟨t, ht, rfl⟩ := hs
  obtain ⟨ht, hp⟩ := inPhase_ok ht
  have hok := hI.phase tx t ht
  simp only [PhaseOk, hp] at hok
  refine hI.setTxn ht (owes_of_exit hok.1 ⟨_, mem_cons_self⟩ (by simp [abort]) ?_) rfl
  simp [hok.2]

theorem Inv.drop (htidy : s.Tidy (.drop tx)) (hs : s.drop tx = .ok s') : Inv s' := by
  simp only [Txns.drop, bind_eq_ok, pure_eq_ok] at hs
  obtain ⟨t, ht, rfl⟩ := hs
  obtain ⟨ht, hp⟩ := inPhase_ok ht
  have hok := hI.phase tx t ht
  simp only [PhaseOk, hp] at hok
  refine hI.setTxn ht (owes_lifecycleDrop (fun key hk => ?_) hok.2) rfl
  have := hok.1 key hk
  rw [htidy t ht] at this
  cases this

end

/-! ### The list of an exit -/

theorem activeSnapshots_completeCsn : (c.completeCsn csn).activeSnapshots = c.activeSnapshots :=
  (advanceLoop_frame _ _).2.1

theorem activeSnapshots_skipCsn : (c.skipCsn csn).activeSnapshots = c.activeSnapshots :=
  (advanceLoop_frame _ _).2.1

theorem pending_skipCsn : (c.skipCsn csn).pending = c.pending.erase csn :=
  (advanceLoop_frame _ _).2.2.2.2.1

variable {k : Cleanup}

theorem kept_doCleanup {q : Nat} (hq : q ≠ tx) : Kept s (s.doCleanup tx k) q := by
  cases k with
  | setState st =>
    exact ⟨fun _ hl => hl, (state_setState _ _ _ _).trans (if_neg hq), rfl, fun _ _ h => h⟩
  | completeCsn csn =>
    exact ⟨fun _ hl => hl, state_completeCsn _ _ _,
      congrArg (AList.lookup q) activeSnapshots_completeCsn, fun _ _ h => settled_completeCsn h⟩
  | skipCsn csn =>
    exact ⟨fun _ hl => hl, state_skipCsn _ _ _,
      congrArg (AList.lookup q) activeSnapshots_skipCsn, fun _ _ h => settled_skipCsn h⟩
  | unregisterActive => exact ⟨fun _ hl => hl, rfl, AList.lookup_erase_ne hq, fun _ _ h => h⟩
  | unlock key =>
    simp only [doCleanup]
    split
    · exact ⟨fun _ hl => (lookup_erase_eq_some.1 hl).2, rfl, rfl, fun _ _ h => h⟩
    · exact ⟨fun _ hl => hl, rfl, rfl, fun _ _ h => h⟩

theorem Owes.tail (h : s.Owes tx t (k :: todo))
    (hstate : s'.txs.state tx ≠ .inProgress ∨ s'.txs.state tx = s.txs.state tx ∧
      ∀ st, k ≠ .setState st)
    (hlocks : ∀ key, s'.locks.lookup key = some tx → s.locks.lookup key = some tx ∧ k ≠ .unlock key)
    (hsnap : s'.txs.activeSnapshots.lookup tx ≠ none → s.txs.activeSnapshots.lookup tx ≠ none ∧
      k ≠ .unregisterActive)
    (hcsn : ∀ csn, Settled s.txs csn ∨ k = .completeCsn csn ∨ k = .skipCsn csn →
      Settled s'.txs csn) : s'.Owes tx t todo := by
  have htail : ∀ {x}, x ∈ k :: todo → k ≠ x → x ∈ todo :=
    fun hx hne => (mem_cons.1 hx).resolve_left hne.symm
  refine ⟨fun st hst => h.final st (mem_cons_of_mem _ hst), ?_, fun key hl => ?_, fun hr => ?_,
    fun csn hc => ?_⟩
  · rcases hstate with hst | ⟨heq, hne⟩
    · exact .inl hst
    · rw [heq]
      exact h.state.imp id fun ⟨st, hst⟩ => ⟨st, htail hst (hne st)⟩
  · exact htail (h.locks key (hlocks key hl).1) (hlocks key hl).2
  · exact htail (h.snapshot (hsnap hr).1) (hsnap hr).2
  · rcases h.csn csn hc with hset | hin | hin
    · exact .inl (hcsn csn (.inl hset))
    · by_cases heq : k = .completeCsn csn
      · exact .inl (hcsn csn (.inr (.inl heq)))
      · exact .inr (.inl (htail hin heq))
    · by_cases heq : k = .skipCsn csn
      · exact .inl (hcsn csn (.inr (.inr heq)))
      · exact .inr (.inr (htail hin heq))

theorem Owes.doCleanup (h : s.Owes tx t (k :: todo)) (hnd : s.txs.pending.Nodup) :
    (s.doCleanup tx k).Owes tx t todo := by
  cases k with
  | setState st =>
    refine h.tail (.inl ?_) (fun _ hl => ⟨hl, by simp⟩) (fun hr => ⟨hr, by simp⟩) fun _ hc =>
      hc.resolve_right (by simp)
    show (s.txs.setState tx st).state tx ≠ _
    rw [state_setState, if_pos rfl]
    exact h.final st mem_cons_self
  | completeCsn csn =>
    refine h.tail (.inr ⟨state_completeCsn _ _ _, by simp⟩) (fun _ hl => ⟨hl, by simp⟩)
      (fun hr => ⟨?_, by simp⟩) ?_
    · rw [← @activeSnapshots_completeCsn s.txs csn]
      exact hr
    · rintro csn' (hset | heq | heq)
      · exact settled_completeCsn hset
      · cases heq
        exact settled_completeCsn_self hnd
      · cases heq
  | skipCsn csn =>
    refine h.tail (.inr ⟨state_skipCsn _ _ _, by simp⟩) (fun _ hl => ⟨hl, by simp⟩)
      (fun hr => ⟨?_, by simp⟩) ?_
    · rw [← @activeSnapshots_skipCsn s.txs csn]
      exact hr
    · rintro csn' (hset | heq | heq)
      · exact settled_skipCsn hset
      · cases heq
      · cases heq
        exact settled_skipCsn_self hnd
  | unregisterActive =>
    refine h.tail (.inr ⟨rfl, by simp⟩) (fun _ hl => ⟨hl, by simp⟩) (fun hr => absurd ?_ hr)
      fun _ hc => hc.resolve_right (by simp)
    exact AList.lookup_erase _ _
  | unlock key =>
    simp only [Txns.doCleanup]
    split
    · refine h.tail (.inr ⟨rfl, by simp⟩) (fun k hl => ?_) (fun hr => ⟨hr, by simp⟩) fun _ hc =>
        hc.resolve_right (by simp)
      obtain ⟨hne, hl⟩ := lookup_erase_eq_some.1 hl
      exact ⟨hl, by simpa using hne.symm⟩
    · next hnot =>
      refine h.tail (.inr ⟨rfl, by simp⟩) (fun k hl => ⟨hl, ?_⟩) (fun hr => ⟨hr, by simp⟩)
        fun _ hc => hc.resolve_right (by simp)
      rintro ⟨⟩
      exact hnot hl

theorem doCleanup_frame :
    (s.doCleanup tx k).txns = s.txns ∧ (s.doCleanup tx k).txs.nextTx = s.txs.nextTx ∧
    (s.doCleanup tx k).txs.nextCsn = s.txs.nextCsn ∧
    (s.txs.pending.Nodup → (s.doCleanup tx k).txs.pending.Nodup) ∧
    ∀ key q, (s.doCleanup tx k).locks.lookup key = some q → s.locks.lookup key = some q := by
  cases k with
  | setState | unregisterActive => exact ⟨rfl, rfl, rfl, id, fun _ _ hl => hl⟩
  | completeCsn csn =>
    refine ⟨rfl, nextTx_completeCsn _ _, nextCsn_completeCsn _ _, fun hnd => ?_, fun _ _ hl => hl⟩
    simp only [doCleanup, pending_completeCsn]
    exact hnd.erase _
  | skipCsn csn =>
    refine ⟨rfl, nextTx_skipCsn _ _, nextCsn_skipCsn _ _, fun hnd => ?_, fun _ _ hl => hl⟩
    simp only [doCleanup, pending_skipCsn]
    exact hnd.erase _
  | unlock key =>
    simp only [doCleanup]
    split
    · exact ⟨rfl, rfl, rfl, id, fun _ _ hl => (lookup_erase_eq_some.1 hl).2⟩
    · exact ⟨rfl, rfl, rfl, id, fun _ _ hl => hl⟩

theorem Inv.cleanup (hI : Inv s) (hs : s.cleanup tx = .ok s') : Inv s' := by
  unfold Txns.cleanup at hs
  split at hs
  · next t ht =>
    split at hs
    · next k todo hp =>
      cases hs
      have hok := hI.phase tx t ht
      simp only [PhaseOk, hp] at hok
      obtain ⟨htxns, hnext, hcsn, hpend, hlocks⟩ := @doCleanup_frame s tx k
      have howes := hok.doCleanup hI.pending
      have hins : ((s.doCleanup tx k).setTxn tx { t with phase := .ending todo }).txns =
          s.txns.insert tx { t with phase := .ending todo } := by
        simp only [Txns.setTxn, htxns]
      refine hI.update hins (fun q hq => ?_) ?_ ⟨hnext.symm.le, hcsn.symm.le⟩
        ?_ (fun csn hc => ?_) (hpend hI.pending) fun key q hl => .inr (hlocks key q hl)
      · exact ⟨(kept_doCleanup hq).locks, (kept_doCleanup hq).state, (kept_doCleanup hq).snapshot,
          (kept_doCleanup hq).settled⟩
      · exact { howes with }
      · exact hnext.symm ▸ hI.known tx t ht
      · exact hcsn.symm ▸ hI.reserved tx t csn ht hc
    · cases hs
  · cases hs

theorem Inv.step {a : Act} (hI : Inv s) (htidy : s.Tidy a) (hs : s.step a = .ok s') : Inv s' := by
  cases a with
  | begin =>
    cases hs
    exact hI.begin
  | lockRow tx key => exact hI.lockRow hs
  | refresh tx => exact hI.refresh hs
  | setPendingSchema tx => exact hI.setPendingSchema hs
  | commit tx ok => exact hI.commit htidy hs
  | appendCommit tx ok => exact hI.appendCommit hs
  | barrier tx ok => exact hI.barrier hs
  | rollback tx => exact hI.rollback hs
  | drop tx => exact hI.drop htidy hs
  | cleanup tx => exact hI.cleanup hs

theorem ended_txn_released {isVolatile : Bool} {segmentBytes : Nat} {acts : List Act} {s : Txns}
    (hrun : Run step Tidy (new isVolatile segmentBytes) acts s) {tx : Nat} {t : Txn}
    (ht : s.txns.lookup tx = some t)
    (hend : t.phase = .ending []) : s.Released tx t := by
  have hI : Inv s := hrun.invariant (I := fun _ s => Inv s) inv_new fun _ _ _ _ hI htidy hs =>
      hI.step htidy hs
  have hok := hI.phase tx t ht
  simp only [PhaseOk, hend] at hok
  refine ⟨?_, fun key hl => ?_, ?_, fun csn hc => ?_⟩
  · rcases hok.state with hst | ⟨st, hst⟩
    · cases hstate : s.txs.state tx with
      | inProgress => exact absurd hstate hst
      | committed csn => exact .inl ⟨csn, rfl⟩
      | aborted => exact .inr rfl
    · cases hst
  · cases hok.locks key hl
  · by_contra hr
    cases hok.snapshot hr
  · rcases hok.csn csn hc with hset | hin | hin
    · exact hset
    · cases hin
    · cases hin

/-- A transaction locks a row and its `Txn` is dropped. -/
theorem dropped_txn_keeps_lock : ∃ acts s, Run step (fun _ _ => True) (new false 1000) acts s ∧
    ∃ t, s.txns.lookup 1 = some t ∧ t.phase = .ending [] ∧ ¬ s.Released 1 t := by
  obtain ⟨s, hrun, ht, hl⟩ : ∃ s, Run step (fun _ _ => True) (new false 1000)
      [.begin, .lockRow 1 (1, 1), .drop 1, .cleanup 1, .cleanup 1, .cleanup 1] s ∧
      s.txns.lookup 1 = some ⟨[(1, 1)], false, .ending [], none⟩ ∧
        s.locks.lookup (1, 1) = some 1 := by decide +kernel
  exact ⟨_, s, hrun, _, ht, rfl, fun hr => hr.locks (1, 1) hl⟩

/-- The commit of one transaction, with its row lock, while the barrier of another fails. -/
theorem ended_txn_released_both : ∃ acts s, Run step Tidy (new false 1000) acts s ∧
    ∃ t₁ t₂, s.Released 1 t₁ ∧ s.Released 2 t₂ ∧ t₁.csn = some 1 ∧ t₂.csn = some 2 := by
  obtain ⟨s, hrun, h1, h2⟩ : ∃ s, Run step Tidy (new false 1000)
      ([.begin, .begin, .lockRow 1 (1, 1), .commit 1 true, .commit 2 true, .appendCommit 1 true,
        .appendCommit 2 true,
        .barrier 2 false, .barrier 1 true] ++ replicate 5 (.cleanup 1) ++
          replicate 4 (.cleanup 2)) s ∧
      s.txns.lookup 1 = some ⟨[(1, 1)], false, .ending [], some 1⟩ ∧
      s.txns.lookup 2 = some ⟨[], false, .ending [], some 2⟩ := by decide +kernel
  exact ⟨_, s, hrun, _, _, ended_txn_released hrun h1 rfl, ended_txn_released hrun h2 rfl, rfl, rfl⟩

end Txns
end RedlineDb.TxnEnd
