import RedlineDb.EngineLog
import RedlineDb.Frontier
import RedlineDb.Flush
import RedlineDb.TxRecovery

/-!
# Commits during a checkpoint

The steps of commits (append the record, wait for the log, publish) interleaved with the steps of
any number of checkpoints. A checkpoint takes its LSN first and reads the transaction table later;
what it prunes is decided by the LSN. So a commit record can lie below the LSN while its transaction
is published only after the table was read, and pruning then removes the last trace of it.
-/

namespace RedlineDb
open Lib PageBackedHeap ConcurrentTxStatus List

def txStatusShards : Nat := 64

/-- The committed transactions of one shard, as `committed_states` collects them. -/
def ConcurrentTxStatus.shardStates (t : ConcurrentTxStatus) (shard : Nat) : List (Nat × Nat) :=
  (t.states.entries.filterMap committedOf).filter fun e => e.1 % txStatusShards = shard

/-- Where a running checkpoint stands, with its local variables. -/
inductive CheckpointPhase
  | waiting (target : Nat)
  | flushing (durableLsn : Nat)
  | flushed (durableLsn pageCount : Nat)
  | reading (durableLsn pageCount : Nat) (status : TxStatusCheckpoint) (shard : Nat)
  | statusWritten (durableLsn pageCount : Nat)
  | controlWritten (control : ControlFile)
deriving DecidableEq

/-- An engine with its commits and checkpoints under way. `barrier` are the transactions whose
commit has waited for the log, with the LSN it waited for; `checkpoint` is the value under the
checkpoint mutex and `holder` who holds it. -/
structure Server where
  engine : Engine
  barrier : List (Nat × Nat)
  checkpoint : Option ControlFile
  holder : Option Nat
  jobs : AList (fun _ : Nat => CheckpointPhase)
  control : Option ControlFile
  txStatus : Nat → Option TxStatusCheckpoint

/-- A call of the engine, the two halves of the rest of a commit, the log writer at work on its own,
or the next step of checkpoint `job`. -/
inductive ServerAction
  | call (op : Op)
  | flushCommit (tx : Nat)
  | publishCommit (tx : Nat)
  | writeLog (lsn : Nat)
  | checkpoint (job : Nat)
deriving DecidableEq

namespace Server

def create (cfg : Config) : Server where
  engine := .create cfg.relId cfg.heapLanes cfg.pageSize cfg.segmentBytes cfg.walBufferBytes
  barrier := []
  checkpoint := none
  holder := none
  jobs := ∅
  control := none
  txStatus := fun _ => none

variable (s : Server)

def setWal (wal : WalCoordinator) : Server :=
  { s with engine := { s.engine with heap := { s.engine.heap with wal } } }

def setJob (job : Nat) (p : CheckpointPhase) : Server := { s with jobs := s.jobs.insert job p }

def nextGeneration : Nat := (s.checkpoint.map (·.generation + 1)).getD 1

def flushCommit (tx : Nat) : Except Error Server :=
  match s.engine.txns.lookup tx with
  | some t =>
    match t.phase with
    | .committing _ endLsn => do
      let (_, wal) ← s.engine.heap.wal.flushUntil endLsn
      return { s.setWal wal with barrier := (tx, endLsn) :: s.barrier }
    | _ => .error .transactionClosed
  | none => .error .transactionClosed

def publishCommit (s : Server) (tx : Nat) : Except Error Server :=
  match s.engine.txns.lookup tx with
  | some t =>
    match t.phase with
    | .committing csn endLsn =>
      if (tx, endLsn) ∈ s.barrier then
        .ok { s with engine :=
          { s.engine with txs := s.engine.txs.publishCommit tx csn }.closeTxn tx t }
      else .error .transactionClosed
    | _ => .error .transactionClosed
  | none => .error .transactionClosed

/-- The log writer makes more of the log durable than anyone waits for. -/
def writeLog (lsn : Nat) : Except Error Server := do
  require (lsn ≤ s.engine.heap.wal.reservedLsn) (.corruptWal "nothing reserved there")
  let (_, wal) ← s.engine.heap.wal.flushUntil lsn
  return s.setWal wal

/-- The next step of a checkpoint: `flush_all` reads the end of the log and waits for it, the dirty
pages are written, the mutex is taken (a step that has to wait for it is not accepted) and the
transaction table read, counters first and then shard by shard, the two files are written, and the
log is pruned. -/
def checkpointStep (job : Nat) : Except Error Server :=
  match s.jobs.lookup job with
  | none => .ok (s.setJob job (.waiting s.engine.heap.wal.reservedLsn))
  | some (.waiting target) => do
    let (durableLsn, wal) ← s.engine.heap.wal.flushUntil target
    return (s.setWal wal).setJob job (.flushing durableLsn)
  | some (.flushing durableLsn) =>
    let store := s.engine.heap.store.flushDirtyBatches durableLsn defaultCheckpointBatchPages
    .ok ({ s with engine := { s.engine with heap := { s.engine.heap with store } } }.setJob job
      (.flushed durableLsn store.pageCount))
  | some (.flushed durableLsn pageCount) =>
    match s.holder with
    | some _ => .error .lockTimeout
    | none =>
      let txs := s.engine.txs
      .ok ({ s with holder := some job }.setJob job (.reading durableLsn pageCount
        { generation := s.nextGeneration
          nextTx := txs.nextTx
          nextCsn := txs.nextCsn
          publishedCsn := txs.publishedCsn
          entries := [] } 0))
  | some (.reading durableLsn pageCount status shard) =>
    if shard < txStatusShards then
      .ok (s.setJob job (.reading durableLsn pageCount
        { status with entries := status.entries ++ s.engine.txs.shardStates shard } (shard + 1)))
    else
      let status := { status with entries := status.entries.insertionSort (fun a b => a.1 ≤ b.1) }
      .ok ({ s with
        txStatus := fun g =>
          if g = status.generation then some status else s.txStatus g }.setJob job
        (.statusWritten durableLsn pageCount))
  | some (.statusWritten durableLsn pageCount) =>
    let next : ControlFile :=
      { generation := s.nextGeneration, checkpointLsn := durableLsn, pageCount }
    .ok ({ s with control := some next }.setJob job (.controlWritten next))
  | some (.controlWritten next) =>
    .ok { s.setWal (s.engine.heap.wal.pruneSegmentsBelowCheckpointLsn next.checkpointLsn) with
      checkpoint := some next
      holder := none
      jobs := s.jobs.erase job }

def step : ServerAction → Except Error Server
  | .call op => do
    let engine ← s.engine.step op
    return { s with engine }
  | .flushCommit tx => s.flushCommit tx
  | .publishCommit tx => s.publishCommit tx
  | .writeLog lsn => s.writeLog lsn
  | .checkpoint job => s.checkpointStep job

/-- What a reopening finds after a crash that left the log's records `records` and some page file.
-/
def diskAfterCrash (file : Nat → Option Page) (pageCount : Nat) (records : List WalRecord) :
    Disk where
  file; pageCount; records
  control := s.control
  txStatus := s.txStatus

end Server

/-! ### The files of checkpoints -/

/-- The files, the value under the checkpoint mutex and who holds it. -/
structure CheckpointFiles where
  checkpoint : Option ControlFile
  holder : Option Nat
  control : Option ControlFile
  txStatus : Nat → Option TxStatusCheckpoint

namespace CheckpointFiles

def nextGeneration (f : CheckpointFiles) : Nat := (f.checkpoint.map (·.generation + 1)).getD 1

def saved (f : CheckpointFiles) : Option TxStatusCheckpoint :=
  f.control.bind fun c => f.txStatus c.generation

/-- What is to hold of a job's LSN, of the status it has read up to a shard, and of the one it has
written. -/
structure Facts where
  lsn : Nat → Prop
  read : Nat → TxStatusCheckpoint → Nat → Prop
  written : Nat → TxStatusCheckpoint → Prop

def JobOk (P : Facts) (f : CheckpointFiles) (job : Nat) : CheckpointPhase → Prop
  | .waiting d | .flushing d | .flushed d _ => P.lsn d
  | .reading d _ status shard => f.holder = some job ∧ f.control = f.checkpoint ∧ P.lsn d ∧
      status.generation = f.nextGeneration ∧ P.read d status shard
  | .statusWritten d _ => f.holder = some job ∧ f.control = f.checkpoint ∧ P.lsn d ∧
      ∃ st, f.txStatus f.nextGeneration = some st ∧ st.generation = f.nextGeneration ∧
        P.written d st
  | .controlWritten next => f.holder = some job ∧ f.control = some next ∧ P.lsn next.checkpointLsn ∧
      ∃ st, f.saved = some st ∧ P.written next.checkpointLsn st

structure Ok (P : Facts) (f : CheckpointFiles) (jobs : Nat → Option CheckpointPhase) : Prop where
  file : ∀ c, f.control = some c → ∃ st, f.txStatus c.generation = some st ∧
    st.generation = c.generation
  mutex : f.holder = none → f.control = f.checkpoint
  jobs : ∀ job p, jobs job = some p → JobOk P f job p

variable {P P' : Facts} {f f' : CheckpointFiles} {jobs : Nat → Option CheckpointPhase}
    {job d n k : Nat}
  {status st : TxStatusCheckpoint} {p : Option CheckpointPhase}

theorem Ok.closed (hfile : ∀ c, f.control = some c → ∃ st, f.txStatus c.generation = some st ∧
    st.generation = c.generation)
    (hmutex : f.control = f.checkpoint) : Ok P f fun _ => none := by
  refine ⟨hfile, fun _ => hmutex, fun job p hj => ?_⟩
  cases hj

section
variable (h : Ok P f jobs)
include h

theorem Ok.mono (hlsn : ∀ d, P.lsn d → P'.lsn d)
    (hread : ∀ job d n st k, f.holder = some job → jobs job = some (.reading d n st k) → P.lsn d →
      P.read d st k → P'.read d st k)
    (hwritten : ∀ d st, P.lsn d → P.written d st → P'.written d st) : Ok P' f jobs := by
  refine ⟨h.file, h.mutex, fun job p hp => ?_⟩
  have hj := h.jobs job p hp
  cases p with
  | waiting | flushing | flushed => exact hlsn _ hj
  | reading =>
    obtain ⟨h1, h2, h3, h4, h5⟩ := hj
    exact ⟨h1, h2, hlsn _ h3, h4, hread _ _ _ _ _ h1 hp h3 h5⟩
  | statusWritten =>
    obtain ⟨h1, h2, h3, st, h4, h5, h6⟩ := hj
    exact ⟨h1, h2, hlsn _ h3, st, h4, h5, hwritten _ _ h3 h6⟩
  | controlWritten =>
    obtain ⟨h1, h2, h3, st, h4, h5⟩ := hj
    exact ⟨h1, h2, hlsn _ h3, st, h4, hwritten _ _ h3 h5⟩

theorem Ok.setJob (hp : ∀ q, p = some q → JobOk P f job q) :
    Ok P f (Function.update jobs job p) := by
  refine ⟨h.file, h.mutex, fun j q hq => ?_⟩
  rw [Function.update_apply] at hq
  split at hq
  · next hj => exact hj ▸ hp q hq
  · exact h.jobs j q hq

/-- A step of the job that holds the mutex, or takes it: the others do not hold it. -/
theorem Ok.move (hholder : f.holder = none ∨ f.holder = some job) (hlsn : ∀ d, P.lsn d → P'.lsn d)
    (hfile : ∀ c, f'.control = some c → ∃ st, f'.txStatus c.generation = some st ∧
      st.generation = c.generation)
    (hmutex : f'.holder = none → f'.control = f'.checkpoint)
    (hp : ∀ q, p = some q → JobOk P' f' job q) :
    Ok P' f' (Function.update jobs job p) := by
  refine ⟨hfile, hmutex, fun j q hq => ?_⟩
  rw [Function.update_apply] at hq
  split at hq
  · next hj => exact hj ▸ hp q hq
  · next hj =>
    have hq' := h.jobs j q hq
    have hne : f.holder ≠ some j := by rcases hholder with hh | hh <;> simp [hh, Ne.symm hj]
    cases q with
    | waiting | flushing | flushed => exact hlsn _ hq'
    | reading | statusWritten | controlWritten => exact absurd hq'.1 hne

theorem Ok.start (hh : f.holder = none) (hd : P.lsn d) (hg : status.generation = f.nextGeneration)
    (hr : P.read d status 0) :
    Ok P { f with holder := some job }
    (Function.update jobs job (some (.reading d n status 0))) := by
  refine h.move (.inl hh) (fun _ => id) h.file nofun ?_
  rintro q ⟨⟩
  exact ⟨rfl, h.mutex hh, hd, hg, hr⟩

theorem Ok.read (hj : jobs job = some (.reading d n status k))
    (hg : st.generation = status.generation)
    (hr : P.read d status k → P.read d st (k + 1)) :
    Ok P f (Function.update jobs job (some (.reading d n st (k + 1)))) := by
  obtain ⟨h1, h2, h3, h4, h5⟩ := h.jobs job _ hj
  refine h.setJob ?_
  rintro q ⟨⟩
  exact ⟨h1, h2, h3, hg.trans h4, hr h5⟩

/-- The status file of the next generation is written; the newest control file is still the old one.
-/
theorem Ok.writeStatus (hj : jobs job = some (.reading d n status k)) (st : TxStatusCheckpoint)
    {txStatus : Nat → Option TxStatusCheckpoint} (htx : ∀ g, txStatus g = if g = st.generation then
      some st else f.txStatus g) (hg : st.generation = status.generation)
    (hw : P.read d status k → P.written d st) :
    Ok P { f with txStatus } (Function.update jobs job (some (.statusWritten d n))) ∧
      saved { f with txStatus } = f.saved := by
  obtain ⟨h1, h2, h3, h4, h5⟩ := h.jobs job _ hj
  have hkeep : ∀ c, f.control = some c → txStatus c.generation = f.txStatus c.generation := by
    intro c hc
    rw [htx, if_neg]
    rw [hg, h4, nextGeneration, ← h2, hc]
    exact Nat.ne_of_lt (Nat.lt_succ_self _)
  refine ⟨h.move (.inr h1) (fun _ => id) (fun c hc => ?_) h.mutex ?_, Option.bind_congr hkeep⟩
  · obtain ⟨st, hst, hgen⟩ := h.file c hc
    exact ⟨st, (hkeep c hc).trans hst, hgen⟩
  · rintro q ⟨⟩
    exact ⟨h1, h2, h3, st, (htx _).trans (if_pos (hg.trans h4).symm), hg.trans h4, hw h5⟩

theorem Ok.writeControl (hj : jobs job = some (.statusWritten d n)) (P' : Facts)
    (hlsn : ∀ d, P.lsn d → P'.lsn d) :
    ∃ st, saved { f with control := some ⟨f.nextGeneration, d, n⟩ } = some st ∧ P.written d st ∧
      (P'.written d st → Ok P' { f with control := some ⟨f.nextGeneration, d, n⟩ }
        (Function.update jobs job (some (.controlWritten ⟨f.nextGeneration, d, n⟩)))) := by
  obtain ⟨h1, -, h3, st, h4, h5, h6⟩ := h.jobs job _ hj
  refine ⟨st, h4, h6, fun hw => h.move (.inr h1) hlsn ?_ (fun hn => ?_) ?_⟩
  · rintro c ⟨⟩
    exact ⟨st, h4, h5⟩
  · cases h1.symm.trans hn
  · rintro q ⟨⟩
    exact ⟨h1, rfl, hlsn d h3, st, h4, hw⟩

theorem Ok.finish {next : ControlFile} (hj : jobs job = some (.controlWritten next))
    (hlsn : ∀ d, P.lsn d → P'.lsn d) :
    Ok P' { f with checkpoint := some next, holder := none } (Function.update jobs job none) := by
  obtain ⟨h1, h2, -⟩ := h.jobs job _ hj
  exact h.move (.inr h1) hlsn h.file (fun _ => h2) nofun

end
end CheckpointFiles

/-! ### What a step does to commits -/

theorem WalRecord.commit?_eq_none {r : WalRecord} (hk : r.kind ≠ .commit) : r.commit? = none := by
  unfold WalRecord.commit?
  split
  · next h _ => exact absurd h hk
  · rfl

namespace Engine
variable {e e' : Engine} {rs : List WalRecord} {tx x c l : Nat} {t : Txn} {st : TxState}

def CommittingAt (e : Engine) (x c l : Nat) : Prop :=
  ∃ t, e.txns.lookup x = some t ∧ t.phase = .committing c l

theorem CommittingAt.committing (h : e.CommittingAt x c l) : e.Committing x c :=
  let ⟨t, ht, hp⟩ := h; ⟨t, l, ht, hp⟩

theorem Committing.at (h : e.Committing x c) : ∃ l, e.CommittingAt x c l :=
  let ⟨t, l, ht, hp⟩ := h; ⟨l, t, ht, hp⟩

theorem Moved.committingAt (hM : Moved e tx t st e') (x c l : Nat) : e'.CommittingAt x c l ↔
    (x = tx ∧ t.phase = .committing c l) ∨ (x ≠ tx ∧ e.CommittingAt x c l) := by
  unfold CommittingAt
  rw [hM.lookup]
  by_cases hx : x = tx
  · simp [hx]
  · simp [hx]

structure CommitStep (e e' : Engine) (rs : List WalRecord) : Prop where
  logged : Logged e.heap.wal rs e'.heap.wal
  durable : e.heap.wal.durableLsn ≤ e'.heap.wal.durableLsn
  /-- Nobody makes more durable than was reserved or is waited for. -/
  bounded : ∀ n, e.heap.wal.durableLsn ≤ n → (∀ x c l, e.CommittingAt x c l → l ≤ n) →
    e'.heap.wal.reservedLsn ≤ n →
    e'.heap.wal.durableLsn ≤ n
  /-- A commit record comes with a new CSN, at the end of the log. -/
  records : ∀ r ∈ rs, ∀ x c, r.commit? = some (x, c) →
    c = e.txs.nextCsn ∧ e.txs.nextCsn < e'.txs.nextCsn ∧ e'.CommittingAt x c e'.heap.wal.reservedLsn
  seen : ∀ c, c < e'.txs.nextCsn → c < e.txs.nextCsn ∨ ∃ r ∈ rs, ∃ x, r.commit? = some (x, c)
  committing : ∀ x c l, e'.CommittingAt x c l →
    e.CommittingAt x c l ∨
      (c = e.txs.nextCsn ∧ l = e'.heap.wal.reservedLsn ∧ ∃ r ∈ rs, r.commit? = some (x, c))
  published : ∀ x c, e'.txs.state x = .committed c →
    e.txs.state x = .committed c ∨ ∃ l, e.CommittingAt x c l ∧ l ≤ e'.heap.wal.durableLsn
  keeps : ∀ x c, e.HasCsn x c → e'.HasCsn x c ∨ e'.txs.state x = .aborted
  txLe : TxLe e e'

theorem CommitStep.of_quiet (hl : TxLe e e') (hlog : Logged e.heap.wal rs e'.heap.wal)
    (hno : ∀ r ∈ rs, r.commit? = none) (hd : e'.heap.wal.durableLsn = e.heap.wal.durableLsn)
    (hcsn : e'.txs.nextCsn = e.txs.nextCsn)
    (hcom : ∀ x c l, e'.CommittingAt x c l ↔ e.CommittingAt x c l)
    (hst : ∀ x c, e'.txs.state x = .committed c → e.txs.state x = .committed c) :
    CommitStep e e' rs := by
  refine ⟨hlog, hd.symm.le, fun n h _ _ => by rw [hd]; exact h, ?_,
    fun c h => .inl (by rw [← hcsn]; exact h),
    fun x c l h => .inl ((hcom x c l).1 h), fun x c h => .inl (hst x c h), ?_, hl⟩
  · intro r hr x c hc
    rw [hno r hr] at hc
    cases hc
  · rintro x c (h | h)
    · exact .inl (.inl (hl.committed x c h))
    · obtain ⟨l, h⟩ := h.at
      exact .inl (.inr ((hcom x c l).2 h).committing)

theorem Plain.commitStep (hq : Plain e tx t st) (hM : Moved e tx t st e') (hi : TxInv e)
    (hlog : Logged e.heap.wal rs e'.heap.wal) (hno : ∀ r ∈ rs, r.commit? = none)
    (hd : e'.heap.wal.durableLsn = e.heap.wal.durableLsn) (hcsn : e'.txs.nextCsn = e.txs.nextCsn) :
    CommitStep e e' rs := by
  refine .of_quiet (hM.txLe hi) hlog hno hd hcsn (fun x c l => ?_) fun x c => hq.committed hM
  rw [hM.committingAt]
  by_cases hx : x = tx
  · have hbefore : ¬ e.CommittingAt tx c l := fun h => hq.before c h.committing
    simp [hx, hq.after, hbefore]
  · simp [hx]

section
variable (hi : TxInv e)
include hi

theorem Touch.commitStep {e1 : Engine} {heap : PageBackedHeap} (hT : Touch e tx t e1)
    (hw : heap.wal = e.heap.wal ∨ ∃ a x payload, e.heap.wal.append .pageDelta x payload =
      .ok (a, heap.wal)) :
    ∃ rs, CommitStep e { e1 with heap } rs := by
  have hM := (hT.moved hi).setHeap heap
  have hcsn : e1.txs.nextCsn = e.txs.nextCsn := by rw [hT.txs]
  rcases hw with hw | ⟨a, y, payload, ha⟩
  · refine ⟨[], hT.plain.commitStep hM hi ?_ (by simp) ?_ hcsn⟩
    · show Logged e.heap.wal [] heap.wal
      rw [hw]
      exact .refl _
    · show heap.wal.durableLsn = _
      rw [hw]
  · refine ⟨_, hT.plain.commitStep hM hi (.of_append ha) ?_ ?_ hcsn⟩
    · intro r hr
      rw [mem_singleton.1 hr]
      exact WalRecord.commit?_eq_none (by simp)
    · obtain ⟨-, -, h⟩ := WalCoordinator.append_ok ha
      show heap.wal.durableLsn = _
      rw [h]

theorem appendCommit_commitStep (ha : e.appendCommit tx = .ok e') : ∃ rs, CommitStep e e' rs := by
  have hs : e.step (.appendCommit tx) = .ok e' := ha
  obtain ⟨t, a, wal, ht, hopen, happ, he⟩ := appendCommit_ok ha
  have hM : Moved e tx { t with phase := .committing e.txs.nextCsn a.endLsn } .inProgress e' :=
    he ▸ appendCommit_moved hi ht hopen
  have hwal : e'.heap.wal = wal := by rw [he]; rfl
  have hcsn : e'.txs.nextCsn = e.txs.nextCsn + 1 := by rw [he]; rfl
  obtain ⟨-, -, happ'⟩ := WalCoordinator.append_ok happ
  have hres : wal.reservedLsn = a.endLsn := by rw [happ']
  refine ⟨[⟨a.startLsn, e.heap.wal.prevLsn, tx, .commit, .commit tx e.txs.nextCsn⟩], ?_⟩
  constructor
  · rw [hwal]
    exact .of_append happ
  · rw [hwal, happ']
  · intro n hn _ _
    rw [hwal, happ']
    exact hn
  · intro r hr x c hc
    rw [mem_singleton.1 hr] at hc
    cases hc
    refine ⟨rfl, by omega, (hM.committingAt _ _ _).2 (.inl ⟨rfl, ?_⟩)⟩
    rw [hwal, hres]
  · intro c hc
    rw [hcsn] at hc
    rcases Nat.lt_succ_iff_lt_or_eq.1 hc with h | rfl
    · exact .inl h
    · exact .inr ⟨_, mem_singleton_self _, tx, rfl⟩
  · intro x c l h
    rcases (hM.committingAt x c l).1 h with ⟨rfl, ⟨⟩⟩ | ⟨-, h⟩
    · exact .inr ⟨rfl, by rw [hwal, hres], _, mem_singleton_self _, rfl⟩
    · exact .inl h
  · intro x c h
    rw [he] at h
    exact .inl h
  · exact fun x c h => (step_hasCsn hi hs h).imp id And.right
  · exact hM.txLe hi

theorem publish_commitStep {heap : PageBackedHeap} (ht : e.txns.lookup tx = some t)
    (hp : t.phase = .committing c l) (hlog : Logged e.heap.wal [] heap.wal)
    (hd : heap.wal.durableLsn = max e.heap.wal.durableLsn l) :
    CommitStep e ({ e with txs := e.txs.publishCommit tx c, heap }.closeTxn tx t) [] := by
  have hM := publish_moved hi ht hp heap
  have hcom : e.CommittingAt tx c l := ⟨t, ht, hp⟩
  have hcsn : (e.txs.publishCommit tx c).nextCsn = e.txs.nextCsn := nextCsn_completeCsn _ _
  constructor
  · exact hlog
  · show _ ≤ heap.wal.durableLsn
    omega
  · intro n hn hl _
    have := hl tx c l hcom
    show heap.wal.durableLsn ≤ n
    omega
  · simp
  · exact fun c' hc => .inl (Nat.lt_of_lt_of_eq hc hcsn)
  · intro x c' l' h
    exact .inl (by simpa [hM.committingAt] using h : x ≠ tx ∧ e.CommittingAt x c' l').2
  · intro x c' h
    rw [hM.state] at h
    split at h
    · next hx =>
      cases h
      subst hx
      refine .inr ⟨l, hcom, ?_⟩
      show l ≤ heap.wal.durableLsn
      omega
    · exact .inl h
  · exact fun x c' h => (hM.hasCsn hi (by simp [committing_iff ht, hp]) h).imp id And.right
  · exact hM.txLe hi

theorem failCommit_commitStep (hf : e.failCommit tx = .ok e') : CommitStep e e' [] := by
  have hs : e.step (.failCommit tx) = .ok e' := hf
  have hkeep := fun x c (h : e.HasCsn x c) => (step_hasCsn hi hs h).imp id And.right
  obtain ⟨t, hM⟩ := failCommit_moved hi hf
  obtain ⟨_, csn, endLsn, -, -, rfl⟩ := failCommit_ok hf
  have hcsn : ((e.txs.cancelReservedCsn csn).abort tx).nextCsn = e.txs.nextCsn :=
    nextCsn_skipCsn _ _
  refine ⟨⟨by simp [closeTxn, setTxn], le_rfl, by simp, rfl, fun _ => rfl⟩, le_rfl,
    fun n h _ _ => h, by simp, fun c hc => .inl (Nat.lt_of_lt_of_eq hc hcsn),
    fun x c l h => .inl ?_, fun x c h => .inl ?_, hkeep, hM.txLe hi⟩
  · refine ((hM.committingAt x c l).1 h).elim (fun h => ?_) And.right
    have hst := hM.running (by simp [h.2])
    cases hst
  · rw [hM.state] at h
    split at h
    · cases h
    · exact h

theorem rollback_commitStep (hr : e.rollback tx = .ok e') : CommitStep e e' [] := by
  obtain ⟨t, hM⟩ := rollback_moved hi hr
  have hq := plain_rollback hM hr
  obtain ⟨_, -, -, rfl⟩ := rollback_ok hr
  exact hq.commitStep hM hi (.refl _) (by simp) rfl rfl

theorem begin_commitStep {iso : Isolation} (hb : e.begin iso = .ok e') : CommitStep e e' [] := by
  obtain ⟨hheap, -, -, -, -, hcsn, -⟩ := begin_ok hb
  obtain ⟨t, hM, hp⟩ := begin_moved hb
  exact (plain_begin hi hp).commitStep hM hi (by rw [hheap]; exact .refl _) (by simp)
    (by rw [hheap]) hcsn

theorem step_commitStep {op : Op} (hw : HeapWf e.heap) (hs : e.step op = .ok e') :
    ∃ rs, CommitStep e e' rs := by
  cases stepped hs with
  | begin hb => exact ⟨[], begin_commitStep hi hb⟩
  | get hT | lock hT => exact hT.commitStep hi (.inl (by rw [hT.heap]))
  | insert hT hins =>
    obtain ⟨a, ha⟩ := insertForRelation_wal hw hins
    exact hT.commitStep hi (.inr ⟨a, _, _, ha⟩)
  | update hT hup =>
    obtain ⟨a, ha⟩ := updateForRelation_wal hw hup
    exact hT.commitStep hi (.inr ⟨a, _, _, ha⟩)
  | delete hT hdel =>
    obtain ⟨a, ha⟩ := deleteForRelation_wal hw hdel
    exact hT.commitStep hi (.inr ⟨a, _, _, ha⟩)
  | appendCommit h => exact appendCommit_commitStep hi h
  | finishCommit h =>
    obtain ⟨t, csn, endLsn, d, wal, ht, hp, hf, rfl⟩ := finishCommit_ok h
    obtain ⟨hlog, -⟩ := Logged.of_flushUntil hf
    exact ⟨[], publish_commitStep hi ht hp hlog (durableLsn_flushUntil hf)⟩
  | failCommit h => exact ⟨[], failCommit_commitStep hi h⟩
  | rollback h => exact ⟨[], rollback_commitStep hi h⟩

end

/-! ### What holds of the commits -/

structure CommitInv (e : Engine) (E : List (Nat × Nat)) : Prop where
  tx : TxInv e
  csn : CsnInv e
  live : LiveHeap e.heap
  lsn : ∀ r ∈ e.heap.wal.records, r.endLsn ≤ e.heap.wal.reservedLsn
  durable : e.heap.wal.durableLsn ≤ e.heap.wal.reservedLsn
  waits : ∀ x c l, e.CommittingAt x c l → l ≤ e.heap.wal.reservedLsn
  /-- Whose commit record it is: also that of a commit that failed. -/
  origin : ∀ r ∈ e.heap.wal.records, ∀ x c, r.commit? = some (x, c) →
    e.HasCsn x c ∨ (e.txs.state x = .aborted ∧ x < e.txs.nextTx)
  /-- Every CSN handed out is in the log or in the checkpoint. -/
  seen : ∀ c, 1 ≤ c → c < e.txs.nextCsn → (∃ r ∈ e.heap.wal.records, ∃ x, r.commit? = some (x, c)) ∨
    ∃ x, (x, c) ∈ E
  kept : ∀ x c, e.HasCsn x c → (∃ r ∈ e.heap.wal.records, r.commit? = some (x, c)) ∨ (x, c) ∈ E
  entries : ∀ x c, (x, c) ∈ E → e.txs.state x = .committed c
  /-- A commit waits for all records of smaller CSNs. -/
  ends : ∀ x c l, e.CommittingAt x c l → ∀ r ∈ e.heap.wal.records, ∀ y c',
    r.commit? = some (y, c') → c' ≤ c → r.endLsn ≤ l
  published : ∀ x c, e.txs.state x = .committed c → ∀ r ∈ e.heap.wal.records, ∀ y c',
    r.commit? = some (y, c') → c' ≤ c →
    r.endLsn ≤ e.heap.wal.durableLsn

variable {E E' : List (Nat × Nat)}

theorem CommitInv.step (hI : CommitInv e E) (hS : CommitStep e e' rs) (hi : TxInv e')
    (hc : CsnInv e')
    (hl : LiveHeap e'.heap) : CommitInv e' E := by
  have hres := hS.logged.reserved
  have hlsn : ∀ r ∈ e'.heap.wal.records, r.endLsn ≤ e'.heap.wal.reservedLsn := by
    intro r hr
    rw [hS.logged.records] at hr
    rcases mem_append.1 hr with hr | hr
    · exact (hI.lsn r hr).trans hres
    · exact (hS.logged.lsn r hr).2
  -- a new record's CSN is above all that were handed out
  have hnew : ∀ r ∈ rs, ∀ y c', r.commit? = some (y, c') → ∀ x c, e.HasCsn x c → ¬ c' ≤ c := by
    intro r hr y c' hrc x c hx hle
    obtain ⟨rfl, -, -⟩ := hS.records r hr y c' hrc
    exact absurd (hI.csn.lt x c hx) (not_lt.2 hle)
  refine ⟨hi, hc, hl, hlsn, ?_, ?_, ?_, ?_, ?_, ?_, ?_, ?_⟩
  · refine hS.bounded _ (hI.durable.trans hres) ?_ le_rfl
    exact fun x c l h => (hI.waits x c l h).trans hres
  · intro x c l h
    rcases hS.committing x c l h with h | ⟨-, rfl, -⟩
    · exact (hI.waits x c l h).trans hres
    · exact le_rfl
  · intro r hr x c hrc
    rw [hS.logged.records] at hr
    rcases mem_append.1 hr with hr | hr
    · rcases hI.origin r hr x c hrc with h | ⟨hab, hlt⟩
      · have hlt : x < e.txs.nextTx := by
          rcases h with h | ⟨t, l, ht, -⟩
          · exact hI.tx.begun x c h
          · exact hI.tx.lt ht
        exact (hS.keeps x c h).imp id fun h => ⟨h, hlt.trans_le hS.txLe.next⟩
      · exact .inr ⟨hS.txLe.aborted x hlt hab, hlt.trans_le hS.txLe.next⟩
    · exact .inl (.inr (hS.records r hr x c hrc).2.2.committing)
  · intro c h1 hlt
    rw [hS.logged.records]
    rcases hS.seen c hlt with h | ⟨r, hr, x, hrc⟩
    · refine (hI.seen c h1 h).imp ?_ id
      rintro ⟨r, hr, x, hrc⟩
      exact ⟨r, mem_append_left _ hr, x, hrc⟩
    · exact .inl ⟨r, mem_append_right _ hr, x, hrc⟩
  · intro x c hx
    rw [hS.logged.records]
    have hold : e.HasCsn x c ∨ ∃ r ∈ rs, r.commit? = some (x, c) := by
      rcases hx with h | h
      · rcases hS.published x c h with h | ⟨l, h, -⟩
        · exact .inl (.inl h)
        · exact .inl (.inr h.committing)
      · obtain ⟨l, h⟩ := h.at
        rcases hS.committing x c l h with h | ⟨-, -, hr⟩
        · exact .inl (.inr h.committing)
        · exact .inr hr
    rcases hold with h | ⟨r, hr, hrc⟩
    · refine (hI.kept x c h).imp ?_ id
      rintro ⟨r, hr, hrc⟩
      exact ⟨r, mem_append_left _ hr, hrc⟩
    · exact .inl ⟨r, mem_append_right _ hr, hrc⟩
  · exact fun x c h => hS.txLe.committed x c (hI.entries x c h)
  · intro x c l h r hr y c' hrc hle
    rcases hS.committing x c l h with h | ⟨rfl, rfl, -⟩
    · rw [hS.logged.records] at hr
      rcases mem_append.1 hr with hr | hr
      · exact hI.ends x c l h r hr y c' hrc hle
      · exact absurd hle (hnew r hr y c' hrc x c (.inr h.committing))
    · exact hlsn r hr
  · intro x c h r hr y c' hrc hle
    rw [hS.logged.records] at hr
    rcases hS.published x c h with h | ⟨l, h, hl⟩
    · rcases mem_append.1 hr with hr | hr
      · exact (hI.published x c h r hr y c' hrc hle).trans hS.durable
      · exact absurd hle (hnew r hr y c' hrc x c (.inl h))
    · rcases mem_append.1 hr with hr | hr
      · exact (hI.ends x c l h r hr y c' hrc hle).trans hl
      · exact absurd hle (hnew r hr y c' hrc x c (.inr h.committing))

theorem CommitInv.checkpointed (hI : CommitInv e E) (hE : ∀ x c, (x, c) ∈ E → (x, c) ∈ E')
    (hst : ∀ x c, (x, c) ∈ E' → e.txs.state x = .committed c) : CommitInv e E' := by
  refine ⟨hI.tx, hI.csn, hI.live, hI.lsn, hI.durable, hI.waits, hI.origin, ?_, ?_, hst, hI.ends,
    hI.published⟩
  · intro c h1 hlt
    refine (hI.seen c h1 hlt).imp id ?_
    rintro ⟨x, hx⟩
    exact ⟨x, hE x c hx⟩
  · exact fun x c h => (hI.kept x c h).imp id (hE x c)

theorem CommitInv.prune {wal : WalCoordinator} (hI : CommitInv e E)
    (hsub : ∀ r ∈ wal.records, r ∈ e.heap.wal.records)
    (hgone : ∀ r ∈ e.heap.wal.records, r ∉ wal.records → ∀ x c, r.commit? = some (x, c) →
      (x, c) ∈ E)
    (hres : wal.reservedLsn = e.heap.wal.reservedLsn)
    (hdur : wal.durableLsn = e.heap.wal.durableLsn) :
    CommitInv { e with heap := { e.heap with wal } } E := by
  refine ⟨hI.tx.setHeap _, { hI.csn with },
    hI.live.setWal hres.symm.le, ?_, ?_, ?_, fun r hr => hI.origin r (hsub r hr), ?_, ?_,
      hI.entries,
    fun x c l h r hr => hI.ends x c l h r (hsub r hr), ?_⟩
  · intro r hr
    show r.endLsn ≤ wal.reservedLsn
    rw [hres]
    exact hI.lsn r (hsub r hr)
  · show wal.durableLsn ≤ wal.reservedLsn
    rw [hres, hdur]
    exact hI.durable
  · intro x c l h
    show l ≤ wal.reservedLsn
    rw [hres]
    exact hI.waits x c l h
  · intro c h1 hlt
    rcases hI.seen c h1 hlt with ⟨r, hr, x, hrc⟩ | h
    · by_cases hw : r ∈ wal.records
      · exact .inl ⟨r, hw, x, hrc⟩
      · exact .inr ⟨x, hgone r hr hw x c hrc⟩
    · exact .inr h
  · intro x c h
    rcases hI.kept x c h with ⟨r, hr, hrc⟩ | h
    · by_cases hw : r ∈ wal.records
      · exact .inl ⟨r, hw, hrc⟩
      · exact .inr (hgone r hr hw x c hrc)
    · exact .inr h
  · intro x c h r hr y c' hrc hle
    show r.endLsn ≤ wal.durableLsn
    rw [hdur]
    exact hI.published x c h r (hsub r hr) y c' hrc hle

/-- All CSNs up to a published one are in the checkpoint or durable in the log, and the log has no
other CSN for its transaction. -/
theorem CommitInv.visible_recovered {st : TxStatusCheckpoint} (hI : CommitInv e st.entries)
    {records : List WalRecord}
    (hsub : ∀ r ∈ records, r ∈ e.heap.wal.records)
    (hdur : ∀ r ∈ e.heap.wal.records, r.endLsn ≤ e.heap.wal.durableLsn → r ∈ records)
    (hx : e.txs.state x = .committed c) :
    (recoverCommits records (.restore st)).isTxVisible x
    (recoverCommits records (.restore st)).snapshot none = true := by
  have hdurable : ∀ r ∈ e.heap.wal.records, ∀ y c', r.commit? = some (y, c') → c' ≤ c →
      r ∈ records :=
    fun r hr y c' hrc hle => hdur r hr (hI.published x c hx r hr y c' hrc hle)
  refine isTxVisible_none.2 ⟨c, ?_, le_publishedCsn_recoverCommits ?_⟩
  · refine state_recovered_of_agree ?_ ?_
    · rcases hI.kept x c (.inl hx) with ⟨r, hr, hrc⟩ | h
      · exact .inl (mem_filterMap.2 ⟨r, hdurable r hr x c hrc le_rfl, hrc⟩)
      · refine .inr (state_recovered_of_agree (.inl h) ?_)
        rintro ⟨y, c'⟩ he rfl
        have h' := hI.entries y c' he
        rw [hx] at h'
        cases h'
        rfl
    · rintro ⟨y, c'⟩ he rfl
      obtain ⟨r, hr, hrc⟩ := mem_filterMap.1 he
      rcases hI.origin r (hsub r hr) y c' hrc with (h | ⟨t, l, ht, hp⟩) | ⟨h, -⟩
      · rw [hx] at h
        cases h
        rfl
      · have := hI.tx.running y t ht (by rw [hp]; simp)
        rw [hx] at this
        cases this
      · rw [hx] at h
        cases h
  · intro k h1 hk
    rcases hI.seen k h1 (hk.trans_lt (hI.csn.lt x c (.inl hx))) with ⟨r, hr, y, hrc⟩ | ⟨y, hy⟩
    · exact .inr ⟨(y, k), mem_filterMap.2 ⟨r, hdurable r hr y k hrc hk, hrc⟩, rfl⟩
    · exact .inl ⟨(y, k), hy, rfl⟩

end Engine

/-! ### The server along a run -/

namespace Server
variable {s s' : Server} {job : Nat}

def status (s : Server) : TxStatusCheckpoint :=
  (s.control.bind fun k => s.txStatus k.generation).getD ⟨0, 0, 0, 0, []⟩

/-- The transactions whose commit record lies in a segment before the one of `d` are committed, and
those that `P` says, with those of the newest checkpoint (`old`), are among `entries`. -/
structure Covers (e : Engine) (old : List (Nat × Nat)) (d : Nat) (P : Nat → Prop)
    (entries : List (Nat × Nat)) : Prop where
  below : ∀ r ∈ e.heap.wal.records, segmentForLsn r.lsn e.heap.wal.segmentBytes <
    segmentForLsn d e.heap.wal.segmentBytes →
    ∀ x c, r.commit? = some (x, c) → e.txs.state x = .committed c ∧ (P x → (x, c) ∈ entries)
  old : ∀ x c, (x, c) ∈ old → P x → (x, c) ∈ entries
  committed : ∀ x c, (x, c) ∈ entries → e.txs.state x = .committed c

def files (s : Server) : CheckpointFiles := ⟨s.checkpoint, s.holder, s.control, s.txStatus⟩

def facts (e : Engine) (old : List (Nat × Nat)) : CheckpointFiles.Facts where
  lsn d := d ≤ e.heap.wal.reservedLsn
  read d status shard := Covers e old d (· % txStatusShards < shard) status.entries
  written d status := Covers e old d (fun _ => True) status.entries

structure ServerInv (acked : Nat → Prop) (s : Server) : Prop where
  acked : ∀ x, acked x → ∃ c, s.engine.txs.state x = .committed c
  commit : s.engine.CommitInv s.status.entries
  barrier : ∀ b ∈ s.barrier, b.2 ≤ s.engine.heap.wal.durableLsn
  ok : s.files.Ok (facts s.engine s.status.entries) s.jobs.lookup

variable {rs : List WalRecord} {e' : Engine} {c n target tx x : Nat} {status : TxStatusCheckpoint}
  {a : ServerAction} {d : Nat} {acked : Nat → Prop} {barrier : List (Nat × Nat)}

theorem Covers.commitStep {e : Engine} {P : Nat → Prop} {old entries : List (Nat × Nat)}
    (hC : Covers e old d P entries)
    (hS : e.CommitStep e' rs) (hd : d ≤ e.heap.wal.reservedLsn) : Covers e' old d P entries := by
  refine ⟨?_, hC.old, fun x c h => hS.txLe.committed x c (hC.committed x c h)⟩
  intro r hr hseg x c hrc
  rw [hS.logged.records] at hr
  rw [hS.logged.segment] at hseg
  rcases mem_append.1 hr with hr | hr
  · obtain ⟨h1, h2⟩ := hC.below r hr hseg x c hrc
    exact ⟨hS.txLe.committed x c h1, h2⟩
  · -- what is logged later lies behind the checkpoint's LSN
    exact absurd hseg (not_lt.2 (segmentForLsn_mono (hd.trans (hS.logged.lsn r hr).1)))

theorem ServerInv.commitStep (hI : ServerInv acked s)
    (hS : s.engine.CommitStep e' rs) (hi : e'.TxInv) (hc : e'.CsnInv) (hl : LiveHeap e'.heap)
    (hb : ∀ b ∈ barrier, b ∈ s.barrier ∨ b.2 ≤ e'.heap.wal.durableLsn) :
    ServerInv acked { s with engine := e', barrier } := by
  refine ⟨fun x hx => ?_, hI.commit.step hS hi hc hl, ?_,
    hI.ok.mono (fun d hd => hd.trans hS.logged.reserved) ?_ ?_⟩
  · obtain ⟨c, h⟩ := hI.acked x hx
    exact ⟨c, hS.txLe.committed x c h⟩
  · intro b hm
    rcases hb b hm with h | h
    · exact (hI.barrier b h).trans hS.durable
    · exact h
  · exact fun _ d _ _ _ _ _ hd h => h.commitStep hS hd
  · exact fun d _ hd h => h.commitStep hS hd

theorem flushUntil_commitStep {e : Engine} {wal : WalCoordinator}
    (hf : e.heap.wal.flushUntil target = .ok (d, wal))
    (ht : target ≤ e.heap.wal.reservedLsn ∨ ∃ x c, e.CommittingAt x c target) :
    e.CommitStep { e with heap := { e.heap with wal } } [] := by
  obtain ⟨hlog, hres, -⟩ := Logged.of_flushUntil hf
  have hd := durableLsn_flushUntil hf
  refine ⟨hlog, ?_, ?_, by simp, fun c h => .inl h, fun x c l h => .inl h, fun x c h => .inl h, ?_,
    (Engine.TxLe.refl e).setHeap _⟩
  · show _ ≤ wal.durableLsn
    omega
  · intro n hn hw hr
    have hr' : wal.reservedLsn ≤ n := hr
    show wal.durableLsn ≤ n
    rcases ht with ht | ⟨x, c, h⟩
    · omega
    · have := hw x c target h
      omega
  · exact fun x c h => .inl h

theorem ServerInv.setWal {wal : WalCoordinator} (hI : ServerInv acked s)
    (hf : s.engine.heap.wal.flushUntil target = .ok (d, wal))
    (ht : target ≤ s.engine.heap.wal.reservedLsn ∨ ∃ x c, s.engine.CommittingAt x c target)
    (hb : ∀ b ∈ barrier, b ∈ s.barrier ∨ b.2 ≤ wal.durableLsn) :
    ServerInv acked { s.setWal wal with barrier } := by
  have hC := hI.commit
  obtain ⟨-, hres, -⟩ := Logged.of_flushUntil hf
  exact hI.commitStep (flushUntil_commitStep hf ht) (hC.tx.setHeap _)
    { hC.csn with } (hC.live.setWal hres.symm.le) hb

theorem lookup_setJob (s : Server) (job : Nat) (q : CheckpointPhase) :
    (fun j => (s.setJob job q).jobs.lookup j) = Function.update (fun j => s.jobs.lookup j) job
    (some q) := by
  funext j
  rw [Function.update_apply]
  exact Lib.lookup_insert

theorem ServerInv.setJob {q : CheckpointPhase} (hI : ServerInv acked s)
    (hq : s.files.JobOk (facts s.engine s.status.entries) job q) :
    ServerInv acked (s.setJob job q) := by
  refine ⟨hI.acked, hI.commit, hI.barrier, ?_⟩
  rw [lookup_setJob]
  refine hI.ok.setJob ?_
  rintro q ⟨⟩
  exact hq

/-- A checkpoint may read the transaction table when all commits below its LSN whose segments it
will prune are published. -/
def CaptureOk (s : Server) : ServerAction → Prop
  | .checkpoint job =>
    match s.jobs.lookup job with
    | some (.flushed d _) => ∀ r ∈ s.engine.heap.wal.records,
        segmentForLsn r.lsn s.engine.heap.wal.segmentBytes <
          segmentForLsn d s.engine.heap.wal.segmentBytes →
        (r.commit?.all fun c => decide (s.engine.txs.state c.1 = .committed c.2)) = true
    | _ => True
  | _ => True

instance (s : Server) (a : ServerAction) : Decidable (s.CaptureOk a) := by
  unfold CaptureOk
  split
  · split
    · infer_instance
    · infer_instance
  · infer_instance

theorem mem_shardStates {t : ConcurrentTxStatus} {k : Nat} :
    (x, c) ∈ t.shardStates k ↔ t.state x = .committed c ∧ x % txStatusShards = k := by
  rw [shardStates, mem_filter, mem_filterMap_committedOf, decide_eq_true_eq]

section
variable (hI : ServerInv acked s)
include hI

theorem ServerInv.startReading (hj : s.jobs.lookup job = some (.flushed d n))
    (hok : s.CaptureOk (.checkpoint job)) (hh : s.holder = none)
    (hg : status.generation = s.nextGeneration) (he : status.entries = []) :
    ServerInv acked ({ s with holder := some job }.setJob job (.reading d n status 0)) := by
  simp only [CaptureOk, hj] at hok
  refine ⟨hI.acked, hI.commit, hI.barrier, ?_⟩
  rw [lookup_setJob]
  refine hI.ok.start hh (hI.ok.jobs job _ hj) hg ⟨?_, ?_, ?_⟩
  · intro r hr hseg x c hrc
    have h := hok r hr hseg
    rw [hrc, Option.all_some, decide_eq_true_eq] at h
    exact ⟨h, fun hlt => absurd hlt (Nat.not_lt_zero _)⟩
  · exact fun x c _ hlt => absurd hlt (Nat.not_lt_zero _)
  · rw [he]
    simp

theorem ServerInv.readShard {d k : Nat} (hj : s.jobs.lookup job = some (.reading d n status k)) :
    ServerInv acked
      (s.setJob job
      (.reading d n { status with entries := status.entries ++ s.engine.txs.shardStates k }
      (k + 1))) := by
  have hmem : ∀ x c, s.engine.txs.state x = .committed c →
      (x % txStatusShards < k → (x, c) ∈ status.entries) →
      x % txStatusShards < k + 1 → (x, c) ∈ status.entries ++ s.engine.txs.shardStates k := by
    intro x c hst hold hlt
    rcases Nat.lt_succ_iff_lt_or_eq.1 hlt with h | h
    · exact mem_append_left _ (hold h)
    · exact mem_append_right _ (mem_shardStates.2 ⟨hst, h⟩)
  refine ⟨hI.acked, hI.commit, hI.barrier, ?_⟩
  rw [lookup_setJob]
  refine hI.ok.read hj rfl fun hr => ⟨?_, ?_, ?_⟩
  · intro r hr' hseg x c hrc
    obtain ⟨h1, h2⟩ := hr.below r hr' hseg x c hrc
    exact ⟨h1, hmem x c h1 h2⟩
  · exact fun x c hx => hmem x c (hI.commit.entries x c hx) (hr.old x c hx)
  · intro x c hx
    rcases mem_append.1 hx with hx | hx
    · exact hr.committed x c hx
    · exact (mem_shardStates.1 hx).1

theorem ServerInv.writeStatus {d k : Nat} (hj : s.jobs.lookup job = some (.reading d n status k))
    (hk : ¬ k < txStatusShards) {entries : List (Nat × Nat)}
    (he : ∀ x c, (x, c) ∈ entries ↔ (x, c) ∈ status.entries) :
    ServerInv acked ({ s with txStatus := fun g =>
      if g = status.generation then some { status with entries } else s.txStatus g }.setJob job
        (.statusWritten d n)) := by
  have hin : ∀ x, x % txStatusShards < k :=
    fun x => (Nat.mod_lt x (by decide)).trans_le (not_lt.1 hk)
  obtain ⟨hok, hsaved⟩ := hI.ok.writeStatus hj { status with entries } (fun _ => rfl) rfl
    fun hr => ⟨fun r hr' hseg x c hrc => (hr.below r hr' hseg x c hrc).imp_right
      fun h _ => (he x c).2 (h (hin x)),
      fun x c hx _ => (he x c).2 (hr.old x c hx (hin x)), fun x c hx =>
        hr.committed x c ((he x c).1 hx)⟩
  set s1 : Server := { s with txStatus := fun g =>
      if g = status.generation then some { status with entries } else s.txStatus g } with hs1
  have hst : s1.status = s.status := congrArg (Option.getD · _) hsaved
  refine ⟨hI.acked, ?_, hI.barrier, ?_⟩
  · show s.engine.CommitInv s1.status.entries
    rw [hst]
    exact hI.commit
  · rw [lookup_setJob]
    show s1.files.Ok (facts s.engine s1.status.entries) _
    rw [hst]
    exact hok

theorem ServerInv.writeControl (hj : s.jobs.lookup job = some (.statusWritten d n)) :
    ServerInv acked ({ s with control := some ⟨s.nextGeneration, d, n⟩ }.setJob job
      (.controlWritten ⟨s.nextGeneration, d, n⟩)) := by
  set s1 : Server := { s with control := some ⟨s.nextGeneration, d, n⟩ } with hs1
  obtain ⟨st, hsaved, hw, hok⟩ := hI.ok.writeControl hj (facts s.engine s1.status.entries)
      fun _ => id
  have hst : s1.status = st := congrArg (Option.getD · _) hsaved
  refine ⟨hI.acked, ?_, hI.barrier, ?_⟩
  · show s.engine.CommitInv s1.status.entries
    rw [hst]
    exact hI.commit.checkpointed (fun x c hx => hw.old x c hx trivial) hw.committed
  · rw [lookup_setJob]
    refine hok ⟨hw.below, ?_, hw.committed⟩
    rw [hst]
    exact fun x c hx _ => hx

theorem ServerInv.prune {k : ControlFile} (hj : s.jobs.lookup job = some (.controlWritten k)) :
    ServerInv acked
      { s.setWal (s.engine.heap.wal.pruneSegmentsBelowCheckpointLsn k.checkpointLsn) with
      checkpoint := some k
      holder := none
      jobs := s.jobs.erase job } := by
  obtain ⟨-, -, -, st, hsaved, hw⟩ := hI.ok.jobs job _ hj
  have hst : s.status = st := congrArg (Option.getD · _) hsaved
  refine ⟨hI.acked, hI.commit.prune ?_ ?_ rfl rfl, hI.barrier, ?_⟩
  · exact fun r hr => (mem_filter.1 hr).1
  · intro r hr hgone x c hrc
    rw [hst]
    refine (hw.below r hr ?_ x c hrc).2 trivial
    by_contra hseg
    exact hgone (mem_filter.2 ⟨hr, by simp [hseg]⟩)
  · have hjobs : (fun j => (s.jobs.erase job).lookup j) = Function.update (fun j => s.jobs.lookup j)
        job none := by
      funext j
      by_cases hne : j = job
      · rw [hne, AList.lookup_erase, Function.update_self]
      · rw [AList.lookup_erase_ne hne, Function.update_of_ne hne]
    show CheckpointFiles.Ok _ _ fun j => (s.jobs.erase job).lookup j
    rw [hjobs]
    exact hI.ok.finish hj fun _ => id

theorem ServerInv.writePages {store : Store} {qs : List Nat}
    (hF : Store.Flushed s.engine.heap.store qs store) :
    ServerInv acked
      { s with engine := { s.engine with heap := { s.engine.heap with store } } } := by
  have hC := hI.commit
  have hS : s.engine.CommitStep { s.engine with heap := { s.engine.heap with store } } [] :=
    .of_quiet ((Engine.TxLe.refl _).setHeap _) (.refl _) (by simp) rfl rfl (fun _ _ _ => Iff.rfl)
      fun _ _ h => h
  exact hI.commitStep hS (hC.tx.setHeap _) { hC.csn with }
    (hC.live.flushed hF) fun b hb => .inl hb

theorem ServerInv.checkpointStep (hok : s.CaptureOk (.checkpoint job))
    (hs : s.checkpointStep job = .ok s') : ServerInv acked s' := by
  unfold Server.checkpointStep at hs
  split at hs
  · cases hs
    exact hI.setJob (q := .waiting _) (le_refl s.engine.heap.wal.reservedLsn)
  · next target hj =>
    simp only [bind_eq_ok, pure_eq_ok, Prod.exists] at hs
    obtain ⟨d, wal, hf, rfl⟩ := hs
    have ht : target ≤ s.engine.heap.wal.reservedLsn := hI.ok.jobs job _ hj
    obtain ⟨-, hres, -, hd⟩ := Logged.of_flushUntil hf
    refine (hI.setWal hf (.inl ht) fun b hb => .inl hb).setJob ?_
    show d ≤ wal.reservedLsn
    rw [hres, hd]
    exact Nat.max_le.2 ⟨hI.commit.durable, ht⟩
  · next d hj =>
    cases hs
    obtain ⟨qs, hF, -⟩ :=
      Store.flushDirtyBatches_flushed hI.commit.live.frameIds d defaultCheckpointBatchPages
    generalize s.engine.heap.store.flushDirtyBatches d defaultCheckpointBatchPages = store at hF
    exact (hI.writePages hF).setJob (hI.ok.jobs job _ hj)
  · next d n hj =>
    split at hs
    · cases hs
    · next hh =>
      cases hs
      exact hI.startReading hj hok hh rfl rfl
  · next d n status k hj =>
    split at hs
    · cases hs
      exact hI.readShard hj
    · next hk =>
      cases hs
      exact hI.writeStatus hj hk fun x c => mem_insertionSort _
  · next d n hj =>
    cases hs
    exact hI.writeControl hj
  · next k hj =>
    cases hs
    exact hI.prune hj

theorem ServerInv.flushCommit (hs : s.flushCommit tx = .ok s') : ServerInv acked s' := by
  unfold Server.flushCommit at hs
  split at hs
  · next t ht =>
    split at hs
    · next c l hp =>
      simp only [bind_eq_ok, pure_eq_ok, Prod.exists] at hs
      obtain ⟨d, wal, hf, rfl⟩ := hs
      refine hI.setWal hf (.inr ⟨tx, c, t, ht, hp⟩) ?_
      intro b hb
      rcases mem_cons.1 hb with rfl | hb
      · right
        rw [durableLsn_flushUntil hf]
        exact le_max_right _ _
      · exact .inl hb
    · cases hs
  · cases hs

end

theorem publishCommit_ok (hs : s.publishCommit tx = .ok s') :
    ∃ t c l, s.engine.txns.lookup tx = some t ∧ t.phase = .committing c l ∧ (tx, l) ∈ s.barrier ∧
      s' = { s with
        engine := { s.engine with txs := s.engine.txs.publishCommit tx c }.closeTxn tx t } := by
  unfold Server.publishCommit at hs
  split at hs
  · next t ht =>
    split at hs
    · next c l hp =>
      split at hs
      · next hb =>
        cases hs
        exact ⟨t, c, l, ht, hp, hb, rfl⟩
      · cases hs
    · cases hs
  · cases hs

theorem ServerInv.publishCommit (hI : ServerInv acked s) (hs : s.publishCommit tx = .ok s') :
    ServerInv acked s' := by
  obtain ⟨t, c, l, ht, hp, hb, rfl⟩ := publishCommit_ok hs
  have hC := hI.commit
  have hl : l ≤ s.engine.heap.wal.durableLsn := hI.barrier _ hb
  exact hI.commitStep (Engine.publish_commitStep hC.tx ht hp (.refl _) (max_eq_left hl).symm)
    ((Engine.publish_moved hC.tx ht hp s.engine.heap).txInv hC.tx)
    (Engine.publish_csn hC.tx hC.csn ht hp s.engine.heap).inv
    hC.live fun b hb => .inl hb

theorem ServerInv.step (hI : ServerInv acked s) (hok : s.CaptureOk a) (hs : s.step a = .ok s') :
    ServerInv acked s' := by
  cases a with
  | call op =>
    simp only [Server.step, bind_eq_ok, pure_eq_ok] at hs
    obtain ⟨e', hs, rfl⟩ := hs
    have hC := hI.commit
    obtain ⟨rs, hS⟩ := Engine.step_commitStep hC.tx hC.live.wf hs
    exact hI.commitStep hS (Engine.step_tx hC.tx hs).1 (Engine.step_csn hC.tx hC.csn hs).inv
      (Engine.step_liveHeap hC.live hs) fun b hb => .inl hb
  | flushCommit tx => exact hI.flushCommit hs
  | publishCommit tx => exact hI.publishCommit hs
  | writeLog lsn =>
    simp only [Server.step, Server.writeLog, bind_eq_ok, require_eq_ok, pure_eq_ok,
      Prod.exists] at hs
    obtain ⟨-, hle, d, wal, hf, rfl⟩ := hs
    exact hI.setWal hf (.inl hle) fun b hb => .inl hb
  | checkpoint job => exact hI.checkpointStep hok hs

theorem serverInv_create (cfg : Config) : ServerInv (fun _ => False) (create cfg) := by
  have hno := Engine.not_hasCsn_create cfg.relId cfg.heapLanes cfg.pageSize cfg.segmentBytes
      cfg.walBufferBytes
  have hrec : ∀ r, r ∉ (create cfg).engine.heap.wal.records := fun r hr => by cases hr
  refine ⟨nofun, ⟨Engine.txInv_create _ _ _ _ _, Engine.csnInv_create _ _ _ _ _,
    Engine.liveHeap_create _ _ _ _ _, ?_,
    le_rfl, ?_, ?_, ?_, ?_, ?_, ?_, ?_⟩, by simp [create], nofun, fun _ => rfl, nofun⟩
  · exact fun r hr => absurd hr (hrec r)
  · exact fun x c l h => absurd (.inr h.committing) (hno x c)
  · exact fun r hr => absurd hr (hrec r)
  · intro c h1 hlt
    exact absurd (h1.trans_lt hlt) (lt_irrefl 1)
  · exact fun x c h => absurd h (hno x c)
  · intro x c h; cases h
  · exact fun x c l h => absurd (.inr h.committing) (hno x c)
  · exact fun x c h => absurd (.inl h) (hno x c)

def Acked (ops : List ServerAction) (x : Nat) : Prop :=
  .publishCommit x ∈ ops ∨ .call (.finishCommit x) ∈ ops

theorem ServerInv.acked_step (hI : ServerInv acked s) (hs : s.step a = .ok s')
    (ha : a = .publishCommit x ∨ a = .call (.finishCommit x)) :
    ∃ c, s'.engine.txs.state x = .committed c := by
  rcases ha with rfl | rfl
  · obtain ⟨t, c, l, ht, hp, -, rfl⟩ := publishCommit_ok hs
    exact ⟨c, ((Engine.publish_moved hI.commit.tx ht hp s.engine.heap).state x).trans (if_pos rfl)⟩
  · simp only [Server.step, bind_eq_ok, pure_eq_ok] at hs
    obtain ⟨e', hs, rfl⟩ := hs
    obtain ⟨t, c, l, d, wal, ht, hp, -, rfl⟩ := Engine.finishCommit_ok hs
    exact ⟨c, ((Engine.publish_moved hI.commit.tx ht hp _).state x).trans (if_pos rfl)⟩

theorem ServerInv.of_run {cfg : Config} {ops : List ServerAction}
    (hr : Run Server.step CaptureOk (create cfg) ops s) :
    ServerInv (Acked ops) s := by
  refine hr.invariant (I := fun ops s => ServerInv (Acked ops) s) ?_ ?_
  · exact { serverInv_create cfg with acked := fun x hx => by simp [Acked] at hx }
  · intro ops s a s' hI hok hs
    refine { hI.step hok hs with acked := fun x hx => ?_ }
    unfold Acked at hx
    simp only [mem_append, mem_singleton] at hx
    rcases hx with (h | h) | (h | h)
    · exact (hI.step hok hs).acked x (.inl h)
    · exact hI.acked_step hs (.inl h.symm)
    · exact (hI.step hok hs).acked x (.inr h)
    · exact hI.acked_step hs (.inr h.symm)

theorem ServerInv.baseStatus (hI : ServerInv acked s) (file : Nat → Option Page) (pageCount : Nat)
    (records : List WalRecord) :
    ∃ lsn, (s.diskAfterCrash file pageCount records).baseStatus = .ok (.restore s.status, lsn) := by
  unfold Disk.baseStatus diskAfterCrash Server.status
  cases hc : s.control with
  | none => exact ⟨0, rfl⟩
  | some k =>
    obtain ⟨st, h1, h2⟩ := hI.ok.file k hc
    have h1' : s.txStatus k.generation = some st := h1
    exact ⟨k.checkpointLsn, by simp [h1', h2]⟩

theorem openWithRecovery_txs {d : Disk} {cfg : Config} {db : Database} {txs : ConcurrentTxStatus}
    {lsn : Nat}
    (hb : d.baseStatus = .ok (txs, lsn)) (ho : d.openWithRecovery cfg = .ok db) :
    db.engine.txs = recoverCommits d.records txs := by
  simp only [Disk.openWithRecovery, hb, bind_eq_ok, pure_eq_ok] at ho
  obtain ⟨_, he, _, -, _, -, rfl⟩ := ho
  cases he
  rfl

/-- In every run in which each checkpoint reads the transaction table only once all commits in the
segments it will prune are published: whatever is left of the log behind its durable end, and of the
page file, a reopening finds a transaction table in which every commit that returned is visible to a
new snapshot. -/
theorem acked_visible_after_crash {cfg : Config} {ops : List ServerAction}
    (hr : Run Server.step CaptureOk (create cfg) ops s) {records : List WalRecord}
    (hpre : records <+: s.engine.heap.wal.records)
    (hdur : ∀ r ∈ s.engine.heap.wal.records, r.endLsn ≤ s.engine.heap.wal.durableLsn → r ∈ records)
    (file : Nat → Option Page) (pageCount : Nat) {x : Nat} (hx : Acked ops x) :
    ∃ txs lsn, (s.diskAfterCrash file pageCount records).baseStatus = .ok (txs, lsn) ∧
      (recoverCommits records txs).isTxVisible x (recoverCommits records txs).snapshot none = true ∧
      ∀ db, (s.diskAfterCrash file pageCount records).openWithRecovery cfg = .ok db →
        db.engine.txs = recoverCommits records txs := by
  have hI := ServerInv.of_run hr
  obtain ⟨c, hc⟩ := hI.acked x hx
  obtain ⟨lsn, hb⟩ := hI.baseStatus file pageCount records
  exact ⟨_, lsn, hb, hI.commit.visible_recovered (fun r hr => hpre.subset hr) hdur hc,
    fun db ho => openWithRecovery_txs hb ho⟩

def smallSegments : Config := ⟨1, 1, .small, 128, 4096⟩

def tracePublished : List ServerAction :=
  [.call (.begin .snapshot), .call (.appendCommit 1), .flushCommit 1, .publishCommit 1,
   .call (.begin .snapshot), .call (.appendCommit 2)] ++ List.replicate 10 (.checkpoint 0) ++
  [.flushCommit 2, .publishCommit 2] ++ List.replicate 61 (.checkpoint 0)

def hasCheckpoint (s : Server) : Bool := s.checkpoint.isSome

theorem acked_visible_after_crash_tracePublished :
    ∃ s, Run Server.step CaptureOk (create smallSegments) tracePublished s ∧
      s.hasCheckpoint = true ∧
      ∀ x ∈ [1, 2], ∃ txs lsn,
        (s.diskAfterCrash s.engine.heap.store.file s.engine.heap.store.pageCount
          s.engine.heap.wal.records).baseStatus =
          .ok (txs, lsn) ∧ (recoverCommits s.engine.heap.wal.records txs).isTxVisible x
          (recoverCommits s.engine.heap.wal.records txs).snapshot none = true := by
  obtain ⟨s, hrun, hq⟩ : ∃ s, Run Server.step CaptureOk (create smallSegments) tracePublished s ∧
      s.hasCheckpoint = true := by decide +kernel
  refine ⟨s, hrun, hq, ?_⟩
  intro x hx
  have hack : Acked tracePublished x := by
    rcases mem_cons.1 hx with rfl | hx
    · exact .inl (by decide)
    · rcases mem_singleton.1 hx with rfl
      exact .inl (by decide)
  obtain ⟨txs, lsn, hb, hv, -⟩ := acked_visible_after_crash hrun (prefix_refl _) (fun r hr _ => hr)
    s.engine.heap.store.file s.engine.heap.store.pageCount hack
  exact ⟨txs, lsn, hb, hv⟩

def tracePruned : List ServerAction :=
  [.call (.begin .snapshot), .call (.appendCommit 1), .call (.begin .snapshot),
    .call (.appendCommit 2)] ++
  List.replicate 69 (.checkpoint 0) ++ [.flushCommit 1, .publishCommit 1] ++
    List.replicate 2 (.checkpoint 0)

def losesCommit (s : Server) : Bool :=
  match (s.diskAfterCrash s.engine.heap.store.file s.engine.heap.store.pageCount
      s.engine.heap.wal.records).openWithRecovery smallSegments with
  | .ok db => !db.engine.txs.isTxVisible 1 db.engine.txs.snapshot none
  | .error _ => false

theorem acked_lost_after_crash :
    ∃ s db, Run Server.step (fun _ _ => True) (create smallSegments) tracePruned s ∧
      Acked tracePruned 1 ∧
      (s.diskAfterCrash s.engine.heap.store.file s.engine.heap.store.pageCount
        s.engine.heap.wal.records).openWithRecovery smallSegments = .ok db ∧
      db.engine.txs.isTxVisible 1 db.engine.txs.snapshot none = false := by
  obtain ⟨s, hrun, hq⟩ :
      ∃ s, Run Server.step (fun _ _ => True) (create smallSegments) tracePruned s ∧
      losesCommit s = true := by decide +kernel
  unfold losesCommit at hq
  split at hq
  · next db hopen => exact ⟨s, db, hrun, .inl (by decide), hopen, by simpa using hq⟩
  · cases hq

end Server
end RedlineDb
