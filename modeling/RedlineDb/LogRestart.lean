import RedlineDb.CommitCheckpoint

/-!
# Commits, checkpoints and restarts over one log

The log and the transaction table through any number of runs of the engine: transactions begin, log
records, append their commit record (which draws the CSN in the same critical section), publish or
cancel; checkpoints save the table and prune the log; a crash cuts the log at a record boundary and
the next run rebuilds the table from the last checkpoint and the commit records. The heap and the
indexes are here only by the transaction ids they leave on pages.
-/

namespace RedlineDb
open Lib Function ConcurrentTxStatus List

inductive CommitPhase
  | idle
  | active
  | committing (csn : Nat)
  | closed
deriving DecidableEq

/-- `pages` are the transaction ids that occur in the page file, `pageCount` its length; the other
fields are those of `Server`. -/
structure LogServer where
  wal : WalCoordinator
  txs : ConcurrentTxStatus
  phases : Nat → CommitPhase
  pages : List Nat
  pageCount : Nat
  checkpoint : Option ControlFile
  holder : Option Nat
  jobs : Nat → Option CheckpointPhase
  control : Option ControlFile
  txStatus : Nat → Option TxStatusCheckpoint

inductive LogServerAction
  | begin
  | log (tx : Nat) (kind : WalRecordKind) (payload : WalPayload)
  | writePage (tx page : Nat)
  | appendCommit (tx : Nat)
  | publish (tx csn : Nat)
  | cancel (tx csn : Nat)
  | rollback (tx : Nat)
  | writeLog (lsn : Nat)
  | failLog
  | checkpoint (job : Nat)
  | restart (keep : Nat)
deriving DecidableEq

def WalPayload.txId? : WalPayload → Option Nat
  | .heapInsert tx _ _ _ | .heapUpdate tx _ _ _ | .heapDelete tx _ _ | .indexInsert tx _ _ _
  | .indexDelete tx _ _ _ =>
    some tx
  | .commit tx _ => some tx
  | .pageImage .. => none

def commitRecordLen : Nat := walHeaderLen + 17

namespace LogServer

def create (segmentBytes walBufferBytes : Nat) : LogServer where
  wal := .create segmentBytes walBufferBytes
  txs := .new
  phases := fun _ => .idle
  pages := []
  pageCount := 0
  checkpoint := none
  holder := none
  jobs := fun _ => none
  control := none
  txStatus := fun _ => none

variable (s : LogServer)

def setPhase (tx : Nat) (p : CommitPhase) : LogServer := { s with phases := update s.phases tx p }

def setJob (job : Nat) (p : Option CheckpointPhase) : LogServer :=
  { s with jobs := update s.jobs job p }

def nextGeneration : Nat := (s.checkpoint.map (·.generation + 1)).getD 1

def endAborted (tx : Nat) : LogServer := { s with txs := s.txs.abort tx }.setPhase tx .closed

/-- `append_commit`: `wait_for_wal_buffer` finds out before the CSN is drawn that the record does
not fit a segment or the buffer, or that the log has failed, and `commit` aborts the transaction. -/
def appendCommit (tx : Nat) : LogServer :=
  if s.wal.segmentBytes < commitRecordLen ∨ s.wal.walBufferBytes < commitRecordLen ∨
      s.wal.failure then s.endAborted tx
  else
    match s.wal.appendCommit tx s.txs.nextCsn with
    | .error _ => { s with txs := s.txs.reserveCommitCsn.2 }.endAborted tx
    | .ok (_, wal) => { s with wal, txs := s.txs.reserveCommitCsn.2 }.setPhase tx
        (.committing s.txs.nextCsn)

def checkpointStep (job : Nat) : Except Error LogServer :=
  match s.jobs job with
  | none => .ok (s.setJob job (some (.waiting s.wal.reservedLsn)))
  | some (.waiting target) => do
    let (durableLsn, wal) ← s.wal.flushUntil target
    return { s with wal }.setJob job (some (.flushing durableLsn))
  | some (.flushing durableLsn) => .ok (s.setJob job (some (.flushed durableLsn s.pageCount)))
  | some (.flushed durableLsn pageCount) =>
    match s.holder with
    | some _ => .error .lockTimeout
    | none =>
      .ok ({ s with holder := some job }.setJob job (some (.reading durableLsn pageCount
        { generation := s.nextGeneration
          nextTx := s.txs.nextTx
          nextCsn := s.txs.nextCsn
          publishedCsn := s.txs.publishedCsn
          entries := [] } 0)))
  | some (.reading durableLsn pageCount status shard) =>
    if shard < txStatusShards then
      .ok (s.setJob job (some (.reading durableLsn pageCount
        { status with entries := status.entries ++ s.txs.shardStates shard } (shard + 1))))
    else
      let status := { status with entries := status.entries.insertionSort (fun a b => a.1 ≤ b.1) }
      .ok ({ s with txStatus := update s.txStatus status.generation (some status) }.setJob job
        (some (.statusWritten durableLsn pageCount)))
  | some (.statusWritten durableLsn pageCount) =>
    let next : ControlFile :=
      { generation := s.nextGeneration, checkpointLsn := durableLsn, pageCount }
    .ok ({ s with control := some next }.setJob job (some (.controlWritten next)))
  | some (.controlWritten next) =>
    .ok ({ s with
      wal := s.wal.pruneSegmentsBelowCheckpointLsn next.checkpointLsn
      checkpoint := some next
      holder := none }.setJob job none)

def disk (records : List WalRecord) : Disk where
  file := fun _ => none
  pageCount := s.pageCount
  records
  control := s.control
  txStatus := s.txStatus

def recovered (records : List WalRecord) : Except Error ConcurrentTxStatus := do
  let (txs, _) ← (s.disk records).baseStatus
  return recoverCommits records txs

/-- A crash that leaves the first `keep` records, at least the durable ones, and the opening after
it. -/
def restart (keep : Nat) : Except Error LogServer := do
  require (∀ r ∈ s.wal.records.drop keep, s.wal.durableLsn < r.endLsn) .io
  let txs ← s.recovered (s.wal.records.take keep)
  return { s with
    wal := .openScan s.wal.segmentBytes s.wal.walBufferBytes (s.wal.records.take keep)
    txs
    phases := fun _ => .idle
    checkpoint := s.control
    holder := none
    jobs := fun _ => none }

/-- In the modes that do not wait for the disk a commit is published at once, so the steps have no
barrier; a commit is cancelled when the barrier fails, and only a failed log makes it fail. -/
def step : LogServerAction → Except Error LogServer
  | .begin => .ok ({ s with txs := s.txs.begin.2 }.setPhase s.txs.nextTx .active)
  | .log tx kind payload => do
    require (s.phases tx = .active ∧ kind ≠ .commit ∧ payload.txId?.getD tx = tx) .transactionClosed
    let (_, wal) ← s.wal.append kind tx payload
    return { s with wal }
  | .writePage tx page => do
    require (s.phases tx ≠ .idle) .transactionClosed
    return { s with pages := tx :: s.pages, pageCount := max s.pageCount page }
  | .appendCommit tx => do
    require (s.phases tx = .active) .transactionClosed
    return s.appendCommit tx
  | .publish tx csn => do
    require (s.phases tx = .committing csn) .transactionClosed
    return { s with txs := s.txs.publishCommit tx csn }.setPhase tx .closed
  | .cancel tx csn => do
    require (s.phases tx = .committing csn ∧ s.wal.failure) .transactionClosed
    return { s with txs := s.txs.cancelReservedCsn csn }.endAborted tx
  | .rollback tx => do
    require (s.phases tx = .active) .transactionClosed
    return s.endAborted tx
  | .writeLog lsn => do
    require (lsn ≤ s.wal.reservedLsn) (.corruptWal "nothing reserved there")
    let (_, wal) ← s.wal.flushUntil lsn
    return { s with wal }
  | .failLog => .ok { s with wal := { s.wal with failure := true } }
  | .checkpoint job => s.checkpointStep job
  | .restart keep => s.restart keep

def readingTable : Bool :=
  match s.holder.bind s.jobs with
  | some (.reading ..) => true
  | _ => false

/-- When a checkpoint reads the counters no CSN is pending and the log has not failed; while it
reads the table nobody appends a commit record, publishes or cancels. -/
def QuietCheckpoint : LogServerAction → Prop
  | .appendCommit _ | .publish _ _ | .cancel _ _ => s.readingTable = false
  | .checkpoint job =>
    match s.jobs job with
    | some (.flushed _ _) => s.txs.pending = [] ∧ s.wal.failure = false
    | _ => True
  | _ => True

def savedStatus : TxStatusCheckpoint :=
  (s.control.bind fun c => s.txStatus c.generation).getD ⟨0, 1, 1, 0, []⟩

variable {s} {s' : LogServer} {tx x y k c job lsn : Nat}

/-- `r` lies before `r'` in the log, and their CSNs are in the same order. -/
def Before (r r' : WalRecord) : Prop :=
  r.endLsn ≤ r'.lsn ∧ ∀ x k x' k', r.commit? = some (x, k) → r'.commit? = some (x', k') → k < k'

structure WalInv (wal : WalCoordinator) (nextCsn : Nat) : Prop where
  order : wal.records.Pairwise Before
  bound : ∀ r ∈ wal.records, r.endLsn ≤ wal.reservedLsn
  csns : ∀ r ∈ wal.records, ∀ x k, r.commit? = some (x, k) → 1 ≤ k ∧ k < nextCsn
  durable : wal.durableLsn ≤ wal.reservedLsn

theorem WalRecord.lsn_lt_endLsn (r : WalRecord) : r.lsn < r.endLsn := by
  rw [RedlineDb.WalRecord.endLsn, RedlineDb.WalRecord.encodedLen, walHeaderLen]
  omega

variable {r : WalRecord} {t txs : ConcurrentTxStatus} {wal wal' : WalCoordinator}
  {st status : TxStatusCheckpoint} {d n shard : Nat}

theorem WalInv.csn_lt (h : WalInv wal n) {r' : WalRecord} (hr : r ∈ wal.records)
    (hr' : r' ∈ wal.records)
    (hlt : r.lsn < r'.lsn) {k' x' : Nat} (hc : r.commit? = some (x, k))
    (hc' : r'.commit? = some (x', k')) : k < k' := by
  obtain ⟨i, hi, rfl⟩ := getElem_of_mem hr
  obtain ⟨j, hj, rfl⟩ := getElem_of_mem hr'
  rcases lt_trichotomy i j with hij | rfl | hij
  · exact (pairwise_iff_getElem.1 h.order i j hi hj hij).2 x k x' k' hc hc'
  · exact absurd hlt (lt_irrefl _)
  · have hb := (pairwise_iff_getElem.1 h.order j i hj hi hij).1
    have := WalRecord.lsn_lt_endLsn (wal.records[j])
    omega

theorem WalInv.append {n' : Nat} (h : WalInv wal n) (hlog : Logged wal [r] wal')
    (hd : wal'.durableLsn = wal.durableLsn)
    (hle : n ≤ n') (hr : ∀ x k, r.commit? = some (x, k) → k = n ∧ 1 ≤ k ∧ k < n') :
    WalInv wal' n' := by
  obtain ⟨hlsn, hend⟩ := hlog.lsn r (mem_singleton_self r)
  have hmem : ∀ r', r' ∈ wal'.records ↔ r' ∈ wal.records ∨ r' = r := by
    intro r'
    rw [hlog.records, mem_append, mem_singleton]
  refine ⟨?_, ?_, ?_, ?_⟩
  · rw [hlog.records]
    refine pairwise_append.2 ⟨h.order, pairwise_singleton .., ?_⟩
    intro r₁ h₁ r₂ h₂
    rw [mem_singleton.1 h₂]
    refine ⟨(h.bound r₁ h₁).trans hlsn, fun x k x' k' hc hc' => ?_⟩
    rw [(hr x' k' hc').1]
    exact (h.csns r₁ h₁ x k hc).2
  · intro r' hr'
    rcases (hmem r').1 hr' with h' | rfl
    · exact (h.bound r' h').trans hlog.reserved
    · exact hend
  · intro r' hr' x k hc
    rcases (hmem r').1 hr' with h' | rfl
    · obtain ⟨h1, h2⟩ := h.csns r' h' x k hc
      exact ⟨h1, h2.trans_le hle⟩
    · exact (hr x k hc).2
  · rw [hd]
    exact h.durable.trans hlog.reserved

structure Frontier (t : ConcurrentTxStatus) : Prop where
  below : t.Below (t.nextCsn - 1)
  completed : t.Completed fun k => 1 ≤ k ∧ k < t.nextCsn ∧ k ∉ t.pending
  gap : t.AtGap
  pos : 0 < t.nextCsn

theorem Frontier.published_eq (h : Frontier t) (hp : t.pending = []) :
    t.publishedCsn + 1 = t.nextCsn := by
  have hle : t.nextCsn - 1 ≤ t.publishedCsn := by
    refine h.completed.le_publishedCsn h.gap fun k h1 h2 => ⟨h1, ?_, by rw [hp]; exact not_mem_nil⟩
    have := h.pos
    omega
  have := h.below.published
  have := h.pos
  omega

structure TxOk (t : ConcurrentTxStatus) (records : List WalRecord) (p : CommitPhase) (x : Nat) :
    Prop where
  committed : ∀ k, t.state x = .committed k → 1 ≤ k ∧ k < t.nextCsn
  fresh : t.nextTx ≤ x → p = .idle ∧ ∀ k, t.state x ≠ .committed k
  active : p = .active → t.state x = .inProgress
  committing : ∀ k, p = .committing k → t.state x = .inProgress ∧ 1 ≤ k ∧ k < t.nextCsn
  logged : ∀ r ∈ records, ∀ k, r.commit? = some (x, k) →
    t.state x = .committed k ∨ p = .committing k ∨ t.state x = .aborted ∧ p = .closed

structure TableInv (txs : ConcurrentTxStatus) (wal : WalCoordinator) (phases : Nat → CommitPhase) :
    Prop where
  pos : 0 < txs.nextCsn
  tx : ∀ x, TxOk txs wal.records (phases x) x
  agree : ∀ r ∈ wal.records, ∀ r' ∈ wal.records, ∀ x k k', r.commit? = some (x, k) →
    r'.commit? = some (x, k') → k = k'
  covered : wal.failure = false → ∀ k, 1 ≤ k → k < txs.nextCsn → (∃ x, txs.state x = .committed k) ∨
    k ∈ txs.pending
  frontier : wal.failure = false → Frontier txs

/-! ### The files of checkpoints -/

structure StatusOk (txs : ConcurrentTxStatus) (wal : WalCoordinator) (st : TxStatusCheckpoint)
    (lsn : Nat) : Prop where
  next : st.nextCsn = st.publishedCsn + 1
  exact : ∀ k, (∃ x, (x, k) ∈ st.entries) ↔ 1 ≤ k ∧ k ≤ st.publishedCsn
  state : ∀ x k, (x, k) ∈ st.entries → txs.state x = .committed k
  tail : ∀ k, st.publishedCsn < k → k < txs.nextCsn → ∃ r ∈ wal.records,
    (∃ x, r.commit? = some (x, k)) ∧ lsn ≤ r.lsn

def files (s : LogServer) : CheckpointFiles := ⟨s.checkpoint, s.holder, s.control, s.txStatus⟩

def facts (txs : ConcurrentTxStatus) (wal : WalCoordinator) : CheckpointFiles.Facts where
  lsn d := d ≤ wal.reservedLsn
  read _ status shard := status.nextCsn = status.publishedCsn + 1 ∧ status.nextCsn = txs.nextCsn ∧
    (∀ k, 1 ≤ k → k < txs.nextCsn → ∃ x, txs.state x = .committed k) ∧
    ∀ x k, (x, k) ∈ status.entries ↔ txs.state x = .committed k ∧ x % txStatusShards < shard
  written lsn st := StatusOk txs wal st lsn

structure FilesInv (s : LogServer) : Prop where
  saved : StatusOk s.txs s.wal s.savedStatus 0
  ok : s.files.Ok (facts s.txs s.wal) s.jobs

structure Later (s s' : LogServer) : Prop where
  files : s'.files = s.files
  jobs : s'.jobs = s.jobs
  committed : ∀ x k, s.txs.state x = .committed k → s'.txs.state x = .committed k
  newCsns : ∀ k, s.txs.nextCsn ≤ k → k < s'.txs.nextCsn →
    ∃ r ∈ s'.wal.records, (∃ x, r.commit? = some (x, k)) ∧ s.wal.reservedLsn ≤ r.lsn
  records : ∀ r ∈ s.wal.records, r ∈ s'.wal.records
  reserved : s.wal.reservedLsn ≤ s'.wal.reservedLsn
  quiet : s.readingTable = true → s'.txs.nextCsn = s.txs.nextCsn ∧
    ∀ x k, s'.txs.state x = .committed k → s.txs.state x = .committed k

theorem StatusOk.later (h : StatusOk s.txs s.wal st lsn) (hl : Later s s')
    (hlsn : lsn ≤ s.wal.reservedLsn) :
    StatusOk s'.txs s'.wal st lsn := by
  refine ⟨h.next, h.exact, fun x k he => hl.committed x k (h.state x k he), ?_⟩
  intro k h1 h2
  rcases lt_or_ge k s.txs.nextCsn with hk | hk
  · obtain ⟨r, hr, hc, hle⟩ := h.tail k h1 hk
    exact ⟨r, hl.records r hr, hc, hle⟩
  · obtain ⟨r, hr, hc, hle⟩ := hl.newCsns k hk h2
    exact ⟨r, hr, hc, hlsn.trans hle⟩

theorem savedStatus_eq {o : Option TxStatusCheckpoint} (h : s.files.saved = o) :
    s.savedStatus = o.getD ⟨0, 1, 1, 0, []⟩ :=
  congrArg (Option.getD · _) h

theorem FilesInv.later (h : FilesInv s) (hl : Later s s') : FilesInv s' := by
  constructor
  · rw [savedStatus_eq (congrArg CheckpointFiles.saved hl.files)]
    exact h.saved.later hl (Nat.zero_le _)
  · rw [hl.files, hl.jobs]
    refine h.ok.mono (fun d hd => hd.trans hl.reserved) ?_ fun d st hd hst => hst.later hl hd
    rintro job d n status shard hholder hj - ⟨h1, h2, h3, h4⟩
    have hholder' : s.holder = some job := hholder
    have hreading : s.readingTable = true := by rw [readingTable, hholder', Option.bind_some, hj]
    obtain ⟨hcsn, hback⟩ := hl.quiet hreading
    have hiff : ∀ x k, s'.txs.state x = .committed k ↔ s.txs.state x = .committed k :=
      fun x k => ⟨hback x k, hl.committed x k⟩
    refine ⟨h1, h2.trans hcsn.symm, fun k hk1 hk2 => ?_, fun x k => by rw [hiff, h4]⟩
    obtain ⟨x, hx⟩ := h3 k hk1 (hcsn ▸ hk2)
    exact ⟨x, (hiff x k).2 hx⟩

structure Inv (s : LogServer) : Prop where
  wal : WalInv s.wal s.txs.nextCsn
  table : TableInv s.txs s.wal s.phases
  files : FilesInv s

/-! ### Steps of transactions -/

theorem phases_setPhase (s : LogServer) (tx x : Nat) (p : CommitPhase) :
    (s.setPhase tx p).phases x = if x = tx then p else s.phases x := update_apply _ _ _ _

theorem Later.of_table {phases : Nat → CommitPhase}
    (hc : ∀ x k, s.txs.state x = .committed k → txs.state x = .committed k)
    (hn : txs.nextCsn = s.txs.nextCsn)
    (hq : s.readingTable = true → ∀ x k, txs.state x = .committed k →
      s.txs.state x = .committed k) :
    Later s { s with txs, phases } where
  files := rfl
  jobs := rfl
  committed := hc
  newCsns k h1 h2 := absurd h2 (not_lt.2 (by show txs.nextCsn ≤ k; rw [hn]; exact h1))
  records _ h := h
  reserved := le_rfl
  quiet hr := ⟨hn, hq hr⟩

theorem Later.of_wal {pages : List Nat} {pageCount : Nat}
    (hrec : ∀ r ∈ s.wal.records, r ∈ wal.records)
    (hres : s.wal.reservedLsn ≤ wal.reservedLsn) : Later s { s with wal, pages, pageCount } :=
  ⟨rfl, rfl, fun _ _ h => h, fun _ h1 h2 => absurd h2 (not_lt.2 h1), hrec, hres,
    fun _ => ⟨rfl, fun _ _ h => h⟩⟩

theorem Frontier.setStates (h : Frontier t) {states activeSnapshots nextTx} :
    Frontier { t with states, activeSnapshots, nextTx } :=
  ⟨{ h.below with }, h.completed, h.gap, h.pos⟩

theorem TxOk.other {recs recs' : List WalRecord} {p : CommitPhase} (h : TxOk t recs p x)
    (hst : txs.state x = t.state x)
    (hcsn : t.nextCsn ≤ txs.nextCsn) (htx : t.nextTx ≤ txs.nextTx)
    (hrec : ∀ r ∈ recs', ∀ k, r.commit? = some (x, k) → r ∈ recs) : TxOk txs recs' p x := by
  constructor <;> rw [hst]
  case committed => exact fun k hk => ⟨(h.committed k hk).1, (h.committed k hk).2.trans_le hcsn⟩
  case fresh => exact fun hle => h.fresh (htx.trans hle)
  case active => exact h.active
  case committing =>
    intro k hk
    obtain ⟨h1, h2, h3⟩ := h.committing k hk
    exact ⟨h1, h2, h3.trans_le hcsn⟩
  case logged => exact fun r hr k hc => h.logged r (hrec r hr k hc) k hc

theorem TableInv.move {phases : Nat → CommitPhase} {p : CommitPhase} (h : TableInv t wal phases)
    (hother : ∀ x, x ≠ tx → txs.state x = t.state x) (hbefore : ∀ k, t.state tx ≠ .committed k)
    (hle : t.nextCsn ≤ txs.nextCsn) (hcsn : ∀ k, k < txs.nextCsn → k < t.nextCsn ∨ k ∈ txs.pending)
    (htx : t.nextTx ≤ txs.nextTx) (hfail : wal'.failure = wal.failure)
    (hrec : ∀ r ∈ wal'.records, ∀ x k, r.commit? = some (x, k) → x ≠ tx → r ∈ wal.records)
    (hagree : ∀ r ∈ wal'.records, ∀ r' ∈ wal'.records, ∀ x k k', r.commit? = some (x, k) →
      r'.commit? = some (x, k') → k = k')
    (hok : TxOk txs wal'.records p tx)
    (hcov : wal.failure = false → ∀ k ∈ t.pending, k ∈ txs.pending ∨
      ∃ x, txs.state x = .committed k)
    (hfront : wal.failure = false → Frontier txs) : TableInv txs wal' (update phases tx p) := by
  refine ⟨h.pos.trans_le hle, fun x => ?_, hagree, fun hf k h1 h2 => ?_,
    fun hf => hfront (hfail ▸ hf)⟩
  · rw [update_apply]
    split
    · next hx => exact hx ▸ hok
    · next hx => exact (h.tx x).other (hother x hx) hle htx fun r hr k hc => hrec r hr x k hc hx
  · rcases hcsn k h2 with hk | hk
    · rcases h.covered (hfail ▸ hf) k h1 hk with ⟨x, hx⟩ | hk
      · have hne : x ≠ tx := by
          rintro rfl
          exact hbefore k hx
        exact .inl ⟨x, (hother x hne).trans hx⟩
      · exact (hcov (hfail ▸ hf) k hk).symm
    · exact .inr hk

theorem TableInv.setWal {phases : Nat → CommitPhase} (h : TableInv txs wal phases)
    (hsub : ∀ r ∈ wal'.records, ∀ x k, r.commit? = some (x, k) → r ∈ wal.records)
    (hfail : wal'.failure = false → wal.failure = false) : TableInv txs wal' phases :=
  { h with
    tx := fun x => (h.tx x).other rfl le_rfl le_rfl fun r hr k hc => hsub r hr x k hc
    agree := fun r hr r' hr' x k k' hc hc' => h.agree r (hsub r hr x k hc) r'
      (hsub r' hr' x k' hc') x k k' hc hc'
    covered := fun hf => h.covered (hfail hf)
    frontier := fun hf => h.frontier (hfail hf) }

theorem TableInv.lt_nextTx {phases : Nat → CommitPhase} (h : TableInv txs wal phases)
    (hp : phases tx ≠ .idle) :
    tx < txs.nextTx := by
  by_contra hle
  exact hp ((h.tx tx).fresh (not_lt.1 hle)).1

section
variable (h : Inv s)
include h

theorem Inv.begin : Inv ({ s with txs := s.txs.begin.2 }.setPhase s.txs.nextTx .active) := by
  obtain ⟨hidle, hfresh⟩ := (h.table.tx s.txs.nextTx).fresh le_rfl
  have hself : (s.txs.begin.2).state s.txs.nextTx = .inProgress := by simp
  have hother : ∀ x, x ≠ s.txs.nextTx → (s.txs.begin.2).state x = s.txs.state x := fun x hx => by
    simp [hx]
  have hcom : ∀ x k, (s.txs.begin.2).state x = .committed k ↔ s.txs.state x = .committed k := by
    intro x k
    by_cases hx : x = s.txs.nextTx
    · rw [hx, hself]
      exact ⟨nofun, fun hk => absurd hk (hfresh k)⟩
    · rw [hother x hx]
  refine ⟨h.wal, ?_,
    h.files.later (.of_table (fun x k => (hcom x k).2) rfl fun _ x k => (hcom x k).1)⟩
  refine h.table.move hother hfresh le_rfl (fun _ => .inl) (Nat.le_succ _) rfl
    (fun r hr _ _ _ _ => hr)
    h.table.agree ?_ (fun _ k hk => .inl hk) fun hf => (h.table.frontier hf).setStates
  refine ⟨fun k hk => ?_, fun hle => absurd hle (Nat.not_succ_le_self _), fun _ => hself, nofun,
    fun r hr k hc => ?_⟩
  · cases hself.symm.trans hk
  · rcases (h.table.tx _).logged r hr k hc with h1 | h1 | ⟨-, h1⟩
    · exact absurd h1 (hfresh k)
    · cases hidle.symm.trans h1
    · cases hidle.symm.trans h1

/-- The end of a transaction that did not commit; `cancel` has taken care of its CSN before. -/
theorem Inv.endAborted (hlive : s.txs.state tx = .inProgress)
    (hp : s.phases tx ≠ .idle) (hst : ∀ x, txs.state x = s.txs.state x)
    (hcsn : txs.nextCsn = s.txs.nextCsn)
    (htx : txs.nextTx = s.txs.nextTx) (hok : s.wal.failure = false → txs = s.txs) :
    Inv ({ s with txs }.endAborted tx) := by
  have hstate : ∀ x, (txs.abort tx).state x = if x = tx then .aborted else s.txs.state x := by
    intro x
    rw [state_abort, hst]
  have hcom : ∀ x k, (txs.abort tx).state x = .committed k ↔ s.txs.state x = .committed k := by
    intro x k
    rw [hstate]
    split
    · next hx => rw [hx, hlive]; exact ⟨nofun, nofun⟩
    · rfl
  have hself : (txs.abort tx).state tx = .aborted := (hstate tx).trans (if_pos rfl)
  refine ⟨hcsn.symm ▸ h.wal, ?_,
    h.files.later (.of_table (fun x k => (hcom x k).2) hcsn fun _ x k => (hcom x k).1)⟩
  refine h.table.move (fun x hx => (hstate x).trans (if_neg hx)) ?_ hcsn.symm.le
    (fun k hk => .inl (hcsn ▸ hk))
    htx.symm.le rfl (fun r hr _ _ _ _ => hr) h.table.agree ?_ ?_ ?_
  · intro k hk
    cases hlive.symm.trans hk
  · refine ⟨fun k hk => ?_, fun hle => ?_, nofun, nofun, fun _ _ _ _ => .inr (.inr ⟨hself, rfl⟩)⟩
    · cases hself.symm.trans hk
    · exact absurd (htx ▸ h.table.lt_nextTx hp) (not_lt.2 hle)
  · intro hf k hk
    left
    show k ∈ txs.pending
    rw [hok hf]
    exact hk
  · intro hf
    have he := hok hf
    subst he
    exact (h.table.frontier hf).setStates

omit h in
theorem Frontier.publishCommit (h : Frontier t) (h1 : 1 ≤ k) (h2 : k < t.nextCsn) (tx : Nat) :
    Frontier (t.publishCommit tx k) := by
  have hn : (t.publishCommit tx k).nextCsn = t.nextCsn := nextCsn_completeCsn _ _
  have hpend : (t.publishCommit tx k).pending = t.pending.erase k := pending_completeCsn _ _
  refine ⟨?_, ?_, atGap_advanceLoop le_rfl, hn ▸ h.pos⟩
  · rw [hn]
    have hb : (t.setState tx (.committed k)).Below (t.nextCsn - 1) :=
      ⟨h.below.published, h.below.completed, h.below.skipped⟩
    have hc := hb.completeCsn (c := k) (by omega)
    exact ⟨hc.published, hc.completed, hc.skipped⟩
  · have hc : Completed
        { t.setState tx (.committed k) with
          pending := t.pending.erase k, completed := t.completed.insert k }
        fun j => 1 ≤ j ∧ j < t.nextCsn ∧ j ∉ t.pending.erase k := by
      intro j ⟨hj1, hj2, hj3⟩
      by_cases hj : j = k
      · exact .inr (mem_insert_iff.2 (.inl hj))
      · rcases h.completed j ⟨hj1, hj2, fun hm => hj3 ((mem_erase_of_ne hj).2 hm)⟩ with h' | h'
        · exact .inl h'
        · exact .inr (mem_insert_iff.2 (.inr h'))
    intro j hj
    rw [hn, hpend] at hj
    exact hc.advanceLoop _ j hj

theorem Inv.publish (hp : s.phases tx = .committing k) (hquiet : s.readingTable = false) :
    Inv ({ s with txs := s.txs.publishCommit tx k }.setPhase tx .closed) := by
  obtain ⟨hlive, h1, h2⟩ := (h.table.tx tx).committing k hp
  have hstate : ∀ x, (s.txs.publishCommit tx k).state x = if x = tx then .committed k
      else s.txs.state x := by simp
  have hself : (s.txs.publishCommit tx k).state tx = .committed k := (hstate tx).trans (if_pos rfl)
  have hn : (s.txs.publishCommit tx k).nextCsn = s.txs.nextCsn := nextCsn_completeCsn _ _
  have htx : (s.txs.publishCommit tx k).nextTx = s.txs.nextTx := nextTx_completeCsn _ _
  have hpend : (s.txs.publishCommit tx k).pending = s.txs.pending.erase k := pending_completeCsn _ _
  have hkeep : ∀ x j, s.txs.state x = .committed j → (s.txs.publishCommit tx k).state x =
      .committed j := by
    intro x j hj
    rw [hstate, if_neg]
    · exact hj
    · rintro rfl
      rw [hlive] at hj
      cases hj
  refine ⟨hn.symm ▸ h.wal, ?_,
    h.files.later (.of_table hkeep hn fun hr => by rw [hquiet] at hr; cases hr)⟩
  refine h.table.move (fun x hx => (hstate x).trans (if_neg hx)) ?_ hn.symm.le
    (fun j hj => .inl (hn ▸ hj))
    htx.symm.le rfl (fun r hr _ _ _ _ => hr) h.table.agree ?_ ?_
    fun hf => (h.table.frontier hf).publishCommit h1 h2 tx
  · intro j hj
    cases hlive.symm.trans hj
  · refine ⟨fun j hj => ?_, fun hle => ?_, nofun, nofun, fun r hr j hc => .inl ?_⟩
    · cases hself.symm.trans hj
      exact ⟨h1, hn.symm ▸ h2⟩
    · exact absurd (htx ▸ h.table.lt_nextTx (by rw [hp]; nofun)) (not_lt.2 hle)
    · rcases (h.table.tx tx).logged r hr j hc with h' | h' | ⟨-, h'⟩
      · exact hkeep tx j h'
      · cases hp.symm.trans h'
        exact hself
      · cases hp.symm.trans h'
  · intro hf j hj
    by_cases he : j = k
    · exact .inr ⟨tx, he ▸ hself⟩
    · left
      show j ∈ (s.txs.publishCommit tx k).pending
      rw [hpend]
      exact (mem_erase_of_ne he).2 hj

/-! ### Steps of the log -/

theorem Inv.log {kind : WalRecordKind} {payload : WalPayload} {a : WalAppend}
    (hkind : kind ≠ .commit) (ha : s.wal.append kind tx payload = .ok (a, wal)) :
    Inv { s with wal } := by
  have hlog := Logged.of_append ha
  obtain ⟨-, -, hw⟩ := WalCoordinator.append_ok ha
  have hnone : WalRecord.commit? ⟨a.startLsn, s.wal.prevLsn, tx, kind, payload⟩ = none :=
    WalRecord.commit?_eq_none hkind
  have hmem : ∀ r ∈ wal.records, ∀ x k, r.commit? = some (x, k) → r ∈ s.wal.records := by
    intro r hr x k hc
    rw [hlog.records, mem_append, mem_singleton] at hr
    refine hr.resolve_right ?_
    rintro rfl
    rw [hnone] at hc
    cases hc
  have hold : ∀ r ∈ s.wal.records, r ∈ wal.records :=
    fun r hr => hlog.records ▸ mem_append_left _ hr
  refine ⟨?_, h.table.setWal hmem (by rw [hw]; exact id),
    h.files.later (.of_wal hold hlog.reserved)⟩
  refine h.wal.append hlog (by rw [hw]) le_rfl fun x k hc => ?_
  rw [hnone] at hc
  cases hc

omit h in
theorem Frontier.reserve (h : Frontier t) : Frontier t.reserveCommitCsn.2 := by
  have hpos := h.pos
  refine ⟨⟨?_, ?_, h.below.skipped⟩, ?_, h.gap, Nat.succ_pos _⟩
  · have := h.below.published
    show t.publishedCsn ≤ t.nextCsn + 1 - 1
    omega
  · intro k hk
    have := h.below.completed k hk
    show k ≤ t.nextCsn + 1 - 1
    omega
  · intro k ⟨h1, h2, h3⟩
    have hne : k ≠ t.nextCsn := fun he => h3 (mem_insert_iff.2 (.inl he))
    have h2' : k < t.nextCsn + 1 := h2
    exact h.completed k ⟨h1, by omega, fun hm => h3 (mem_insert_iff.2 (.inr hm))⟩

theorem Inv.appendCommit {a : WalAppend} (hp : s.phases tx = .active)
    (hquiet : s.readingTable = false) (ha : s.wal.appendCommit tx s.txs.nextCsn = .ok (a, wal)) :
    Inv ({ s with wal, txs := s.txs.reserveCommitCsn.2 }.setPhase tx
      (.committing s.txs.nextCsn)) := by
  have hlog := Logged.of_append ha
  obtain ⟨-, -, hw⟩ := WalCoordinator.append_ok ha
  have hfail : wal.failure = s.wal.failure := by rw [hw]
  have hlive := (h.table.tx tx).active hp
  have hpos := h.table.pos
  have hcases : ∀ r ∈ wal.records, ∀ x k, r.commit? = some (x, k) →
      r ∈ s.wal.records ∧ x ≠ tx ∨ x = tx ∧ k = s.txs.nextCsn := by
    intro r hr x k hc
    rw [hlog.records, mem_append, mem_singleton] at hr
    rcases hr with hr | rfl
    · refine .inl ⟨hr, ?_⟩
      -- an active transaction has no commit record
      rintro rfl
      rcases (h.table.tx x).logged r hr k hc with h' | h' | ⟨h', -⟩
      · cases hlive.symm.trans h'
      · cases hp.symm.trans h'
      · cases hlive.symm.trans h'
    · cases hc
      exact .inr ⟨rfl, rfl⟩
  refine ⟨?_, ?_, h.files.later ?_⟩
  · refine h.wal.append hlog (by subst hw; rfl) (Nat.le_succ _) fun x k hc => ?_
    cases hc
    exact ⟨rfl, hpos, Nat.lt_succ_self _⟩
  · refine h.table.move (fun _ _ => rfl) ?_ (Nat.le_succ _) (fun k hk => ?_) le_rfl hfail ?_
      ?_ ?_ ?_
      fun hf => (h.table.frontier hf).reserve
    · intro k hk
      cases hlive.symm.trans hk
    · rcases Nat.lt_succ_iff_lt_or_eq.1 hk with hk | hk
      · exact .inl hk
      · exact .inr (mem_insert_iff.2 (.inl hk))
    · intro r hr x k hc hx
      exact ((hcases r hr x k hc).resolve_right fun h => hx h.1).1
    · intro r hr r' hr' x k k' hc hc'
      rcases hcases r hr x k hc with ⟨h1, hx⟩ | ⟨hx, hk⟩ <;>
        rcases hcases r' hr' x k' hc' with ⟨h1', hx'⟩ | ⟨hx', hk'⟩
      · exact h.table.agree r h1 r' h1' x k k' hc hc'
      · exact absurd hx' hx
      · exact absurd hx hx'
      · rw [hk, hk']
    · refine ⟨fun k hk => ?_, fun hle => ?_, nofun, ?_, fun r hr k hc => .inr (.inl ?_)⟩
      · cases hlive.symm.trans hk
      · exact absurd (h.table.lt_nextTx (by rw [hp]; nofun)) (not_lt.2 hle)
      · rintro k ⟨⟩
        exact ⟨hlive, hpos, Nat.lt_succ_self _⟩
      · rw [((hcases r hr tx k hc).resolve_left fun h => h.2 rfl).2]
    · exact fun _ k hk => .inl (mem_insert_iff.2 (.inr hk))
  · refine ⟨rfl, rfl, fun _ _ h => h, ?_, ?_, hlog.reserved,
      fun hr => by rw [hquiet] at hr; cases hr⟩
    · intro k h1 h2
      have h2' : k < s.txs.nextCsn + 1 := h2
      obtain rfl : k = s.txs.nextCsn := by omega
      refine ⟨⟨a.startLsn, s.wal.prevLsn, tx, .commit, .commit tx s.txs.nextCsn⟩, ?_, ⟨tx, rfl⟩,
        (hlog.lsn _ (mem_singleton_self _)).1⟩
      show _ ∈ wal.records
      rw [hlog.records]
      exact mem_append_right _ (mem_singleton_self _)
    · intro r hr
      show r ∈ wal.records
      rw [hlog.records]
      exact mem_append_left _ hr

theorem Inv.setWal (hrec : wal.records = s.wal.records)
    (hres : wal.reservedLsn = s.wal.reservedLsn) (hd : wal.durableLsn ≤ s.wal.reservedLsn)
    (hfail : wal.failure = false → s.wal.failure = false) : Inv { s with wal } := by
  refine ⟨⟨?_, ?_, ?_, ?_⟩, h.table.setWal (fun r hr _ _ _ => hrec ▸ hr) hfail,
    h.files.later (.of_wal (fun r hr => hrec ▸ hr) hres.symm.le)⟩
  · exact hrec ▸ h.wal.order
  · exact hrec ▸ hres ▸ h.wal.bound
  · exact hrec ▸ h.wal.csns
  · exact hd.trans hres.symm.le

theorem Inv.flushUntil {target : Nat} (ht : target ≤ s.wal.reservedLsn)
    (hf : s.wal.flushUntil target = .ok (d, wal)) : Inv { s with wal } ∧ d ≤ s.wal.reservedLsn ∧
      wal.reservedLsn = s.wal.reservedLsn := by
  simp only [WalCoordinator.flushUntil, bind_eq_ok, pure_eq_ok, Prod.mk.injEq] at hf
  obtain ⟨-, -, rfl, rfl⟩ := hf
  have hle : max s.wal.durableLsn target ≤ s.wal.reservedLsn := Nat.max_le.2 ⟨h.wal.durable, ht⟩
  exact ⟨h.setWal rfl rfl hle id, hle, rfl⟩

/-! ### Steps of checkpoints -/

omit h in
theorem StatusOk.mono {lsn' : Nat} (h : StatusOk txs wal st lsn) (hle : lsn' ≤ lsn) :
    StatusOk txs wal st lsn' :=
  ⟨h.next, h.exact, h.state, fun k h1 h2 =>
    let ⟨r, hr, hc, hl⟩ := h.tail k h1 h2
    ⟨r, hr, hc, hle.trans hl⟩⟩

theorem Inv.setJob {p : CheckpointPhase} (hp : s.files.JobOk (facts s.txs s.wal) job p) :
    Inv (s.setJob job (some p)) := by
  refine ⟨h.wal, h.table, h.files.saved, h.files.ok.setJob ?_⟩
  rintro q ⟨⟩
  exact hp

theorem Inv.startReading (hj : s.jobs job = some (.flushed d n)) (hh : s.holder = none)
    (hpend : s.txs.pending = []) (hfail : s.wal.failure = false) :
    Inv ({ s with holder := some job }.setJob job (some (.reading d n
      { generation := s.nextGeneration
        nextTx := s.txs.nextTx
        nextCsn := s.txs.nextCsn
        publishedCsn := s.txs.publishedCsn
        entries := [] } 0))) := by
  refine ⟨h.wal, h.table, h.files.saved, h.files.ok.start hh (h.files.ok.jobs job _ hj) rfl
    ⟨?_, rfl, ?_, ?_⟩⟩
  · exact ((h.table.frontier hfail).published_eq hpend).symm
  · intro k h1 h2
    refine (h.table.covered hfail k h1 h2).resolve_right ?_
    rw [hpend]
    exact not_mem_nil
  · intro x k
    exact ⟨nofun, fun hlt => absurd hlt.2 (Nat.not_lt_zero _)⟩

theorem Inv.readShard (hj : s.jobs job = some (.reading d n status shard)) :
    Inv (s.setJob job
      (some (.reading d n { status with entries := status.entries ++ s.txs.shardStates shard }
      (shard + 1)))) := by
  refine ⟨h.wal, h.table, h.files.saved, h.files.ok.read hj rfl ?_⟩
  rintro ⟨h1, h2, h3, h4⟩
  refine ⟨h1, h2, h3, fun x k => ?_⟩
  rw [mem_append, h4, Server.mem_shardStates, Nat.lt_succ_iff_lt_or_eq, and_or_left]

theorem Inv.writeStatus (hj : s.jobs job = some (.reading d n status shard))
    (hshard : ¬ shard < txStatusShards)
    (hst : st = { status with entries := status.entries.insertionSort (fun a b => a.1 ≤ b.1) }) :
    Inv ({ s with txStatus := update s.txStatus st.generation (some st) }.setJob job
      (some (.statusWritten d n))) := by
  have hw : (facts s.txs s.wal).read d status shard → StatusOk s.txs s.wal st d := by
    rintro ⟨h1, h2, h3, h4⟩
    have hmem : ∀ x k, (x, k) ∈ st.entries ↔ s.txs.state x = .committed k := by
      intro x k
      rw [hst, mem_insertionSort, h4]
      exact ⟨And.left, fun hk => ⟨hk, (Nat.mod_lt x (by decide)).trans_le (not_lt.1 hshard)⟩⟩
    have hpub : st.publishedCsn + 1 = s.txs.nextCsn := by rw [hst, ← h2, h1]
    refine ⟨by rw [hst]; exact h1, fun k => ⟨?_, ?_⟩, fun x k hx => (hmem x k).1 hx,
      fun k hk1 hk2 => by omega⟩
    · rintro ⟨x, hx⟩
      have := (h.table.tx x).committed k ((hmem x k).1 hx)
      omega
    · rintro ⟨hk1, hk2⟩
      obtain ⟨x, hx⟩ := h3 k hk1 (by omega)
      exact ⟨x, (hmem x k).2 hx⟩
  obtain ⟨hok, hsaved⟩ := h.files.ok.writeStatus hj st (update_apply _ _ _) (by rw [hst]) hw
  refine ⟨h.wal, h.table, ?_, hok⟩
  show StatusOk s.txs s.wal (LogServer.savedStatus { s with txStatus := _ }) 0
  rw [savedStatus_eq hsaved]
  exact h.files.saved

theorem Inv.writeControl (hj : s.jobs job = some (.statusWritten d n)) :
    Inv ({ s with control := some ⟨s.nextGeneration, d, n⟩ }.setJob job
      (some (.controlWritten ⟨s.nextGeneration, d, n⟩))) := by
  obtain ⟨st, hsaved, hw, hok⟩ := h.files.ok.writeControl hj (facts s.txs s.wal) fun _ => id
  refine ⟨h.wal, h.table, ?_, hok hw⟩
  show StatusOk s.txs s.wal (LogServer.savedStatus { s with control := _ }) 0
  rw [savedStatus_eq hsaved]
  exact StatusOk.mono hw (Nat.zero_le _)

/-- The commit records the checkpoint does not know lie behind its LSN, so they are not pruned. -/
theorem Inv.prune {next : ControlFile} (hj : s.jobs job = some (.controlWritten next)) :
    Inv ({ s with
      wal := s.wal.pruneSegmentsBelowCheckpointLsn next.checkpointLsn
      checkpoint := some next
      holder := none }.setJob job none) := by
  obtain ⟨-, -, -, st, hsaved, hw⟩ := h.files.ok.jobs job _ hj
  have hsub : ∀ r, r ∈ (s.wal.pruneSegmentsBelowCheckpointLsn next.checkpointLsn).records →
      r ∈ s.wal.records :=
    fun r hr => (mem_filter.1 hr).1
  refine ⟨⟨h.wal.order.filter _, fun r hr => h.wal.bound r (hsub r hr),
    fun r hr => h.wal.csns r (hsub r hr), h.wal.durable⟩,
    h.table.setWal (fun r hr _ _ _ => hsub r hr) id, ?_, h.files.ok.finish hj fun _ => id⟩
  show StatusOk s.txs _ s.savedStatus 0
  rw [savedStatus_eq hsaved]
  refine ⟨hw.next, hw.exact, hw.state, fun k hk1 hk2 => ?_⟩
  obtain ⟨r, hr, hc, hle⟩ := hw.tail k hk1 hk2
  refine ⟨r, mem_filter.2 ⟨hr, ?_⟩, hc, Nat.zero_le _⟩
  rw [decide_eq_true_eq]
  intro hlt
  exact absurd hlt.1 (not_lt.2 (segmentForLsn_mono hle))

theorem Inv.checkpointStep (hok : QuietCheckpoint s (.checkpoint job))
    (hs : s.checkpointStep job = .ok s') :
    Inv s' := by
  unfold LogServer.checkpointStep at hs
  split at hs
  · cases hs
    exact h.setJob (p := .waiting s.wal.reservedLsn) (le_refl s.wal.reservedLsn)
  · next target hj =>
    simp only [bind_eq_ok, pure_eq_ok] at hs
    obtain ⟨⟨d, wal⟩, hf, rfl⟩ := hs
    obtain ⟨hw, hd, hres⟩ := h.flushUntil (h.files.ok.jobs job _ hj) hf
    exact hw.setJob (p := .flushing d) (hd.trans hres.symm.le)
  · next d hj =>
    cases hs
    exact h.setJob (p := .flushed d s.pageCount) (h.files.ok.jobs job (.flushing d) hj)
  · next d n hj =>
    simp only [QuietCheckpoint, hj] at hok
    split at hs
    · cases hs
    · next hh =>
      cases hs
      exact h.startReading hj hh hok.1 hok.2
  · next d n status shard hj =>
    split at hs
    · cases hs
      exact h.readShard hj
    · next hshard =>
      cases hs
      exact h.writeStatus hj hshard rfl
  · next d n hj =>
    cases hs
    exact h.writeControl hj
  · next c hj =>
    cases hs
    exact h.prune hj

omit h in
theorem exists_last_csn (p : Nat) (es : List (Nat × Nat)) :
    ∃ l, p ≤ l ∧ (∀ e ∈ es, e.2 ≤ l) ∧ (l = p ∨ ∃ e ∈ es, e.2 = l) := by
  have hsome : (p :: es.map Prod.snd).max? = some _ := max?_cons
  obtain ⟨hmem, hmax⟩ := max?_eq_some_iff.1 hsome
  refine ⟨_, hmax p mem_cons_self, fun e he => hmax _ (mem_cons_of_mem _ (mem_map_of_mem he)), ?_⟩
  exact (mem_cons.1 hmem).imp id mem_map.1

structure Rebuilt (s : LogServer) (recs : List WalRecord) (t : ConcurrentTxStatus) : Prop where
  next : t.nextCsn = t.publishedCsn + 1
  below : t.Below t.publishedCsn
  largest : t.publishedCsn = s.savedStatus.publishedCsn ∨ ∃ r ∈ recs, ∃ x,
    r.commit? = some (x, t.publishedCsn)
  saved : ∀ x k, (x, k) ∈ s.savedStatus.entries → t.state x = .committed k
  logged : ∀ r ∈ recs, ∀ x k, r.commit? = some (x, k) → t.state x = .committed k
  committed : ∀ x k, t.state x = .committed k → x < t.nextTx ∧ 1 ≤ k ∧ k ≤ t.publishedCsn
  tail : ∀ k, s.savedStatus.publishedCsn < k → k ≤ t.publishedCsn → ∃ r ∈ recs, ∃ x,
    r.commit? = some (x, k)

omit h in
theorem recovered_eq {P : CheckpointFiles.Facts} (h : s.files.Ok P s.jobs) (recs : List WalRecord) :
    s.recovered recs = .ok (recoverCommits recs (.restore s.savedStatus)) := by
  simp only [recovered, Disk.baseStatus, disk, LogServer.savedStatus]
  cases hc : s.control with
  | none => rfl
  | some c =>
    obtain ⟨st, hst, hgen⟩ : ∃ st, s.txStatus c.generation = some st ∧
        st.generation = c.generation := h.file c hc
    simp only [Option.bind_some, hst, Option.getD_some]
    rw [if_neg (not_not_intro hgen)]
    rfl

/-- The CSNs of a prefix of the log leave no gap above the checkpoint's frontier. -/
theorem Inv.contiguous {l : Nat} (hr : r ∈ s.wal.records.take n)
    (hc : r.commit? = some (x, l)) (hlt : s.savedStatus.publishedCsn < k) (hle : k ≤ l) :
    ∃ r ∈ s.wal.records.take n, ∃ x, r.commit? = some (x, k) := by
  have hr' := mem_of_mem_take hr
  obtain ⟨q, hq, ⟨y, hy⟩, -⟩ := h.files.saved.tail k hlt (hle.trans_lt (h.wal.csns r hr' x l hc).2)
  rcases Nat.eq_or_lt_of_le hle with rfl | hlt'
  · exact ⟨r, hr, x, hc⟩
  refine ⟨q, ?_, y, hy⟩
  -- the record with the smaller CSN lies before the other one
  rw [mem_take_iff_getElem] at hr ⊢
  obtain ⟨i, hi, rfl⟩ := hr
  obtain ⟨j, hj, rfl⟩ := getElem_of_mem hq
  have hij : j < i := by
    by_contra hge
    rcases Nat.eq_or_lt_of_le (not_lt.1 hge) with rfl | hlt2
    · rw [hc] at hy
      cases hy
      omega
    · have := (pairwise_iff_getElem.1 h.wal.order i j (by omega) hj hlt2).2 x l y k hc hy
      omega
  exact ⟨j, by omega, rfl⟩

omit h in
theorem StatusOk.state_restore {txs : ConcurrentTxStatus} {wal : WalCoordinator}
    {st : TxStatusCheckpoint} {d : Nat} (hst : StatusOk txs wal st d) (he : (x, k) ∈ st.entries) :
    (restore st).state x = .committed k := by
  refine state_recovered_of_agree (.inl he) ?_
  rintro ⟨y, k'⟩ he' rfl
  have h1 := hst.state y k he
  rw [hst.state y k' he'] at h1
  exact TxState.committed.inj h1

omit h in
theorem StatusOk.nextCsn_restore {txs : ConcurrentTxStatus} {wal : WalCoordinator}
    {st : TxStatusCheckpoint} {d : Nat} (hst : StatusOk txs wal st d) :
    (restore st).nextCsn = st.publishedCsn + 1 := by
  obtain ⟨-, -, hle⟩ := counters_recovered .new st.entries st.publishedCsn
  have := hle (fun e he => ((hst.exact e.2).1 ⟨e.1, he⟩).2) (Nat.succ_le_succ (Nat.zero_le _))
  have hn := hst.next
  show max _ (max st.nextCsn 1) = _
  omega

/-- A transaction that the checkpoint has as committed has no other CSN in the log. -/
theorem Inv.saved_agree {k' : Nat} (he : (x, k) ∈ s.savedStatus.entries) (hr : r ∈ s.wal.records)
    (hc : r.commit? = some (x, k')) : k = k' := by
  have hx := h.files.saved.state x k he
  rcases (h.table.tx x).logged r hr k' hc with h1 | h1 | ⟨h1, -⟩
  · exact TxState.committed.inj (hx.symm.trans h1)
  · cases hx.symm.trans ((h.table.tx x).committing k' h1).1
  · cases hx.symm.trans h1

/-- The frontier that recovery finds in a first part of the log: all CSNs up to `l` are there and
none above. -/
theorem Inv.frontier_recovered (n : Nat) :
    ∃ l, s.savedStatus.publishedCsn ≤ l ∧
      (∀ e ∈ (s.wal.records.take n).filterMap WalRecord.commit?, e.2 ≤ l) ∧
      (l = s.savedStatus.publishedCsn ∨
        ∃ e ∈ (s.wal.records.take n).filterMap WalRecord.commit?, e.2 = l) ∧
      (∀ k, s.savedStatus.publishedCsn < k → k ≤ l → ∃ r ∈ s.wal.records.take n, ∃ x,
        r.commit? = some (x, k)) ∧
      (recoverCommits (s.wal.records.take n) (.restore s.savedStatus)).Below l ∧
      (recoverCommits (s.wal.records.take n) (.restore s.savedStatus)).publishedCsn = l := by
  set st := s.savedStatus with hst
  set recs := s.wal.records.take n with hrecs
  have hsaved : StatusOk s.txs s.wal st 0 := h.files.saved
  obtain ⟨l, hpl, hmax, hlast⟩ :=
    exists_last_csn st.publishedCsn (recs.filterMap WalRecord.commit?)
  have htail : ∀ k, st.publishedCsn < k → k ≤ l → ∃ r ∈ recs, ∃ x, r.commit? = some (x, k) := by
    intro k hlt hle
    rcases hlast with rfl | ⟨⟨x, l'⟩, he, rfl⟩
    · omega
    · obtain ⟨r, hr, hc⟩ := mem_filterMap.1 he
      exact h.contiguous hr hc hlt hle
  have hlow : l ≤ (recoverCommits recs (.restore st)).publishedCsn := by
    refine le_publishedCsn_recoverCommits fun k h1 h2 => ?_
    rcases lt_or_ge st.publishedCsn k with hlt | hge
    · obtain ⟨r, hr, x, hc⟩ := htail k hlt h2
      exact .inr ⟨(x, k), mem_filterMap.2 ⟨r, hr, hc⟩, rfl⟩
    · obtain ⟨x, hx⟩ := (hsaved.exact k).2 ⟨h1, hge⟩
      exact .inl ⟨(x, k), hx, rfl⟩
  have hnew : new.Below st.publishedCsn := ⟨Nat.zero_le _, nofun, rfl⟩
  have hbase : (restore st).Below l := by
    have hb := hnew.recovered fun e he => ((hsaved.exact e.2).1 ⟨e.1, he⟩).2
    exact ⟨Nat.max_le.2 ⟨hb.published.trans hpl, hpl⟩, fun k hk => (hb.completed k hk).trans hpl,
      hb.skipped⟩
  have hbelow : (recoverCommits recs (.restore st)).Below l := hbase.recovered hmax
  exact ⟨l, hpl, hmax, hlast, htail, hbelow, le_antisymm hbelow.published hlow⟩

theorem Inv.rebuilt (ht : s.recovered (s.wal.records.take n) = .ok t) :
    Rebuilt s (s.wal.records.take n) t := by
  rw [recovered_eq h.files.ok] at ht
  obtain rfl := Except.ok.inj ht
  obtain ⟨l, hpl, hmax, hlast, htail, hbelow, hpub⟩ := h.frontier_recovered n
  set st := s.savedStatus with hst
  set recs := s.wal.records.take n with hrecs
  set es := recs.filterMap WalRecord.commit? with hes
  have hsaved : StatusOk s.txs s.wal st 0 := h.files.saved
  have hmem : ∀ x k, (x, k) ∈ es ↔ ∃ r ∈ recs, r.commit? = some (x, k) := fun x k => mem_filterMap
  obtain ⟨⟨htx1, htx2⟩, ⟨hcsn1, hcsn2⟩, hcsn3⟩ := counters_recovered (.restore st) es l
  obtain ⟨⟨-, htx0⟩, -, -⟩ := counters_recovered .new st.entries st.publishedCsn
  have hnextBase := hsaved.nextCsn_restore
  have hnext : (recoverCommits recs (.restore st)).nextCsn = l + 1 := by
    have hup := hcsn3 hmax (by rw [hnextBase]; omega)
    refine le_antisymm hup ?_
    rcases hlast with rfl | ⟨e, he, rfl⟩
    · exact hnextBase.symm.le.trans hcsn1
    · exact hcsn2 e he
  refine ⟨?_, ?_, ?_, ?_, ?_, ?_, ?_⟩
  · rw [hnext, hpub]
  · rw [hpub]
    exact hbelow
  · rw [hpub]
    refine hlast.imp id ?_
    rintro ⟨⟨x, k⟩, he, rfl⟩
    obtain ⟨r, hr, hc⟩ := (hmem x k).1 he
    exact ⟨r, hr, x, hc⟩
  · intro x k he
    refine state_recovered_of_agree (.inr (hsaved.state_restore he)) ?_
    rintro ⟨y, k'⟩ he' rfl
    obtain ⟨r, hr, hc⟩ := (hmem y k').1 he'
    exact (h.saved_agree he (mem_of_mem_take hr) hc).symm
  · intro r hr x k hc
    refine state_recovered_of_agree (.inl ((hmem x k).2 ⟨r, hr, hc⟩)) ?_
    rintro ⟨y, k'⟩ he' rfl
    obtain ⟨r', hr', hc'⟩ := (hmem y k').1 he'
    exact h.table.agree r' (mem_of_mem_take hr') r (mem_of_mem_take hr) y k' k hc' hc
  · intro x k hk
    rcases committed_recovered hk with he | he
    · obtain ⟨r, hr, hc⟩ := (hmem x k).1 he
      have := hmax _ he
      exact ⟨htx2 _ he, (h.wal.csns r (mem_of_mem_take hr) x k hc).1, by rw [hpub]; exact this⟩
    · rcases committed_recovered he with he | he
      · have := (hsaved.exact k).1 ⟨x, he⟩
        have hlt := htx0 _ he
        refine ⟨hlt.trans_le ((le_max_left _ _).trans htx1), this.1, ?_⟩
        rw [hpub]
        exact this.2.trans hpl
      · cases he
  · rw [hpub]
    exact htail

omit h in
theorem endLsn_le_openScan {recs : List WalRecord} (hrecs : recs.Pairwise Before) (hr : r ∈ recs)
    (segmentBytes walBufferBytes : Nat) :
    r.endLsn ≤ (WalCoordinator.openScan segmentBytes walBufferBytes recs).reservedLsn := by
  show r.endLsn ≤ (recs.getLast?.map RedlineDb.WalRecord.endLsn).getD 0
  rcases eq_nil_or_concat recs with rfl | ⟨init, last, rfl⟩
  · cases hr
  rw [concat_eq_append] at hr hrecs ⊢
  rw [getLast?_concat]
  rcases mem_append.1 hr with h | h
  · have hb := ((pairwise_append.1 hrecs).2.2 r h last (mem_singleton_self _)).1
    exact hb.trans (WalRecord.lsn_lt_endLsn last).le
  · rw [mem_singleton.1 h]
    exact le_rfl

omit h in
theorem Rebuilt.inv (hr : Rebuilt s s.wal.records s.txs) (hphases : s.phases = fun _ => .idle)
    (hok : s.files.Ok (facts s.txs s.wal) s.jobs)
    (hsaved : s.savedStatus.nextCsn = s.savedStatus.publishedCsn + 1)
    (hexact : ∀ k, (∃ x, (x, k) ∈ s.savedStatus.entries) ↔ 1 ≤ k ∧ k ≤ s.savedStatus.publishedCsn)
    (horder : s.wal.records.Pairwise Before)
    (hbound : ∀ r ∈ s.wal.records, r.endLsn ≤ s.wal.reservedLsn)
    (hdurable : s.wal.durableLsn ≤ s.wal.reservedLsn) : Inv s := by
  have hcommitted : ∀ x k, s.txs.state x = .committed k → 1 ≤ k ∧ k < s.txs.nextCsn := by
    intro x k hk
    have hb := (hr.committed x k hk).2
    exact ⟨hb.1, hr.next ▸ Nat.lt_succ_of_le hb.2⟩
  have hpos : 0 < s.txs.nextCsn := hr.next ▸ Nat.succ_pos _
  have hle : ∀ k, k < s.txs.nextCsn → k ≤ s.txs.publishedCsn :=
    fun k hk => Nat.le_of_lt_succ (Nat.lt_of_lt_of_eq hk hr.next)
  refine ⟨⟨horder, hbound, fun r hm x k hc => hcommitted x k (hr.logged r hm x k hc), hdurable⟩, ?_,
    ?_⟩
  · refine ⟨hpos, fun x => ?_, ?_, fun _ k h1 h2 => .inl ?_, fun _ => ?_⟩
    · rw [hphases]
      refine ⟨hcommitted x, fun hle => ⟨rfl, fun k hk => ?_⟩, nofun, nofun,
        fun r hm k hc => .inl (hr.logged r hm x k hc)⟩
      exact absurd (hr.committed x k hk).1 (not_lt.2 hle)
    · intro r hm r' hm' x k k' hc hc'
      exact TxState.committed.inj ((hr.logged r hm x k hc).symm.trans (hr.logged r' hm' x k' hc'))
    · rcases lt_or_ge s.savedStatus.publishedCsn k with hlt | hge
      · obtain ⟨r, hm, x, hc⟩ := hr.tail k hlt (hle k h2)
        exact ⟨x, hr.logged r hm x k hc⟩
      · obtain ⟨x, hx⟩ := (hexact k).2 ⟨h1, hge⟩
        exact ⟨x, hr.saved x k hx⟩
    · have hb : s.txs.nextCsn - 1 = s.txs.publishedCsn := by rw [hr.next, Nat.add_sub_cancel]
      refine ⟨hb ▸ hr.below, fun k hk => .inl (hle k hk.2.1), fun hgap => ?_, hpos⟩
      exact absurd (hr.below.completed _ hgap) (Nat.not_succ_le_self _)
  · refine ⟨⟨hsaved, hexact, hr.saved, fun k h1 h2 => ?_⟩, hok⟩
    obtain ⟨r, hm, hc⟩ := hr.tail k h1 (hle k h2)
    exact ⟨r, hm, hc, Nat.zero_le _⟩

theorem Inv.restart {keep : Nat} (hs : s.restart keep = .ok s') : Inv s' := by
  simp only [LogServer.restart, bind_eq_ok, pure_eq_ok] at hs
  obtain ⟨-, -, t, ht, rfl⟩ := hs
  have horder : (s.wal.records.take keep).Pairwise Before :=
    h.wal.order.sublist (take_sublist keep _)
  exact Rebuilt.inv { h.rebuilt ht with } rfl (.closed h.files.ok.file rfl) h.files.saved.next
    h.files.saved.exact horder
    (fun r hm => endLsn_le_openScan horder hm _ _) (Nat.zero_le _)

omit h in
theorem inv_create (segmentBytes walBufferBytes : Nat) :
    Inv (create segmentBytes walBufferBytes) := by
  have hr : Rebuilt (create segmentBytes walBufferBytes) [] .new :=
    ⟨rfl, ⟨le_rfl, nofun, rfl⟩, .inl rfl, nofun, fun _ h => absurd h not_mem_nil, nofun,
      fun k h1 h2 => absurd h1 (not_lt.2 h2)⟩
  refine Rebuilt.inv hr rfl ⟨nofun, fun _ => rfl, nofun⟩ rfl (fun k => ⟨nofun, fun hk => ?_⟩) .nil
    (fun _ h => absurd h not_mem_nil) le_rfl
  exact absurd hk.1 (not_lt.2 hk.2)

theorem Inv.rollback (hp : s.phases tx = .active) : Inv (s.endAborted tx) :=
  h.endAborted ((h.table.tx tx).active hp) (by rw [hp]; exact CommitPhase.noConfusion)
    (fun _ => rfl) rfl rfl fun _ => rfl

theorem Inv.commitStep (hp : s.phases tx = .active) (hok : QuietCheckpoint s (.appendCommit tx)) :
    Inv (s.appendCommit tx) := by
  unfold LogServer.appendCommit
  split
  · exact h.rollback hp
  · next hroom =>
    simp only [not_or, not_lt] at hroom
    split
    · next e he =>
      have hlen : walHeaderLen + (WalPayload.commit tx s.txs.nextCsn).encodedLen ≤
          s.wal.segmentBytes := hroom.1
      have hbuf : walHeaderLen + (WalPayload.commit tx s.txs.nextCsn).encodedLen ≤
          s.wal.walBufferBytes := hroom.2.1
      rw [WalCoordinator.appendCommit, WalCoordinator.append, require, if_pos hlen, require,
        if_pos hbuf, require,
        if_pos hroom.2.2, reserveQueuedAppend, if_neg (not_lt.2 hlen)] at he
      cases he
    · next r a wal ha => exact h.appendCommit hp hok ha

theorem Inv.step {a : LogServerAction} (hok : QuietCheckpoint s a) (hs : s.step a = .ok s') :
    Inv s' := by
  cases a with
  | begin =>
    cases hs
    exact h.begin
  | log tx kind payload =>
    simp only [LogServer.step, bind_eq_ok, require_eq_ok, pure_eq_ok] at hs
    obtain ⟨_, ⟨hp, hkind, -⟩, ⟨a, wal⟩, ha, rfl⟩ := hs
    exact h.log hkind ha
  | writePage tx page =>
    obtain ⟨hp, rfl⟩ := guarded_eq_ok.1 hs
    exact ⟨h.wal, h.table, h.files.later (.of_wal (fun _ hr => hr) le_rfl)⟩
  | appendCommit tx =>
    obtain ⟨hp, rfl⟩ := guarded_eq_ok.1 hs
    exact h.commitStep hp hok
  | publish tx csn =>
    obtain ⟨hp, rfl⟩ := guarded_eq_ok.1 hs
    exact h.publish hp hok
  | cancel tx csn =>
    obtain ⟨⟨hp, hf⟩, rfl⟩ := guarded_eq_ok.1 hs
    refine h.endAborted ((h.table.tx tx).committing csn hp).1
      (by rw [hp]; exact CommitPhase.noConfusion) ?_
      (nextCsn_skipCsn ..) (nextTx_skipCsn ..) ?_
    · intro x
      simp [cancelReservedCsn, state]
    · intro hno
      rw [hf] at hno
      cases hno
  | rollback tx =>
    obtain ⟨hp, rfl⟩ := guarded_eq_ok.1 hs
    exact h.rollback hp
  | writeLog lsn =>
    simp only [LogServer.step, bind_eq_ok, require_eq_ok, pure_eq_ok] at hs
    obtain ⟨_, hle, ⟨d, wal⟩, hf, rfl⟩ := hs
    exact (h.flushUntil hle hf).1
  | failLog =>
    cases hs
    exact h.setWal rfl rfl h.wal.durable (by rintro ⟨⟩)
  | checkpoint job => exact h.checkpointStep hok hs
  | restart keep => exact h.restart hs

end

theorem inv_of_run {segmentBytes walBufferBytes : Nat} {acts : List LogServerAction}
    (hrun : Run LogServer.step QuietCheckpoint (create segmentBytes walBufferBytes) acts s) :
    Inv s :=
  hrun.invariant (I := fun _ s => Inv s) (inv_create ..) fun _ _ _ _ hI hok hs => hI.step hok hs

/-! ### Commit order and the recovered frontier -/

def recoveredCsns (s : LogServer) (records : List WalRecord) : List Nat :=
  s.savedStatus.entries.map Prod.snd ++ (records.filterMap WalRecord.commit?).map Prod.snd

/-- A reopening from these records succeeds, its frontier is the largest CSN it finds, and every
transaction with a commit record is visible to the first snapshot. -/
def FrontierExact (s : LogServer) (records : List WalRecord) : Prop :=
  ∃ t, s.recovered records = .ok t ∧ (∀ k ∈ s.recoveredCsns records, k ≤ t.publishedCsn) ∧
    (t.publishedCsn = 0 ∨ t.publishedCsn ∈ s.recoveredCsns records) ∧
    ∀ r ∈ records, ∀ x k, r.commit? = some (x, k) → t.isTxVisible x t.snapshot none = true

theorem mem_recoveredCsns {recs : List WalRecord} : k ∈ s.recoveredCsns recs ↔
    (∃ x, (x, k) ∈ s.savedStatus.entries) ∨ ∃ r ∈ recs, ∃ x, r.commit? = some (x, k) := by
  simp only [recoveredCsns, mem_append, mem_map, mem_filterMap, Prod.exists, exists_eq_right]
  refine or_congr Iff.rfl ?_
  constructor
  · rintro ⟨x, r, hr, hc⟩
    exact ⟨r, hr, x, hc⟩
  · rintro ⟨r, hr, x, hc⟩
    exact ⟨x, r, hr, hc⟩

theorem Inv.frontierExact (h : Inv s) (n : Nat) : FrontierExact s (s.wal.records.take n) := by
  have ht := recovered_eq h.files.ok (s.wal.records.take n)
  have hr := h.rebuilt ht
  refine ⟨_, ht, ?_, ?_, ?_⟩
  · intro k hk
    rcases mem_recoveredCsns.1 hk with ⟨x, hx⟩ | ⟨r, hm, x, hc⟩
    · exact (hr.committed x k (hr.saved x k hx)).2.2
    · exact (hr.committed x k (hr.logged r hm x k hc)).2.2
  · rcases hr.largest with hl | hl
    · refine (Nat.eq_zero_or_pos _).imp id fun hpos => mem_recoveredCsns.2 (.inl ?_)
      exact (h.files.saved.exact _).2 ⟨hpos, hl.le⟩
    · exact .inr (mem_recoveredCsns.2 (.inr hl))
  · intro r hm x k hc
    have hst := hr.logged r hm x k hc
    have hle := (hr.committed x k hst).2.2
    simp only [isTxVisible, reduceCtorEq, if_false, hst]
    exact decide_eq_true hle

/-- When no CSN is pending while a checkpoint reads the transaction table, log order is commit order
and every prefix of the log gives a frontier without gaps, whatever was cancelled. -/
theorem commit_order_is_log_order {segmentBytes walBufferBytes : Nat} {acts : List LogServerAction}
    (hrun : Run LogServer.step QuietCheckpoint (create segmentBytes walBufferBytes) acts s) :
    (∀ r ∈ s.wal.records, ∀ r' ∈ s.wal.records, ∀ x k x' k', r.commit? = some (x, k) →
      r'.commit? = some (x', k') →
      r.lsn < r'.lsn → k < k') ∧ ∀ n, FrontierExact s (s.wal.records.take n) := by
  have h := inv_of_run hrun
  exact ⟨fun r hr r' hr' x k x' k' hc hc' hlt => h.wal.csn_lt hr hr' hlt hc hc', h.frontierExact⟩

instance (s : LogServer) (a : LogServerAction) : Decidable (QuietCheckpoint s a) := by
  unfold QuietCheckpoint
  split
  · infer_instance
  · infer_instance
  · infer_instance
  · split <;> infer_instance
  · infer_instance

def traceCancelled : List LogServerAction :=
  [.begin, .appendCommit 1, .publish 1 1] ++ List.replicate 71 (.checkpoint 0) ++
  [.begin, .begin, .appendCommit 2, .appendCommit 3, .failLog, .cancel 2 2, .publish 3 3,
    .restart 3]

theorem commit_order_is_log_order_cancelled : ∃ s,
    Run LogServer.step QuietCheckpoint (create 1000 1000) traceCancelled s ∧
      s.savedStatus.entries = [(1, 1)] ∧ s.wal.records.filterMap WalRecord.commit? =
        [(1, 1), (2, 2), (3, 3)] ∧
      FrontierExact s (s.wal.records.take 2) := by
  obtain ⟨s, hrun, h1, h2⟩ :
      ∃ s, Run LogServer.step QuietCheckpoint (create 1000 1000) traceCancelled s ∧
      s.savedStatus.entries = [(1, 1)] ∧ s.wal.records.filterMap WalRecord.commit? =
        [(1, 1), (2, 2), (3, 3)] := by
    decide +kernel
  exact ⟨s, hrun, h1, h2, (commit_order_is_log_order hrun).2 2⟩

def tracePending : List LogServerAction :=
  [.begin] ++ List.replicate 3 (.checkpoint 0) ++ [.appendCommit 1] ++
    List.replicate 67 (.checkpoint 0) ++
  [.restart 0, .begin, .appendCommit 2, .publish 2 2]

def StuckFrontier (s : LogServer) : Prop :=
  s.wal.records.filterMap WalRecord.commit? = [(2, 2)] ∧
    (s.recovered s.wal.records).toOption.map publishedCsn = some 0

instance (s : LogServer) : Decidable (StuckFrontier s) := inferInstanceAs (Decidable (_ ∧ _))

/-- The CSN of the lost record was saved as used, so the frontier never passes it. -/
theorem frontier_stuck_at_lost_csn :
    ∃ s, Run LogServer.step (fun _ _ => True) (create 1000 1000) tracePending s ∧
    s.wal.records.filterMap WalRecord.commit? = [(2, 2)] ∧
      ¬ FrontierExact s (s.wal.records.take s.wal.records.length) := by
  obtain ⟨s, hrun, hcommits, hpub⟩ :
      ∃ s, Run LogServer.step (fun _ _ => True) (create 1000 1000) tracePending s ∧
      StuckFrontier s := by decide +kernel
  refine ⟨s, hrun, hcommits, ?_⟩
  rw [take_length]
  rintro ⟨t, ht, hle, -⟩
  rw [ht] at hpub
  have h2 : 2 ∈ s.recoveredCsns s.wal.records := by
    rw [recoveredCsns, hcommits]
    exact mem_append_right _ (mem_singleton_self _)
  rw [Option.some.inj hpub] at hle
  exact absurd (hle 2 h2) (by decide)

end LogServer
end RedlineDb
