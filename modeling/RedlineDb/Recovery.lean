import RedlineDb.Engine
import RedlineDb.HeapRecovery

/-!
# Checkpoint and reopening, heap side

`checkpoint_with_stats` of `engine/maintenance.rs` without concurrent writers, and the heap's part
of `open_with_recovery_report_and_target` of `engine/recovery.rs` for the latest target: the
transaction table of the checkpoint, the commit records, the replay of the heap records from the
checkpoint LSN on, and the rebuild of the directories from the pages.
-/

namespace RedlineDb

structure ControlFile where
  generation : Nat
  checkpointLsn : Nat
  pageCount : Nat
deriving DecidableEq

structure TxStatusCheckpoint where
  generation : Nat
  nextTx : Nat
  nextCsn : Nat
  publishedCsn : Nat
  entries : List (Nat × Nat)
deriving DecidableEq

def defaultCheckpointBatchPages : Nat := 64

/-- What a reopening finds: the page file, the records of the log, the newest valid control file and
the transaction status files by generation. -/
structure Disk where
  file : Nat → Option Page
  pageCount : Nat
  records : List WalRecord
  control : Option ControlFile
  txStatus : Nat → Option TxStatusCheckpoint

structure Config where
  relId : Nat
  heapLanes : Nat
  pageSize : PageSize
  segmentBytes : Nat
  walBufferBytes : Nat

structure Database where
  engine : Engine
  control : Option ControlFile
  txStatus : Nat → Option TxStatusCheckpoint

namespace ConcurrentTxStatus

def txStatusCheckpoint (t : ConcurrentTxStatus) (generation : Nat) : TxStatusCheckpoint where
  generation
  nextTx := t.nextTx
  nextCsn := t.nextCsn
  publishedCsn := t.publishedCsn
  entries := t.committedStates

def restore (c : TxStatusCheckpoint) : ConcurrentTxStatus :=
  (c.entries.foldl (fun t e => t.publishRecoveredCommit e.1 e.2) new).restoreFrontier c.nextTx
    c.nextCsn
    c.publishedCsn

end ConcurrentTxStatus

def WalRecord.commit? (r : WalRecord) : Option (Nat × Nat) :=
  match r.kind, r.payload with
  | .commit, .commit tx csn => some (tx, csn)
  | _, _ => none

def committedIn (records : List WalRecord) (tx : Nat) : Bool :=
  records.any fun r => r.commit?.any fun c => c.1 = tx

def recoverCommits (records : List WalRecord) (txs : ConcurrentTxStatus) : ConcurrentTxStatus :=
  (records.filterMap WalRecord.commit?).foldl (fun t c => t.publishRecoveredCommit c.1 c.2) txs

def recoverHeapRecord (committed : Nat → Bool) (replayFromLsn : Nat) (h : PageBackedHeap)
    (r : WalRecord) :
    Except Error PageBackedHeap :=
  if r.lsn < replayFromLsn then .ok h
  else
    match r.kind, r.payload with
    | .commit, _ => .ok h
    | _, .pageImage _ _ _ page =>
      if committed r.txId ∧ page.kind = .heap then .ok (h.redoPageImage page r.endLsn) else .ok h
    | .pageDelta, .heapInsert tx rel row payload =>
      if committed tx then h.insertRecoveredForRelation tx rel row payload else .ok h
    | .pageDelta, .heapUpdate tx rel row payload =>
      if committed tx then h.updateRecoveredForRelation tx rel row payload else .ok h
    | .pageDelta, .heapDelete tx rel row =>
      if committed tx then h.deleteRecoveredForRelation tx rel row else .ok h
    | _, _ => .ok h

def recoverHeap (committed : Nat → Bool) (replayFromLsn : Nat) :
    List WalRecord → PageBackedHeap → Except Error PageBackedHeap
  | [], h => .ok h
  | r :: rs, h => do
    let h ← recoverHeapRecord committed replayFromLsn h r
    recoverHeap committed replayFromLsn rs h

namespace Disk

/-- The transaction table and the LSN replay starts from. -/
def baseStatus (d : Disk) : Except Error (ConcurrentTxStatus × Nat) :=
  match d.control with
  | none => .ok (.new, 0)
  | some c =>
    match d.txStatus c.generation with
    | none => .error .io
    | some s =>
      if s.generation ≠ c.generation then
        .error (.corruptPage "tx status checkpoint generation mismatch")
      else .ok (.restore s, c.checkpointLsn)

def openHeap (d : Disk) (cfg : Config) : PageBackedHeap :=
  .new cfg.relId cfg.heapLanes (.openFile cfg.pageSize d.file d.pageCount)
    (.openScan cfg.segmentBytes cfg.walBufferBytes d.records)

/-- The directories are rebuilt only when there was a checkpoint. -/
def loadDirectories (d : Disk) (h : PageBackedHeap) : Except Error PageBackedHeap :=
  if d.control.isSome then do
    let pageCount := h.store.pageCount
    let h ← h.loadRowDirectoryFromPages pageCount
    h.loadReusablePagesFromPages pageCount
  else .ok h

def openWithRecovery (d : Disk) (cfg : Config) : Except Error Database := do
  let (txs, replayFromLsn) ← d.baseStatus
  let txs := recoverCommits d.records txs
  let heap ← recoverHeap (committedIn d.records) replayFromLsn d.records (d.openHeap cfg)
  let heap ← d.loadDirectories heap
  return {
    engine := { heap, txs, locks := ∅, txns := ∅ }, control := d.control
    txStatus := d.txStatus }

end Disk

namespace Database

def create (cfg : Config) : Database where
  engine := .create cfg.relId cfg.heapLanes cfg.pageSize cfg.segmentBytes cfg.walBufferBytes
  control := none
  txStatus := fun _ => none

def disk (db : Database) : Disk where
  file := db.engine.heap.store.file
  pageCount := db.engine.heap.store.pageCount
  records := db.engine.heap.wal.records
  control := db.control
  txStatus := db.txStatus

def nextGeneration (db : Database) : Nat := (db.control.map (·.generation + 1)).getD 1

def checkpoint (db : Database) : Except Error Database := do
  let e := db.engine
  let (durableLsn, wal) ← e.heap.wal.flushAll
  let store := e.heap.store.flushDirtyBatches durableLsn defaultCheckpointBatchPages
  let generation := db.nextGeneration
  let status := e.txs.txStatusCheckpoint generation
  let control : ControlFile :=
    { generation, checkpointLsn := durableLsn, pageCount := store.pageCount }
  return {
    engine := { e with
      heap := { e.heap with store, wal := wal.pruneSegmentsBelowCheckpointLsn durableLsn } }
    control := some control
    txStatus := fun g => if g = generation then some status else db.txStatus g }

end Database

/-- The steps of a database that is not closed: calls of the engine, and checkpoints. -/
inductive DbOp
  | call (op : Op)
  | checkpoint
deriving DecidableEq

namespace Database

def step (db : Database) : DbOp → Except Error Database
  | .call op => do
    let engine ← db.engine.step op
    return { db with engine }
  | .checkpoint => db.checkpoint

end Database
end RedlineDb
