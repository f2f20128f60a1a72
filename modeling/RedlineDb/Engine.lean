import RedlineDb.Heap

/-!
# The engine's transactions

`Engine` of `engine/runtime`, one step per call: begin, read, insert, lock, update, delete, and the
two halves of a commit. `commit` appends the commit record and waits for the log to be durable
before it publishes, so other transactions run between `appendCommit` and `finishCommit`;
`failCommit` is the same commit when the wait fails. A transaction keeps its record after it is
closed, which the source does not need and a statement about finished transactions does.
-/

namespace RedlineDb

/-- `committing csn endLsn`: the commit record is in the log, up to `endLsn`, and the CSN is
reserved; nothing is published. -/
inductive TxnPhase
  | active
  | committing (csn endLsn : Nat)
  | closed
deriving DecidableEq

structure Txn where
  isolation : Isolation
  snapshot : Snapshot
  rowLocks : List (Nat × Nat)
  phase : TxnPhase
deriving DecidableEq

def Txn.isOpen (t : Txn) : Bool := t.phase = .active

/-- `locks` is the row lock manager: the owner of each locked `(relation, row)`. -/
structure Engine where
  heap : PageBackedHeap
  txs : ConcurrentTxStatus
  locks : AList (fun _ : Nat × Nat => Nat)
  txns : AList (fun _ : Nat => Txn)

inductive Op
  | begin (isolation : Isolation)
  | getForRelation (tx rel row : Nat)
  | insertForRelation (tx rel row : Nat) (payload : Bytes)
  | lockRowForRelation (tx rel row : Nat)
  | updateForRelation (tx rel row : Nat) (payload : Bytes)
  | deleteForRelation (tx rel row : Nat)
  | appendCommit (tx : Nat)
  | finishCommit (tx : Nat)
  | failCommit (tx : Nat)
  | rollback (tx : Nat)
deriving DecidableEq

namespace Engine

def create (relId lanes : Nat) (pageSize : PageSize) (segmentBytes walBufferBytes : Nat) :
    Engine where
  heap := .new relId lanes (.create pageSize) (.create segmentBytes walBufferBytes)
  txs := .new
  locks := ∅
  txns := ∅

variable (e : Engine)

def setTxn (tx : Nat) (t : Txn) : Engine := { e with txns := e.txns.insert tx t }

/-- `ensure_open`. -/
def openTxn (tx : Nat) : Except Error Txn :=
  match e.txns.lookup tx with
  | some t => if t.isOpen then .ok t else .error .transactionClosed
  | none => .error .transactionClosed

def begin (isolation : Isolation) : Except Error Engine := do
  Lib.require (isolation ≠ .serializable) .unsupportedIsolation
  let (tx, txs) := e.txs.begin
  let snapshot := txs.snapshot
  return { e with txs := txs.setActiveSnapshot tx snapshot.visibleCsn }.setTxn tx
    { isolation, snapshot, rowLocks := [], phase := .active }

def refresh (tx : Nat) (t : Txn) : Txn × Engine :=
  if t.isolation = .readCommitted then
    let t := { t with snapshot := e.txs.snapshot }
    (t, { e with txs := e.txs.setActiveSnapshot tx t.snapshot.visibleCsn }.setTxn tx t)
  else (t, e)

/-- `lock_row_in_rel`. A lock that another transaction holds is waited for until the timeout; the
call goes on when the owner has released it. -/
def lockRowInRel (tx : Nat) (t : Txn) (key : Nat × Nat) : Except Error (Txn × Engine) :=
  if key ∈ t.rowLocks then .ok (t, e)
  else
    match e.locks.lookup key with
    | none =>
      let t := { t with rowLocks := t.rowLocks ++ [key] }
      .ok (t, { e with locks := e.locks.insert key tx }.setTxn tx t)
    | some owner =>
      if owner = tx then
        let t := { t with rowLocks := t.rowLocks ++ [key] }
        .ok (t, e.setTxn tx t)
      else .error .lockTimeout

def unlock (locks : AList (fun _ : Nat × Nat => Nat)) (tx : Nat) (key : Nat × Nat) :
    AList (fun _ : Nat × Nat => Nat) :=
  if locks.lookup key = some tx then locks.erase key else locks

def closeTxn (tx : Nat) (t : Txn) : Engine :=
  { e with locks := t.rowLocks.foldl (unlock · tx) e.locks }.setTxn tx
    { t with rowLocks := [], phase := .closed }

def getForRelation (tx rel row : Nat) : Except Error (Option Bytes × Engine) := do
  let t ← e.openTxn tx
  let (t, e) := e.refresh tx t
  let payload ← e.heap.getForRelation e.txs t.snapshot (some tx) rel row
  return (payload, e)

def insertForRelation (tx rel row : Nat) (payload : Bytes) : Except Error Engine := do
  let t ← e.openTxn tx
  let (_, e) := e.refresh tx t
  let heap ← e.heap.insertForRelation tx rel row payload 1
  return { e with heap }

def lockRowForRelation (tx rel row : Nat) : Except Error (Txn × Engine) := do
  let t ← e.openTxn tx
  let (t, e) := e.refresh tx t
  let (t, e) ← e.lockRowInRel tx t (rel, row)
  return e.refresh tx t

def updateForRelation (tx rel row : Nat) (payload : Bytes) : Except Error Engine := do
  let (t, e) ← e.lockRowForRelation tx rel row
  let heap ← e.heap.updateForRelation tx t.snapshot e.txs rel row payload 1
  return { e with heap }

def deleteForRelation (tx rel row : Nat) : Except Error Engine := do
  let (t, e) ← e.lockRowForRelation tx rel row
  let heap ← e.heap.deleteForRelation tx t.snapshot e.txs rel row 1
  return { e with heap }

def update (tx row : Nat) (payload : Bytes) : Except Error Engine :=
  e.updateForRelation tx e.heap.relId row payload

def delete (tx row : Nat) : Except Error Engine :=
  e.deleteForRelation tx e.heap.relId row

/-- `commit` up to the commit record in the log. -/
def appendCommit (tx : Nat) : Except Error Engine := do
  let t ← e.openTxn tx
  let (csn, txs) := e.txs.reserveCommitCsn
  let (append, wal) ← e.heap.wal.appendCommit tx csn
  return { e with txs, heap := { e.heap with wal } }.setTxn tx
    { t with phase := .committing csn append.endLsn }

/-- The rest of `commit` once the log is durable up to the commit record
(`CommitDurability::Strict`). -/
def finishCommit (tx : Nat) : Except Error Engine :=
  match e.txns.lookup tx with
  | some t =>
    match t.phase with
    | .committing csn endLsn => do
      let (_, wal) ← e.heap.wal.flushUntil endLsn
      return { e with txs := e.txs.publishCommit tx csn, heap := { e.heap with wal } }.closeTxn tx t
    | _ => .error .transactionClosed
  | none => .error .transactionClosed

/-- The rest of `commit` when the durability barrier fails, after which the log refuses everything.
-/
def failCommit (tx : Nat) : Except Error Engine :=
  match e.txns.lookup tx with
  | some t =>
    match t.phase with
    | .committing csn _ =>
      .ok ({ e with
        txs := (e.txs.cancelReservedCsn csn).abort tx
        heap := { e.heap with wal := { e.heap.wal with failure := true } } }.closeTxn tx t)
    | _ => .error .transactionClosed
  | none => .error .transactionClosed

def rollback (tx : Nat) : Except Error Engine := do
  let t ← e.openTxn tx
  return { e with txs := e.txs.abort tx }.closeTxn tx t

def step : Op → Except Error Engine
  | .begin isolation => e.begin isolation
  | .getForRelation tx rel row => do return (← e.getForRelation tx rel row).2
  | .insertForRelation tx rel row payload => e.insertForRelation tx rel row payload
  | .lockRowForRelation tx rel row => do return (← e.lockRowForRelation tx rel row).2
  | .updateForRelation tx rel row payload => e.updateForRelation tx rel row payload
  | .deleteForRelation tx rel row => e.deleteForRelation tx rel row
  | .appendCommit tx => e.appendCommit tx
  | .finishCommit tx => e.finishCommit tx
  | .failCommit tx => e.failCommit tx
  | .rollback tx => e.rollback tx

end Engine
end RedlineDb
