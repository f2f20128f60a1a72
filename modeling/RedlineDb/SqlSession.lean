import Mathlib.Logic.Function.Basic
import RedlineDb.Lib.Run
import RedlineDb.Lib.Versions
import RedlineDb.SqlStatement
import RedlineDb.Tx

/-!
# Sessions

The kernel as statements see it, `with_write_tx`, `execute_prepared`, and the transaction control of
a connection: BEGIN, COMMIT, ROLLBACK, SAVEPOINT, RELEASE and ROLLBACK TO with its journal.

The kernel keeps the chain of each row, newest version first, and a reader gets the newest version
whose writer it sees, as the engine's reads do. An insert starts a new chain, and nothing in an
index is undone by a rollback: an entry stays, with its creator and its last deleter. Each version
and entry also names the statement that wrote it, and `Db` counts statements and notes which of them
failed; the source keeps neither. A statement runs without other sessions in between; sessions
interleave by statements.
-/

namespace RedlineDb.Exec

structure Writer where
  tx : Nat
  stmt : Nat
deriving DecidableEq

abbrev Version (V : Type) := Lib.Version Writer V

/-- An entry of a leaf; `deleteTx` is its delete marker. -/
structure IndexEntry where
  createTx : Writer
  deleteTx : Option Writer
deriving DecidableEq

def IndexEntry.visible (sees : Writer → Bool) (e : IndexEntry) : Bool :=
  sees e.createTx && !e.deleteTx.any sees

/-- `unique` is a key of `UniqueKeyLockTable`. -/
inductive LockKey (K : Type)
  | row (k : K)
  | unique (k : K)
deriving DecidableEq

inductive CommitOutcome
  | committed
  | maybeCommitted
  | rolledBack
  | failed (e : Error)
deriving DecidableEq

def CommitOutcome.error : CommitOutcome → Error
  | .maybeCommitted => .commitMaybeCommitted
  | .failed e => e
  | _ => .transactionState "transaction rolled back"

/-- `entries` are the index entries of one key and row, in their order. `txns` gives the isolation
and the snapshot of each transaction. `outcomes` is what happens to the next commits; they succeed
when it is used up. `cut` notes where a write has taken something out of reach that a new
transaction would read; the source does not keep it. -/
structure Kernel (K V : Type) where
  versions : K → List (Version V)
  entries : K → List IndexEntry
  keys : List K
  txs : ConcurrentTxStatus
  txns : Nat → Isolation × Snapshot
  locks : LockKey K → Option Nat
  nextRow : Nat
  random : Nat
  outcomes : List CommitOutcome
  cut : List K

/-- The part of a session that row-level code changes. Sequences go by table. -/
structure Vars where
  sequences : Nat → Option Nat
  dirty : List Nat
  changes : Nat
  totalChanges : Nat
  lastInsertRowid : Option Nat
  deferredFk : List FkCheck

/-- `SavepointFrame`. -/
structure Savepoint where
  name : String
  journalLen : Nat
  changes : Nat
  totalChanges : Nat
  lastInsertRowid : Option Nat
  implicitTx : Bool

/-- `savepoints` is the stack, bottom first. `txSequences` is `sqlite_sequences_tx_snapshot`. -/
structure Session (K V : Type) where
  tx : Option Nat
  failed : Bool
  vars : Vars
  txSequences : Option (Nat → Option Nat)
  savepoints : List Savepoint
  journal : List (Stmt K V)
  replaying : Bool

/-- `stmt` is the number of the last statement begun, `failedStmts` those that returned an error. -/
structure Db (K V : Type) where
  kernel : Kernel K V
  sessions : Nat → Session K V
  sequences : Nat → Option Nat
  stmt : Nat
  failedStmts : List Nat

variable {K V α : Type} [LinearOrder K]
namespace Kernel
variable (κ : Kernel K V) (t stmt : Nat)

def nextTx : Nat := κ.txs.begin.1

def begin (isolation : Isolation) : Kernel K V :=
  { κ with
    txs := κ.txs.begin.2
    txns := Function.update κ.txns κ.nextTx (isolation, κ.txs.begin.2.snapshot) }

/-- `refresh_read_committed`: a read-committed transaction reads at the latest snapshot. -/
def view : Snapshot :=
  match κ.txns t with
  | (.readCommitted, _) => κ.txs.snapshot
  | (_, snapshot) => snapshot

def sees (w : Writer) : Bool := κ.txs.isTxVisible w.tx (κ.view t) (some t)

def seesLatest (w : Writer) : Bool := κ.txs.isTxVisible w.tx κ.txs.snapshot (some t)

/-- What a transaction that begins now sees. -/
def commits (w : Writer) : Bool := κ.txs.isTxVisible w.tx κ.txs.snapshot none

def read (sees : Writer → Bool) (k : K) : Option V := Lib.newest sees (κ.versions k)

def rowsWhere (sees : Writer → Bool) (p : K → Bool) : List (K × V) :=
  ((κ.keys.filter p).insertionSort (· ≤ ·)).filterMap fun k => (κ.read sees k).map fun v => (k, v)

def entriesWhere (sees : Writer → Bool) (p : K → Bool) : List K :=
  ((κ.keys.filter p).insertionSort (· ≤ ·)).flatMap fun k =>
    ((κ.entries k).filter (·.visible sees)).map fun _ => k

/-- The row, and the number of index entries, that a transaction that begins now finds. -/
def committed (k : K) : Option V := κ.read κ.commits k

def committedEntries (k : K) : Nat := (κ.entries k).countP (·.visible κ.commits)

/-- A lock that another transaction holds is waited for until the timeout. -/
def lockFor (key : LockKey K) : Except Error Unit × Kernel K V :=
  match κ.locks key with
  | none => (.ok (), { κ with locks := Function.update κ.locks key (some t) })
  | some owner => if owner = t then (.ok (), κ) else (.error .lockTimeout, κ)

def withKey (k : K) : List K := if k ∈ κ.keys then κ.keys else k :: κ.keys

def cutAt (k : K) (cut : Bool) : List K := if cut then k :: κ.cut else κ.cut

def write (k : K) (value : Option V) : Kernel K V :=
  { κ with
    versions := Function.update κ.versions k (⟨⟨t, stmt⟩, value⟩ :: κ.versions k)
    keys := κ.withKey k }

/-- `insert_recovered_at`: the new tuple has nothing behind it, whatever the row's head was. -/
def insert (k : K) (value : V) : Kernel K V :=
  { κ with
    versions := Function.update κ.versions k [⟨⟨t, stmt⟩, some value⟩]
    keys := κ.withKey k
    cut := κ.cutAt k (κ.committed k).isSome }

/-- `insert_tx`. A unique index takes no second entry for a key and row, be the first one deleted or
aborted. -/
def insertEntry (unique : Bool) (pos : Nat) (k : K) : Except Error Unit × Kernel K V :=
  if unique ∧ κ.entries k ≠ [] then (.error .writeConflict, κ)
  else
    (.ok (), { κ with
      entries := Function.update κ.entries k
        ((κ.entries k).take pos ++ ⟨⟨t, stmt⟩, none⟩ :: (κ.entries k).drop pos)
      keys := κ.withKey k })

/-- `delete_mark_tx_visible`: the first entry gets the marker, in the place of one the transaction
does not see. -/
def deleteEntry (k : K) : Kernel K V :=
  match κ.entries k with
  | [] => κ
  | e :: rest =>
    if e.deleteTx.any (κ.sees t) then κ
    else
      { κ with
        entries := Function.update κ.entries k ({ e with deleteTx := some ⟨t, stmt⟩ } :: rest)
        cut := κ.cutAt k (e.deleteTx.any κ.commits) }

/-- An update or delete needs a row that is there and whose newest version the transaction sees. -/
def checkCurrent (k : K) : Except Error Unit :=
  match (κ.versions k).find? fun v => κ.txs.state v.tx.tx ≠ .aborted with
  | none => .error .notVisible
  | some v =>
    if κ.sees t v.tx then if v.value.isSome then .ok () else .error .notVisible
    else .error .writeConflict

def modify (k : K) (value : Option V) : Except Error Unit × Kernel K V :=
  match κ.lockFor t (.row k) with
  | (.error e, κ) => (.error e, κ)
  | (.ok _, κ) =>
    match κ.checkCurrent t k with
    | .error e => (.error e, κ)
    | .ok _ => (.ok (), κ.write t stmt k value)

def releaseLocks : Kernel K V :=
  { κ with locks := fun key => if κ.locks key = some t then none else κ.locks key }

/-- `Engine::rollback`; the session clears its unique guards right after it. -/
def rollback : Kernel K V := { κ with txs := κ.txs.abort t }.releaseLocks t

/-- A `Txn` that is dropped is aborted; its locks stay. -/
def dropTxn : Kernel K V := { κ with txs := κ.txs.abort t }

/-- `Engine::commit`. A commit that is reported as uncertain is published like any other; when it
fails, the transaction is aborted in memory. -/
def commit : CommitOutcome × Kernel K V :=
  let csn := κ.txs.reserveCommitCsn.1
  let txs := κ.txs.reserveCommitCsn.2
  let published : Kernel K V :=
    { κ with txs := txs.publishCommit t csn, outcomes := κ.outcomes.tail }.releaseLocks t
  match κ.outcomes.headD .committed with
  | .committed => (.committed, published)
  | .maybeCommitted => (.maybeCommitted, published)
  | outcome =>
    (outcome, { κ with
      txs := (txs.cancelReservedCsn csn).abort t, outcomes := κ.outcomes.tail }.releaseLocks t)

end Kernel

/-- How the kernel and the session answer the calls of transaction `t`. -/
def handle (t stmt : Nat) (s : Kernel K V × Vars) :
    (c : Call K V) → Except Error c.Reply × (Kernel K V × Vars)
  | .get k => (.ok (s.1.read (s.1.sees t) k), s)
  | .scan p => (.ok (s.1.rowsWhere (s.1.sees t) p), s)
  | .probe p => (.ok (s.1.rowsWhere (s.1.seesLatest t) p), s)
  | .scanEntries p => (.ok (s.1.entriesWhere (s.1.sees t) p), s)
  | .probeEntries p => (.ok (s.1.entriesWhere (s.1.seesLatest t) p), s)
  | .lock k => let r := s.1.lockFor t (.row k); (r.1, r.2, s.2)
  | .lockUnique k => let r := s.1.lockFor t (.unique k); (r.1, r.2, s.2)
  | .insert k v => (.ok (), s.1.insert t stmt k v, s.2)
  | .update k v => let r := s.1.modify t stmt k (some v); (r.1, r.2, s.2)
  | .delete k => let r := s.1.modify t stmt k none; (r.1, r.2, s.2)
  | .insertEntry unique pos k => let r := s.1.insertEntry t stmt unique pos k; (r.1, r.2, s.2)
  | .deleteEntry k => (.ok (), s.1.deleteEntry t stmt k, s.2)
  | .reserveRowId => (.ok s.1.nextRow, { s.1 with nextRow := s.1.nextRow + 1 }, s.2)
  | .random => (.ok s.1.random, { s.1 with random := s.1.random + 1 }, s.2)
  | .sequence table => (.ok (s.2.sequences table), s)
  | .setSequence table value =>
    (.ok (), s.1, { s.2 with
      sequences := Function.update s.2.sequences table value, dirty := s.2.dirty.insert table })
  | .sessionInfo => (.ok ⟨s.2.changes, s.2.totalChanges, s.2.lastInsertRowid⟩, s)
  | .setLastInsertRowid rowid => (.ok (), s.1, { s.2 with lastInsertRowid := some rowid })
  | .queueFk check => (.ok (), s.1, { s.2 with deferredFk := s.2.deferredFk ++ [check] })
  | .recordChanges n =>
      (.ok (), s.1, { s.2 with changes := n, totalChanges := s.2.totalChanges + n })

/-- `is_retryable_autocommit_write_error`. -/
def isRetryable : Error → Bool
  | .serializationFailure | .writeConflict | .lockTimeout => true
  | _ => false

def autocommitWriteRetryLimit : Nat := 4096

variable (schema : Schema K V)
namespace Db
variable (db : Db K V) (c : Nat)

def setSession (s : Session K V) : Db K V := { db with sessions := Function.update db.sessions c s }

def setVars (vars : Vars) : Db K V := db.setSession c { db.sessions c with vars }

def runIn (t : Nat) (f : RowProg K V α) : Except Error α × Db K V :=
  let r := f.run (handle t db.stmt) (db.kernel, (db.sessions c).vars)
  (r.1, { db with kernel := r.2.1 }.setVars c r.2.2)

def begin (isolation : Isolation) : Db K V := { db with kernel := db.kernel.begin isolation }

def rollbackTx (t : Nat) : Db K V := { db with kernel := db.kernel.rollback t }

def publishSequences (vars : Vars) : Db K V :=
  { db with sequences := fun table => if table ∈ vars.dirty then vars.sequences table
    else db.sequences table }

def drainDeferred (t : Nat) : Except Error Unit × Db K V :=
  let vars := (db.sessions c).vars
  let db := db.setVars c { vars with deferredFk := [] }
  if schema.foreignKeys then
    db.runIn c t (vars.deferredFk.forM fun check => (schema.checkDeferred check).val)
  else (.ok (), db)

/-- The end of an autocommit attempt that does not commit: sequences go back to where the statement
began. -/
def abandon (t : Nat) (before : Vars) : Db K V :=
  let db := db.rollbackTx t
  db.setSession c { db.sessions c with
    txSequences := none
    vars := { (db.sessions c).vars with sequences := before.sequences, dirty := before.dirty } }

/-- `commit` and what follows it in `with_write_tx`. -/
def commitAttempt (t : Nat) (before : Vars) (value : α) : Except Error α × Db K V :=
  match db.kernel.commit t with
  | (.committed, κ) =>
    let db := { db with kernel := κ }
    let s := db.sessions c
    (.ok value, (db.publishSequences s.vars).setSession c
      { s with txSequences := none, vars := { s.vars with dirty := [] } })
  | (outcome, κ) =>
    -- also when the commit is uncertain the sequences are not published
    let db := { db with kernel := κ }
    let s := db.sessions c
    (.error outcome.error, db.setSession c { s with
      txSequences := none, vars :=
        { s.vars with sequences := before.sequences, dirty := before.dirty } })

def finishAttempt (t : Nat) (before : Vars) (value : α) : Except Error α × Db K V :=
  match db.drainDeferred schema c t with
  | (.error e, db) => (.error e, db.abandon c t before)
  | (.ok _, db) => db.commitAttempt c t before value

/-- The loop of `with_write_tx` outside a transaction, with the retries left. -/
def autocommitLoop (before : Vars) (f : RowProg K V α) : Nat → Db K V → Except Error α × Db K V
  | attempts, db =>
    let t := db.kernel.nextTx
    match (db.begin .readCommitted).runIn c t f with
    | (.ok value, db) => db.finishAttempt schema c t before value
    | (.error e, db) =>
      match attempts with
      | 0 => (.error e, db.abandon c t before)
      | attempts + 1 =>
        if isRetryable e then autocommitLoop before f attempts (db.abandon c t before)
        else (.error e, db.abandon c t before)

def withWriteTx (f : RowProg K V α) : Except Error α × Db K V :=
  let s := db.sessions c
  if s.failed then (.error (.transactionState "transaction is failed and must roll back"), db)
  else
    match s.tx with
    | some t =>
      match db.runIn c t f with
      | (.ok value, db) => (.ok value, db)
      | (.error e, db) =>
        let s' := db.sessions c
        (.error e, db.setSession c { s' with
          failed := true, vars :=
            { s'.vars with sequences := s.vars.sequences, dirty := s.vars.dirty } })
    | none =>
      let before := { s.vars with sequences := db.sequences }
      autocommitLoop schema c before f autocommitWriteRetryLimit (db.setVars c before)

/-- A SELECT of a top-level statement runs in the session's transaction or in one of its own. When
it fails while it is stepped, the session's transaction is dropped with it. -/
def runQuery (q : Query K V α) : Except Error α × Db K V :=
  match (db.sessions c).tx with
  | some t =>
    match db.runIn c t q.build.val with
    | (.error e, db) => (.error e, db)
    | (.ok _, db) =>
      match db.runIn c t q.rows.val with
      | (.error e, db) =>
        (.error e, { db with kernel := db.kernel.dropTxn t }.setSession c
          { db.sessions c with tx := none })
      | (.ok a, db) => (.ok a, db)
  | none =>
    let t := db.kernel.nextTx
    match (db.begin .snapshot).runIn c t q.prog with
    | (.error e, db) => (.error e, { db with kernel := db.kernel.dropTxn t })
    | (.ok a, db) => (.ok a, db.rollbackTx t)

def recordRowChanges (n : Nat) : Db K V :=
  let vars := (db.sessions c).vars
  db.setVars c { vars with changes := n, totalChanges := vars.totalChanges + n }

def each {β : Type} (f : Db K V → β → Except Error Unit × Db K V) :
    List β → Db K V → Except Error Unit × Db K V
  | [], db => (.ok (), db)
  | b :: bs, db =>
    match f db b with
    | (.ok _, db) => each f bs db
    | (.error e, db) => (.error e, db)

/-- `evaluate_when_predicate` outside a write transaction. -/
def evaluateWhen (trigger : Trigger K V) (scope : Scope V) : Except Error Bool × Db K V :=
  match trigger.when? with
  | some query => db.runQuery c (query scope)
  | none => (.ok true, db)

section
variable (exec : Db K V → Scope V → Stmt K V → Except Error Nat × Db K V) (scope : Scope V)

def bodyStatement (db : Db K V) (parse : Scope V → Except Error (Stmt K V)) :
    Except Error Unit × Db K V :=
  match parse scope with
  | .error e => (.error e, db)
  | .ok stmt =>
    match exec db scope stmt with
    | (.ok _, db) => (.ok (), db)
    | (.error e, db) => (.error e, db)

/-- `run_body_with_context` outside a write transaction. -/
def runBodyTop (new : TriggerRow V) (db : Db K V) (trigger : Trigger K V) :
    Except Error Unit × Db K V :=
  match db.evaluateWhen c trigger (pushRows scope none (some new)) with
  | (.error e, db) => (.error e, db)
  | (.ok false, db) => (.ok (), db)
  | (.ok true, db) => each (bodyStatement exec (pushRows scope none (some new))) trigger.body db

/-- `fire_instead_of_insert` outside a write transaction. -/
def fireInsteadOfTop (view : String) (values : V) : Except Error Unit × Db K V :=
  match schema.triggersFor view .insert .insteadOf with
  | [] => (.error (.unsupportedSql ("cannot modify " ++ view ++ " because it is a view")), db)
  | triggers => each (runBodyTop c exec scope ⟨1, values⟩) triggers db

def insertViewRow (view : String) (db : Db K V) (row : Query K V V) : Except Error Unit × Db K V :=
  match db.runQuery c row with
  | (.error e, db) => (.error e, db)
  | (.ok values, db) => db.fireInsteadOfTop schema c exec scope view values

end

def writeAndRecord (f : RowProg K V Nat) : Except Error Nat × Db K V :=
  match db.withWriteTx schema c f with
  | (.ok n, db) => (.ok n, db.recordRowChanges c n)
  | (.error e, db) => (.error e, db)

/-- `execute_prepared` of a statement that is not in the body of a table's trigger. -/
def execute : Nat → Db K V → Scope V → Stmt K V → Except Error Nat × Db K V
  | 0, db, _, _ => (.error .stackOverflow, db)
  | stack + 1, db, scope, stmt =>
    match stmt with
    | .insert plan =>
      match plan.auth with
      | .deny => (.error .notAuthorized, db)
      | .ignore => (.ok 0, db.recordRowChanges c 0)
      | .allow =>
        match plan.source with
        | .values _ => db.writeAndRecord schema c
            (insertBody schema (stmtProg schema stack) 0 scope plan [])
        | .select rows _ =>
          match db.runQuery c rows with
          | (.error e, db) => (.error e, db)
          | (.ok sourceRows, db) =>
            db.writeAndRecord schema c
              (insertBody schema (stmtProg schema stack) 0 scope plan sourceRows)
    | .update plan =>
      match plan.auth with
      | .deny => (.error .notAuthorized, db)
      | .ignore => (.ok 0, db.recordRowChanges c 0)
      | .allow =>
        match plan.classify with
        | .error e => (.error e, db)
        | .ok _ => db.writeAndRecord schema c
            (updateBody schema (stmtProg schema stack) 0 scope plan)
    | .delete plan =>
      match plan.auth with
      | .deny => (.error .notAuthorized, db)
      | .ignore => (.ok 0, db.recordRowChanges c 0)
      | .allow => db.writeAndRecord schema c
          (deleteBody schema (stmtProg schema stack) 0 scope plan)
    | .merge plan => db.writeAndRecord schema c (mergeBody plan)
    | .insertView plan =>
      match each (insertViewRow schema c (execute stack) scope plan.view) plan.rows db with
      | (.ok _, db) => (.ok plan.rows.length, db.recordRowChanges c plan.rows.length)
      | (.error e, db) => (.error e, db)
    | .select query =>
      match db.runQuery c query with
      | (.ok _, db) => (.ok 0, db)
      | (.error e, db) => (.error e, db)

/-- `Statement::step` of a fresh statement. It is journalled when it succeeded; SELECTs and RQL
statements never are. A statement whose commit is uncertain has not failed: it is committed in
memory. -/
def statement (stack : Nat) (rql : Bool) (stmt : Stmt K V) : Except Error Nat × Db K V :=
  let db := { db with stmt := db.stmt + 1 }
  match db.execute schema c stack [] stmt with
  | (.ok n, db) =>
    let s := db.sessions c
    if stmt.readonly ∨ rql ∨ s.replaying ∨ s.tx = none then (.ok n, db)
    else (.ok n, db.setSession c { s with journal := s.journal ++ [stmt] })
  | (.error .commitMaybeCommitted, db) => (.error .commitMaybeCommitted, db)
  | (.error e, db) => (.error e, { db with failedStmts := db.stmt :: db.failedStmts })

def beginTx : Except Error Unit × Db K V :=
  let s := db.sessions c
  if s.tx.isSome then (.error (.transactionState "transaction already active"), db)
  else
    (.ok (), (db.begin .snapshot).setSession c { s with
      tx := some db.kernel.nextTx, failed := false, savepoints := [], journal := []
      txSequences := some db.sequences
      vars := { s.vars with sequences := db.sequences, dirty := [], deferredFk := [] } })

def Session.closed (s : Session K V) : Session K V :=
  { s with
    tx := none, savepoints := [], journal := [], txSequences := none
    vars := { s.vars with sequences := s.txSequences.getD s.vars.sequences, deferredFk := [] } }

def commitTx : Except Error Unit × Db K V :=
  let s := db.sessions c
  if s.failed then (.error (.transactionState "transaction is failed and must roll back"), db)
  else
    match s.tx with
    | none => (.error (.transactionState "no active transaction"), db)
    | some t =>
      match db.drainDeferred schema c t with
      | (.error e, db) =>
        let db := db.rollbackTx t
        (.error e, db.setSession c { Session.closed (db.sessions c) with failed := false })
      | (.ok _, db) =>
        match db.kernel.commit t with
        | (.committed, κ) =>
          let db := { db with kernel := κ }
          let s := db.sessions c
          (.ok (), (db.publishSequences s.vars).setSession c { s with
            tx := none, savepoints := [], journal := [], txSequences := none
            vars := { s.vars with dirty := [], deferredFk := [] } })
        | (.maybeCommitted, κ) =>
          -- the sequences stay as the transaction left them, unpublished
          let db := { db with kernel := κ }
          let s := db.sessions c
          (.error .commitMaybeCommitted, db.setSession c { s with
            tx := none, savepoints := [], journal := [], txSequences := none
            vars := { s.vars with dirty := [], deferredFk := [] } })
        | (outcome, κ) =>
          let db := { db with kernel := κ }
          let s := Session.closed (db.sessions c)
          (.error outcome.error, db.setSession c { s with vars := { s.vars with dirty := [] } })

def rollbackSession : Except Error Unit × Db K V :=
  match (db.sessions c).tx with
  | none => (.error (.transactionState "no active transaction"), db)
  | some t =>
    let db := db.rollbackTx t
    let s := Session.closed (db.sessions c)
    (.ok (), db.setSession c { s with failed := false, vars := { s.vars with dirty := [] } })

def pushFrame (name : String) (implicitTx : Bool) : Db K V :=
  let s := db.sessions c
  db.setSession c { s with savepoints := s.savepoints ++ [{
    name, implicitTx
    journalLen := s.journal.length
    changes := s.vars.changes
    totalChanges := s.vars.totalChanges
    lastInsertRowid := s.vars.lastInsertRowid }] }

/-- `Connection::savepoint`; outside a transaction it opens one. -/
def savepoint (name : String) : Db K V :=
  let s := db.sessions c
  match s.tx with
  | some _ => db.pushFrame c name false
  | none =>
    ((db.begin .snapshot).setSession c { s with
      tx := some db.kernel.nextTx, failed := false
      txSequences := some (s.txSequences.getD db.sequences)
      vars := { s.vars with sequences := db.sequences, dirty := [] } }).pushFrame c name true

/-- `rposition`: the topmost frame of a name, counted from the bottom. -/
def framePos (frames : List Savepoint) (name : String) : Option Nat :=
  (frames.reverse.findIdx? fun f => f.name == name).map fun i => frames.length - 1 - i

def release (name : String) : Except Error Unit × Db K V :=
  let s := db.sessions c
  match framePos s.savepoints name with
  | none => (.error (.transactionState "no such savepoint"), db)
  | some pos =>
    let implicit := (s.savepoints[pos]?.map (·.implicitTx)).getD false
    let db := db.setSession c { s with
      savepoints := s.savepoints.take pos
      -- without a savepoint left nothing is kept for a replay
      journal := if pos = 0 then [] else s.journal }
    if pos = 0 ∧ implicit then db.commitTx schema c else (.ok (), db)

def replayJournal (stack : Nat) : List (Stmt K V) → Db K V → Except Error Unit × Db K V :=
  each fun db stmt =>
    match db.statement schema c stack false stmt with
    | (.ok _, db) => (.ok (), db)
    | (.error e, db) => (.error e, db)

/-- The first phase of `rollback_to`: the transaction is rolled back and the session reset. -/
def rewind (pos : Nat) (frame : Savepoint) : Db K V :=
  let s := db.sessions c
  (match s.tx with
    | some t => db.rollbackTx t
    | none => db).setSession c { s with
    tx := none, failed := false
    savepoints := s.savepoints.take (pos + 1)
    journal := s.journal.take frame.journalLen
    vars := { s.vars with
      changes := 0, totalChanges := 0, lastInsertRowid := none, dirty := []
      sequences := s.txSequences.getD s.vars.sequences } }

/-- `Connection::rollback_to`: a new transaction runs the journal up to the savepoint again. -/
def rollbackTo (stack : Nat) (name : String) : Except Error Unit × Db K V :=
  let s := db.sessions c
  match framePos s.savepoints name with
  | none => (.error (.transactionState "no such savepoint"), db)
  | some pos =>
    match s.savepoints[pos]? with
    | none => (.error (.transactionState "no such savepoint"), db)
    | some frame =>
      let db := db.rewind c pos frame
      let db := (db.begin .snapshot).setSession c { db.sessions c with
        tx := some db.kernel.nextTx, replaying := true }
      let r := db.replayJournal schema c stack (s.journal.take frame.journalLen)
      let s := r.2.sessions c
      (r.1, r.2.setSession c { s with
        replaying := false
        journal := s.journal.take frame.journalLen
        vars := { s.vars with
          changes := frame.changes, totalChanges := frame.totalChanges
          lastInsertRowid := frame.lastInsertRowid } })

end Db

inductive Action (K V : Type)
  | statement (c stack : Nat) (rql : Bool) (stmt : Stmt K V)
  | begin (c : Nat)
  | commit (c : Nat)
  | rollback (c : Nat)
  | savepoint (c : Nat) (name : String)
  | release (c : Nat) (name : String)
  | rollbackTo (c stack : Nat) (name : String)

namespace Db

def act (db : Db K V) : Action K V → Except Error Unit × Db K V
  | .statement c stack rql stmt =>
    match db.statement schema c stack rql stmt with
    | (.ok _, db) => (.ok (), db)
    | (.error e, db) => (.error e, db)
  | .begin c => db.beginTx c
  | .commit c => db.commitTx schema c
  | .rollback c => db.rollbackSession c
  | .savepoint c name => (.ok (), db.savepoint c name)
  | .release c name => db.release schema c name
  | .rollbackTo c stack name => db.rollbackTo schema c stack name

/-- An action that returns an error to its client is a step like any other. -/
def step (db : Db K V) (a : Action K V) : Except Error (Db K V) := .ok (db.act schema a).2

def noVars : Vars := ⟨fun _ => none, [], 0, 0, none, []⟩

/-- A new database with no session in a transaction; `outcomes` is what will happen to its commits.
-/
def create (outcomes : List CommitOutcome) : Db K V where
  kernel := {
    versions := fun _ => []
    entries := fun _ => []
    keys := []
    txs := .new
    txns := fun _ => (.snapshot, ⟨0, 0, 0⟩)
    locks := fun _ => none
    nextRow := 1
    random := 0
    outcomes
    cut := [] }
  sessions := fun _ => ⟨none, false, noVars, none, [], [], false⟩
  sequences := fun _ => none
  stmt := 0
  failedStmts := []

end Db
end RedlineDb.Exec
