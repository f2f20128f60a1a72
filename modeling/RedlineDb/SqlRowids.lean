import Mathlib.Data.Rat.Defs
import RedlineDb.LiveRows

/-!
# Row ids of SQL statements

`choose_rowid_for_insert`, `choose_rowid_for_update` and `lower_rowid_allocator_after_delete` over
the engine-wide row counter, with the `sqlite_sequence` values of each session. A statement chooses
its row id first and inserts later, and a scan for the largest row id reads row by row, so other
sessions run in between. Constraint checks and the unique indexes only ever end a statement early:
`discard`.
-/

namespace RedlineDb
open Lib

/-- The value a statement gives the rowid alias column; `other` is text, a blob or a real that is
not finite. -/
inductive SqlValue
  | null
  | integer (v : Int)
  | real (v : Rat)
  | other
deriving DecidableEq

def SqlValue.explicitRowid : SqlValue → Except Error Nat
  | .integer v => if 0 ≤ v then .ok v.toNat else .error .datatypeMismatch
  | .real v => if 0 ≤ v ∧ v.den = 1 then .ok (min v.num.toNat maxRowId)
      else .error .datatypeMismatch
  | _ => .error .datatypeMismatch

/-- `rowidAlias`: the table has an `INTEGER PRIMARY KEY`. -/
structure TableDef where
  relationId : Nat
  rowidAlias : Bool
  autoincrement : Bool
  /-- Relation ids of tables start at 10000; id 0 would be the engine's own relation. -/
  relation_ne : relationId ≠ 0

/-- `sequences` and `dirty` go by table; `txSnapshot` and `stmtSnapshot` are what a rollback or a
failed statement goes back to. -/
structure Session where
  tx : Option Nat
  sequences : Nat → Nat
  dirty : List Nat
  txSnapshot : Nat → Nat
  stmtSnapshot : (Nat → Nat) × List Nat

/-- Where a row id comes from: the statement, the engine's row counter, or the table's sequence. -/
inductive RowidSource
  | explicit | counter | sequence
deriving DecidableEq

/-- A row id chosen and not yet inserted. Only INSERTs record it in the sequence afterwards. -/
structure Choice where
  session : Nat
  tx : Nat
  table : TableDef
  rowid : Nat
  source : RowidSource
  isInsert : Bool

structure Scan where
  tx : Nat
  relationId : Nat
  todo : List Nat
  found : List Nat

/-- `scans` and `choices` go by statement. `lowered` lists the rows whose DELETE has lowered the
counter, until their row id is used again; the source does not keep it. -/
structure Sql where
  engine : Engine
  sequences : Nat → Nat
  sessions : Nat → Session
  scans : AList (fun _ : Nat => Scan)
  choices : AList (fun _ : Nat => Choice)
  lowered : List (Nat × Nat)

inductive SqlAction
  | loadSequences (session : Nat)
  | begin (session : Nat) (isolation : Isolation)
  | startStatement (session : Nat)
  | failStatement (session : Nat)
  | startScan (session stmt : Nat) (table : TableDef)
  | scanNext (stmt : Nat)
  | chooseInsert (session stmt : Nat) (table : TableDef) (value : SqlValue)
  | chooseUpdate (session stmt : Nat) (table : TableDef) (value : SqlValue) (current : Nat)
  | insert (stmt : Nat) (payload : Bytes)
  | discard (stmt : Nat)
  | lowerAfterDelete (stmt : Nat) (table : TableDef) (deleted : Nat)
  | call (op : Op)
  | publishSequences (session : Nat)
  | endTransaction (session : Nat)

def maxSequence : Nat := 2 ^ 63 - 1

def maxRowid (rowids : List Nat) : Nat := rowids.foldl max 0

/-- Calls a statement makes besides BEGIN and INSERT, which have their own actions. -/
def Op.isCall : Op → Bool
  | .begin _ => false
  | .insertForRelation .. => false
  | _ => true

namespace Session

def setSequence (σ : Session) (rel value : Nat) : Session :=
  { σ with sequences := fun r => if r = rel then value else σ.sequences r, dirty := rel :: σ.dirty }

def recordRowid (σ : Session) (table : TableDef) (rowid : Nat) : Session :=
  if table.autoincrement ∧ σ.sequences table.relationId < min rowid maxSequence then
    σ.setSequence table.relationId (min rowid maxSequence)
  else σ

end Session

namespace Sql

def create (relId lanes : Nat) (pageSize : PageSize) (segmentBytes walBufferBytes : Nat) : Sql where
  engine := .create relId lanes pageSize segmentBytes walBufferBytes
  sequences := fun _ => 0
  sessions := fun _ => ⟨none, fun _ => 0, [], fun _ => 0, fun _ => 0, []⟩
  scans := ∅
  choices := ∅
  lowered := []

variable (s : Sql)

def sessionTx (c : Nat) : Except Error Nat :=
  match (s.sessions c).tx with
  | some tx => .ok tx
  | none => .error (.transactionState "no active transaction")

def setSession (c : Nat) (σ : Session) : Sql :=
  { s with sessions := fun d => if d = c then σ else s.sessions d }

def reserveRowId : Nat × Sql :=
  let (row, heap) := s.engine.heap.reserveRowId
  (row, { s with engine := { s.engine with heap } })

def scanned (stmt rel : Nat) : Except Error (List Nat) :=
  match s.scans.lookup stmt with
  | some scan =>
    if scan.todo = [] ∧ scan.relationId = rel then .ok scan.found
    else .error (.transactionState "scan not finished")
  | none => .error (.transactionState "no scan")

def sqliteSequenceNextRowid (c stmt : Nat) (table : TableDef) : Except Error (Nat × Sql) := do
  let rowids ← s.scanned stmt table.relationId
  require (maxRowid rowids ≤ maxSequence) (.constraintViolation "database or disk is full")
  let base := max ((s.sessions c).sequences table.relationId) (maxRowid rowids)
  require (base + 1 ≤ maxSequence) (.constraintViolation "database or disk is full")
  return (base + 1, s.setSession c ((s.sessions c).setSequence table.relationId (base + 1)))

def chooseRowidForInsert (c stmt : Nat) (table : TableDef) (value : SqlValue) :
    Except Error ((Nat × RowidSource) × Sql) :=
  if table.rowidAlias then
    if value = .null then
      if table.autoincrement then do
        let (rowid, s) ← s.sqliteSequenceNextRowid c stmt table
        return ((rowid, .sequence), s)
      else
        let (rowid, s) := s.reserveRowId
        .ok ((rowid, .counter), s)
    else do
      let rowid ← value.explicitRowid
      return ((rowid, .explicit), s.setSession c ((s.sessions c).recordRowid table rowid))
  else
    let (rowid, s) := s.reserveRowId
    .ok ((rowid, .counter), s)

def chooseRowidForUpdate (table : TableDef) (value : SqlValue) (current : Nat) :
    Except Error ((Nat × RowidSource) × Sql) :=
  if table.rowidAlias then
    if value = .null then
      let (rowid, s) := s.reserveRowId
      .ok ((rowid, .counter), s)
    else do
      let rowid ← value.explicitRowid
      return ((rowid, .explicit), s)
  else .ok ((current, .explicit), s)

/-- `lower_rowid_allocator_after_delete`, which runs before the row is deleted. Only tables with a
rowid alias lower the counter. -/
def lowerRowidAllocatorAfterDelete (stmt : Nat) (table : TableDef) (deleted : Nat) :
    Except Error Sql :=
  if table.rowidAlias then do
    let rowids ← s.scanned stmt table.relationId
    let nextRow := min (maxRowid (rowids.filter (· ≠ deleted)) + 1) maxRowId
    return { s with
      engine := { s.engine with heap := s.engine.heap.lowerNextRow nextRow }
      lowered := (table.relationId, deleted) :: s.lowered }
  else .ok s

/-- An UPDATE that keeps the row id is an engine call; one that changes it deletes the row and
inserts another. -/
def step : SqlAction → Except Error Sql
  | .loadSequences c =>
    .ok (s.setSession c { s.sessions c with
      sequences := s.sequences, txSnapshot := s.sequences, dirty := [] })
  | .begin c isolation => do
    require ((s.sessions c).tx = none) (.transactionState "transaction already active")
    let engine ← s.engine.begin isolation
    return { s with engine }.setSession c { s.sessions c with tx := some s.engine.txs.nextTx }
  | .startStatement c =>
    .ok (s.setSession c
      { s.sessions c with stmtSnapshot := ((s.sessions c).sequences, (s.sessions c).dirty) })
  | .failStatement c =>
    .ok (s.setSession c { s.sessions c with
      sequences := (s.sessions c).stmtSnapshot.1, dirty := (s.sessions c).stmtSnapshot.2 })
  | .startScan c stmt table => do
    let tx ← s.sessionTx c
    let todo := (s.engine.heap.relationRowids table.relationId).insertionSort (· ≤ ·)
    return { s with scans := s.scans.insert stmt ⟨tx, table.relationId, todo, []⟩ }
  | .scanNext stmt =>
    match s.scans.lookup stmt with
    | some ⟨tx, rel, row :: todo, found⟩ => do
      let (payload, engine) ← s.engine.getForRelation tx rel row
      return { s with
        engine, scans :=
          s.scans.insert stmt ⟨tx, rel, todo, if payload.isSome then found ++ [row] else found⟩ }
    | _ => .error (.transactionState "no scan")
  | .chooseInsert c stmt table value => do
    let tx ← s.sessionTx c
    require (s.choices.lookup stmt = none) (.transactionState "statement busy")
    let ((rowid, source), s) ← s.chooseRowidForInsert c stmt table value
    return { s with choices := s.choices.insert stmt ⟨c, tx, table, rowid, source, true⟩ }
  | .chooseUpdate c stmt table value current => do
    let tx ← s.sessionTx c
    require (s.choices.lookup stmt = none) (.transactionState "statement busy")
    let ((rowid, source), s) ← s.chooseRowidForUpdate table value current
    if rowid = current then return s
    else return { s with choices := s.choices.insert stmt ⟨c, tx, table, rowid, source, false⟩ }
  | .insert stmt payload =>
    match s.choices.lookup stmt with
    | some ch => do
      let engine ← s.engine.insertForRelation ch.tx ch.table.relationId ch.rowid payload
      let s := { s with
        engine, choices := s.choices.erase stmt
        lowered := s.lowered.filter (· ≠ (ch.table.relationId, ch.rowid)) }
      return if ch.isInsert then s.setSession ch.session
        ((s.sessions ch.session).recordRowid ch.table ch.rowid) else s
    | none => .error (.transactionState "no row id chosen")
  | .discard stmt => .ok { s with choices := s.choices.erase stmt }
  | .lowerAfterDelete stmt table deleted => s.lowerRowidAllocatorAfterDelete stmt table deleted
  | .call op => do
    require (op.isCall = true) (.transactionState "not a call")
    let engine ← s.engine.step op
    return { s with engine }
  | .publishSequences c => do
    let tx ← s.sessionTx c
    match s.engine.txs.state tx with
    | .committed _ =>
      return { s with
        sequences := fun rel => if rel ∈ (s.sessions c).dirty then (s.sessions c).sequences rel
          else s.sequences rel
        }.setSession c { s.sessions c with dirty := [], tx := none }
    | _ => throw (.transactionState "transaction not committed")
  | .endTransaction c => do
    let tx ← s.sessionTx c
    match s.engine.txs.state tx with
    | .aborted =>
      return s.setSession c { s.sessions c with
        sequences := (s.sessions c).txSnapshot, dirty := [], tx := none }
    | _ => throw (.transactionState "transaction not rolled back")

end Sql
end RedlineDb
