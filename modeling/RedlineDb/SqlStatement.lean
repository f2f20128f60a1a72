import RedlineDb.Format
import RedlineDb.Lib.Prog

/-!
# Statements and triggers

INSERT, UPDATE, DELETE, MERGE and INSERT into a view as they run inside a write transaction, with
the triggers they fire (`exec/insert.rs`, `exec/tail.rs`, `exec/merge.rs`, `exec/trigger.rs`). What
a statement does to one row (evaluate, check, lock, write the heap and the indexes, cascade) is a
program over the calls of the transaction: any such program, so a result about statements is a
result about every table, constraint and expression.

`K` names what a transaction can read and write: heap rows, and index entries (an index, a key and a
row) alike; `V` is what a row holds.
-/

namespace RedlineDb.Exec

structure FkCheck where
  childTable : Nat
  childRowid : Nat
  fkIndex : Nat
deriving DecidableEq

structure SessionInfo where
  changes : Nat
  totalChanges : Nat
  lastInsertRowid : Option Nat
deriving DecidableEq

/-- `scan` reads what the transaction's snapshot sees, `probe` what the latest one sees; the calls
that end in `Entry` and `Entries` are those of an index. A new entry goes to any place `pos` among
those with the same key and row. `lockUnique` is `lock_unique_key`. `random` is any source that
differs from run to run. -/
inductive Call (K V : Type)
  | get (k : K)
  | scan (p : K → Bool)
  | probe (p : K → Bool)
  | scanEntries (p : K → Bool)
  | probeEntries (p : K → Bool)
  | lock (k : K)
  | lockUnique (k : K)
  | insert (k : K) (v : V)
  | update (k : K) (v : V)
  | delete (k : K)
  | insertEntry (unique : Bool) (pos : Nat) (k : K)
  | deleteEntry (k : K)
  | reserveRowId
  | random
  | sequence (table : Nat)
  | setSequence (table : Nat) (value : Option Nat)
  | sessionInfo
  | setLastInsertRowid (rowid : Nat)
  | queueFk (check : FkCheck)
  | recordChanges (n : Nat)

variable {K V : Type}
namespace Call

@[reducible] def Reply : Call K V → Type
  | get _ => Option V
  | scan _ | probe _ => List (K × V)
  | scanEntries _ | probeEntries _ => List K
  | reserveRowId => Nat
  | random => Nat
  | sequence _ => Option Nat
  | sessionInfo => SessionInfo
  | _ => Unit

/-- Calls that change nothing but the source of random numbers. -/
def IsRead : Call K V → Prop
  | get _ | scan _ | probe _ | scanEntries _ | probeEntries _ | random | sequence _
  | sessionInfo => True
  | _ => False

end Call

abbrev RowProg (K V α : Type) := Lib.Prog (Call K V) Call.Reply Error α

def ReadProg (K V α : Type) := { p : RowProg K V α // p.Calls Call.IsRead }

/-- A SELECT: what it does when its runtime is built, and what it does when it is stepped to the
end. -/
structure Query (K V α : Type) where
  build : ReadProg K V Unit
  rows : ReadProg K V α

def Query.prog {α : Type} (q : Query K V α) : RowProg K V α := do
  q.build.val
  q.rows.val

inductive AuthorizerDecision
  | allow | deny | ignore
deriving DecidableEq

inductive InsertOutcome (V : Type)
  | inserted (rowid : Nat) (values : V)
  | updated (rowid : Nat) (values : V)
  | ignored

/-- `values` are the rows of a VALUES list; DEFAULT VALUES is a list of one row. The rows of a
SELECT are read before the write transaction, then `build` makes a table row of each. -/
inductive InsertSource (K V : Type)
  | values (rows : List (RowProg K V V))
  | select (rows : Query K V (List V)) (build : V → RowProg K V V)

structure InsertPlan (K V : Type) where
  table : String
  auth : AuthorizerDecision
  source : InsertSource K V
  resolve : V → RowProg K V (InsertOutcome V)
  returning : Option (Nat → V → RowProg K V Unit)

structure TriggerRow (V : Type) where
  rowid : Nat
  values : V

structure UpdateRow (V : Type) where
  old : TriggerRow V
  new : TriggerRow V

/-- `load` locks the row, reads it again and evaluates WHERE and SET; `none` when the row is to be
left alone. `write` is what follows the BEFORE triggers, up to the cascades. -/
structure UpdatePlan (K V : Type) where
  table : String
  auth : AuthorizerDecision
  columns : List String
  classify : Except Error Unit
  targets : RowProg K V (List Nat)
  load : Nat → RowProg K V (Option (UpdateRow V))
  write : UpdateRow V → RowProg K V Unit
  returning : Option (TriggerRow V → RowProg K V Unit)

/-- `load` evaluates WHERE and RETURNING on a target row and reads the row again. -/
structure DeletePlan (K V : Type) where
  table : String
  auth : AuthorizerDecision
  targets : RowProg K V (List (TriggerRow V))
  load : TriggerRow V → RowProg K V (Option (TriggerRow V))
  write : TriggerRow V → RowProg K V Unit

/-- MERGE fires no triggers: `apply` handles one source row and returns how many rows it changed. -/
structure MergePlan (K V : Type) where
  sources : RowProg K V (List V)
  apply : V → RowProg K V Nat

structure InsertViewPlan (K V : Type) where
  view : String
  rows : List (Query K V V)

inductive Stmt (K V : Type)
  | insert (plan : InsertPlan K V)
  | update (plan : UpdatePlan K V)
  | delete (plan : DeletePlan K V)
  | merge (plan : MergePlan K V)
  | insertView (plan : InsertViewPlan K V)
  | select (query : Query K V Unit)

def Stmt.readonly : Stmt K V → Bool
  | .select _ => true
  | _ => false

inductive TriggerEvent
  | insert | update | delete
deriving DecidableEq

inductive TriggerTime
  | before | after | insteadOf
deriving DecidableEq

inductive Alias
  | old | new
deriving DecidableEq

/-- The rows pushed for correlated names, innermost first. -/
abbrev Scope (V : Type) := List (Alias × TriggerRow V)

/-- A statement of the body is parsed each time it runs, which can fail. -/
structure Trigger (K V : Type) where
  name : String
  whenCols : List String
  when? : Option (Scope V → Query K V Bool)
  body : List (Scope V → Except Error (Stmt K V))

/-- `checkDeferred` is the check `drain_deferred_fk_checks` makes for one queued entry. -/
structure Schema (K V : Type) where
  triggersFor : String → TriggerEvent → TriggerTime → List (Trigger K V)
  recursiveTriggers : Bool
  foreignKeys : Bool
  checkDeferred : FkCheck → ReadProg K V Unit

def triggerDepthCap : Nat := 8

def pushRows (scope : Scope V) (old new : Option (TriggerRow V)) : Scope V :=
  let scope := (old.map fun row => (Alias.old, row)).toList ++ scope
  (new.map fun row => (Alias.new, row)).toList ++ scope

def anyColumnInFilter (filter : List String) (changed : Option (List String)) : Bool :=
  match changed with
  | none => true
  | some changed => filter.any fun f => changed.any fun c => c.toLower == f.toLower

variable (schema : Schema K V)

def Trigger.whenProg (trigger : Trigger K V) (scope : Scope V) : RowProg K V Bool :=
  match trigger.when? with
  | some query => (query scope).prog
  | none => pure true

section bodies
variable (exec : Nat → Scope V → Stmt K V → RowProg K V Nat) (depth : Nat) (scope : Scope V)

def bodyStmt (parse : Scope V → Except Error (Stmt K V)) : RowProg K V Unit := do
  let stmt ← Lib.Prog.done (parse scope)
  discard (exec depth scope stmt)

/-- `run_body_with_context`, inside a write transaction. -/
def runBody (trigger : Trigger K V) (old new : Option (TriggerRow V)) : RowProg K V Unit := do
  let go ← trigger.whenProg (pushRows scope old new)
  if go then trigger.body.forM (bodyStmt exec depth (pushRows scope old new))

def fireOne (trigger : Trigger K V) (old new : Option (TriggerRow V)) : RowProg K V Unit :=
  if triggerDepthCap < depth + 1 then
    .fail (.unsupportedSql ("trigger recursion depth exceeded 8 (in trigger `" ++
      trigger.name ++ "`)"))
  else runBody exec (depth + 1) scope trigger old new

def fireTriggers (table : String) (event : TriggerEvent) (time : TriggerTime)
    (old new : Option (TriggerRow V))
    (changed : Option (List String)) : RowProg K V Unit :=
  -- top-level statements fire triggers in any case, the statements of a body only when they may
  -- recurse
  if 0 < depth ∧ schema.recursiveTriggers = false then pure ()
  else
    (schema.triggersFor table event time).forM fun trigger =>
      if event = .update ∧ trigger.whenCols ≠ [] ∧
          anyColumnInFilter trigger.whenCols changed = false then pure ()
      else fireOne exec depth scope trigger old new

/-- `fire_instead_of_insert`, inside a write transaction. The depth is not counted. -/
def fireInsteadOfInsert (view : String) (values : V) : RowProg K V Unit :=
  match schema.triggersFor view .insert .insteadOf with
  | [] => .fail (.unsupportedSql ("cannot modify " ++ view ++ " because it is a view"))
  | triggers => triggers.forM fun trigger => runBody exec depth scope trigger none
      (some ⟨1, values⟩)

/-- One row of an INSERT. The rows of a SELECT do not fire the AFTER triggers. -/
def insertRow (plan : InsertPlan K V) (fireAfter : Bool) (build : RowProg K V V) (count : Nat) :
    RowProg K V Nat := do
  let values ← build
  let before ← (fireTriggers schema exec depth scope plan.table .insert .before none
    (some ⟨0, values⟩) none).attempt
  match before with
  | .error .triggerIgnore => return count
  | .error e => .fail e
  | .ok _ =>
    match ← plan.resolve values with
    | .inserted rowid values | .updated rowid values =>
      if fireAfter then
        fireTriggers schema exec depth scope plan.table .insert .after none
          (some ⟨rowid, values⟩) none
      match plan.returning with
      | some returning => returning rowid values
      | none => pure ()
      return count + 1
    | .ignored => return count

def insertBody (plan : InsertPlan K V) (sourceRows : List V) : RowProg K V Nat :=
  match plan.source with
  | .values rows =>
      rows.foldlM (fun count build => insertRow schema exec depth scope plan true build count) 0
  | .select _ build => sourceRows.foldlM
      (fun count row => insertRow schema exec depth scope plan false (build row) count) 0

def updateRow (plan : UpdatePlan K V) (count rowid : Nat) : RowProg K V Nat := do
  match ← plan.load rowid with
  | none => return count
  | some row =>
    fireTriggers schema exec depth scope plan.table .update .before (some row.old) (some row.new)
      (some plan.columns)
    plan.write row
    fireTriggers schema exec depth scope plan.table .update .after (some row.old) (some row.new)
      (some plan.columns)
    match plan.returning with
    | some returning => returning row.new
    | none => pure ()
    return count + 1

def updateBody (plan : UpdatePlan K V) : RowProg K V Nat := do
  let targets ← plan.targets
  targets.foldlM (updateRow schema exec depth scope plan) 0

def deleteRow (plan : DeletePlan K V) (count : Nat) (target : TriggerRow V) : RowProg K V Nat := do
  match ← plan.load target with
  | none => return count
  | some live =>
    fireTriggers schema exec depth scope plan.table .delete .before (some live) none none
    plan.write live
    fireTriggers schema exec depth scope plan.table .delete .after (some live) none none
    return count + 1

def deleteBody (plan : DeletePlan K V) : RowProg K V Nat := do
  let targets ← plan.targets
  targets.foldlM (deleteRow schema exec depth scope plan) 0

def mergeBody (plan : MergePlan K V) : RowProg K V Nat := do
  let sources ← plan.sources
  sources.foldlM (fun count source => do return count + (← plan.apply source)) 0

/-- A table statement past its authorizer check: what runs before the write transaction, and in it.
-/
def authorized (auth : AuthorizerDecision) (run : RowProg K V Nat) : RowProg K V Nat :=
  match auth with
  | .allow => run
  | .deny => .fail .notAuthorized
  | .ignore => pure 0

def recorded (run : RowProg K V Nat) : RowProg K V Nat := do
  let n ← run
  Lib.Prog.ask (Call.recordChanges n)
  return n

def InsertPlan.sourceRows (plan : InsertPlan K V) : RowProg K V (List V) :=
  match plan.source with
  | .values _ => pure []
  | .select rows _ => rows.prog

end bodies

/-- `execute_prepared` while a write transaction is current, as for the body of a trigger:
`with_write_tx` runs its closure in that transaction. `stack` bounds the nesting; beyond it the
thread's stack overflows. -/
def stmtProg : Nat → Nat → Scope V → Stmt K V → RowProg K V Nat
  | 0, _, _, _ => .fail .stackOverflow
  | stack + 1, depth, scope, stmt =>
    match stmt with
    | .insert plan => recorded <| authorized plan.auth do
      let sourceRows ← plan.sourceRows
      insertBody schema (stmtProg stack) depth scope plan sourceRows
    | .update plan => recorded <| authorized plan.auth do
      .done plan.classify
      updateBody schema (stmtProg stack) depth scope plan
    | .delete plan => recorded <| authorized plan.auth <|
        deleteBody schema (stmtProg stack) depth scope plan
    | .merge plan => recorded <| mergeBody plan
    | .insertView plan => recorded do
      plan.rows.forM fun row => do
        fireInsteadOfInsert schema (stmtProg stack) depth scope plan.view (← row.prog)
      return plan.rows.length
    | .select query => do
      query.prog
      return 0

end RedlineDb.Exec
