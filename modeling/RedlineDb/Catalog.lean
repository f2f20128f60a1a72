import Mathlib.Data.List.AList
import RedlineDb.Format
import RedlineDb.Lib.Run

/-!
# The schema catalog

`catalog/schema`, `ops`, `views` and `triggers`: a snapshot of the whole schema and the DDL
statements as functions from one snapshot to the next. Object and relation ids come from the
counters of the snapshot itself. The hash maps that `rebuild_indexes` fills from the lists are
looked up in the lists here; the trigger map alone is kept, because `rebuild_indexes` does not clear
it.
-/

namespace RedlineDb.Catalog
open Lib

def toAsciiLowercase (s : String) : String := String.ofList (s.toList.map Char.toLower)

def toAsciiUppercase (s : String) : String := String.ofList (s.toList.map Char.toUpper)

structure DbName where
  original : String
  folded : String
  lower : toAsciiLowercase folded = folded
deriving DecidableEq

structure QualifiedName where
  schema : DbName
  name : DbName
deriving DecidableEq

inductive OwnedValue
  | null
  | integer (v : Int)
  | real (bits : UInt64)
  | text (v : String)
  | blob (v : Bytes)
deriving DecidableEq

inductive Affinity
  | blob | text | numeric | integer | real
deriving DecidableEq

/-- The characters `str::trim` strips. -/
def isWhitespace (c : Char) : Bool :=
  let n := c.toNat
  (9 ≤ n && n ≤ 13) || n == 32 || n == 0x85 || n == 0xa0 || n == 0x1680 ||
    (0x2000 ≤ n && n ≤ 0x200a) ||
    n == 0x2028 || n == 0x2029 || n == 0x202f || n == 0x205f || n == 0x3000

def containsAsciiInsensitive (haystack needle : String) : Bool :=
  let h := (toAsciiLowercase haystack).toList
  let n := (toAsciiLowercase needle).toList
  h.tails.any fun t => n.isPrefixOf t

def deriveAffinity : Option String → Affinity
  | none => .blob
  | some declared =>
    if declared.toList.all isWhitespace then .blob
    else if containsAsciiInsensitive declared "INT" then .integer
    else if containsAsciiInsensitive declared "CHAR" || containsAsciiInsensitive declared "CLOB" ||
      containsAsciiInsensitive declared "TEXT" then .text
    else if containsAsciiInsensitive declared "BLOB" then .blob
    else if containsAsciiInsensitive declared "REAL" || containsAsciiInsensitive declared "FLOA" ||
      containsAsciiInsensitive declared "DOUB" then .real
    else .numeric

/-! ### Expressions of DEFAULT and CHECK -/

inductive BinaryOp
  | and | or | eq | ne | lt | le | gt | ge
deriving DecidableEq

inductive ExprAst
  | const (v : OwnedValue)
  | column (col : Nat)
  | currentDate
  | currentTime
  | currentTimestamp
  | not (e : ExprAst)
  | binary (op : BinaryOp) (left right : ExprAst)
  | like (negated : Bool) (value pattern : ExprAst) (escape : Option Char)
  | blobLen (e : ExprAst)
deriving DecidableEq

def ExprAst.referencedCols : ExprAst → List Nat
  | .column col => [col]
  | .not e | .blobLen e => e.referencedCols
  | .binary _ left right | .like _ left right _ => left.referencedCols ++ right.referencedCols
  | _ => []

inductive ConflictAction
  | abort | ignore | replace
deriving DecidableEq

inductive FkAction
  | noAction | restrict | setNull | setDefault | cascade
deriving DecidableEq

inductive IndexOrigin
  | user | primaryKey | uniqueConstraint
deriving DecidableEq

inductive SortDir
  | asc | desc
deriving DecidableEq

inductive IndexKeySource
  | column (attnum : Nat)
  | expression (sql : String) (referencedCols : List Nat)
deriving DecidableEq

structure IndexKeyDef where
  ordinal : Nat
  source : IndexKeySource
  sortDir : SortDir
  collation : Option String
deriving DecidableEq

inductive ConstraintKind
  | primaryKey | unique | notNull
deriving DecidableEq

inductive GeneratedColumnKind
  | stored | virtual
deriving DecidableEq

structure GeneratedColumnSpec where
  kind : GeneratedColumnKind
  exprSql : String
deriving DecidableEq

structure ColumnDef where
  columnId : Nat
  ordinal : Nat
  name : String
  folded : String
  declaredType : Option String
  affinity : Affinity
  notNull : Bool
  defaultValue : Option OwnedValue
  defaultExpr : Option ExprAst
  generated : Option GeneratedColumnSpec
deriving DecidableEq

structure IndexDef where
  indexId : Nat
  tableId : Nat
  relationId : Nat
  metaPageId : Option Nat
  name : String
  folded : String
  unique : Bool
  primary : Bool
  origin : IndexOrigin
  keys : List IndexKeyDef
  normalizedSql : Option String
  predicateSql : Option String
deriving DecidableEq

structure CheckDef where
  constraintId : Nat
  name : Option String
  expr : ExprAst
deriving DecidableEq

/-- The expression of a `ConstraintDef` is never set. -/
structure ConstraintDef where
  constraintId : Nat
  tableId : Nat
  name : Option String
  kind : ConstraintKind
  columnId : Option Nat
  indexId : Option Nat
  conflictAction : ConflictAction
deriving DecidableEq

structure ForeignKeyDef where
  constraintId : Nat
  name : Option String
  columns : List Nat
  parentTable : String
  parentColumns : List String
  onDelete : FkAction
  onUpdate : FkAction
  deferred : Bool
deriving DecidableEq

/-- The flags of the source are three booleans. -/
structure TableDef where
  tableId : Nat
  schemaId : Nat
  relationId : Nat
  name : String
  folded : String
  columns : List ColumnDef
  indexes : List IndexDef
  constraints : List ConstraintDef
  checks : List CheckDef
  foreignKeys : List ForeignKeyDef
  rowidAliasColumn : Option Nat
  strict : Bool
  withoutRowid : Bool
  autoincrement : Bool
  normalizedSql : Option String
deriving DecidableEq

inductive TriggerTimeKind
  | before | after | insteadOf
deriving DecidableEq

inductive TriggerEventKind
  | insert | update | delete
deriving DecidableEq

structure TriggerDef where
  triggerId : Nat
  schemaId : Nat
  name : String
  folded : String
  tableName : String
  tableFolded : String
  whenTime : TriggerTimeKind
  whenEvent : TriggerEventKind
  whenCols : List String
  whenPredicateSql : Option String
  bodySql : String
  normalizedSql : Option String
deriving DecidableEq

structure ViewDef where
  viewId : Nat
  schemaId : Nat
  name : String
  folded : String
  columns : List String
  bodySql : String
  sessionScoped : Bool
  normalizedSql : Option String
deriving DecidableEq

structure NamespaceDef where
  schemaId : Nat
  folded : String
deriving DecidableEq

/-- `triggerNames` is the key set of `by_trigger_name`. -/
structure SchemaSnapshot where
  schemaEpoch : Nat
  nextObjectId : Nat
  nextRelationId : Nat
  namespaces : List NamespaceDef
  tables : List TableDef
  views : List ViewDef
  triggers : List TriggerDef
  triggerNames : List (Nat × String)
deriving DecidableEq

def bootstrapSchema (nextRelationId : Nat) : SchemaSnapshot where
  schemaEpoch := 1
  nextObjectId := 10000
  nextRelationId
  namespaces := [⟨1, "main"⟩]
  tables := []
  views := []
  triggers := []
  triggerNames := []

namespace SchemaSnapshot
variable (s : SchemaSnapshot)

def lookupNamespace (name : String) : Option Nat :=
  (s.namespaces.reverse.find? fun n => n.folded = toAsciiLowercase name).map NamespaceDef.schemaId

def lookupTable (schemaId : Nat) (name : String) : Option TableDef :=
  s.tables.reverse.find? fun t => t.schemaId = schemaId ∧ t.folded = toAsciiLowercase name

def indexes : List IndexDef := s.tables.flatMap TableDef.indexes

def lookupIndex (schemaId : Nat) (name : String) : Option IndexDef :=
  (s.tables.filter fun t => t.schemaId = schemaId).flatMap TableDef.indexes |>.reverse.find?
    fun i => i.folded = toAsciiLowercase name

def lookupView (schemaId : Nat) (name : String) : Option ViewDef :=
  s.views.reverse.find? fun v => v.schemaId = schemaId ∧ v.folded = toAsciiLowercase name

def hasTrigger (schemaId : Nat) (name : String) : Bool :=
  s.triggerNames.contains (schemaId, toAsciiLowercase name)

/-- The end of every statement that changed something: the epoch goes up and `rebuild_indexes`
enters the triggers. -/
def bumped : SchemaSnapshot :=
  { s with
    schemaEpoch := min (s.schemaEpoch + 1) (2 ^ 64 - 1)
    triggerNames := s.triggerNames ++ s.triggers.map fun t => (t.schemaId, t.folded) }

end SchemaSnapshot

open SchemaSnapshot

def resolveSchemaId (s : SchemaSnapshot) : Option DbName → Except Error Nat
  | some name =>
    if name.folded ≠ "main" then .error (.unsupportedDdl "only the main schema is supported")
    else (s.lookupNamespace "main").elim (.error (.catalogCorrupt "main schema missing")) .ok
  | none => (s.lookupNamespace "main").elim (.error (.catalogCorrupt "main schema missing")) .ok

inductive ColumnConstraintSpec
  | primaryKey (sortDir : SortDir) (conflict : ConflictAction)
  | unique (conflict : ConflictAction)
  | notNull (conflict : ConflictAction)
  | default (expr : ExprAst)
  | check (expr : ExprAst)
deriving DecidableEq

structure ColumnSpec where
  name : DbName
  declaredType : Option String
  constraints : List ColumnConstraintSpec
  defaultValue : Option OwnedValue
  autoincrement : Bool
  generated : Option GeneratedColumnSpec
deriving DecidableEq

inductive TableConstraintSpec
  | primaryKey (name : Option DbName) (columns : List DbName) (conflict : ConflictAction)
  | unique (name : Option DbName) (columns : List DbName) (conflict : ConflictAction)
  | check (name : Option DbName) (expr : ExprAst)
  | foreignKey (name : Option DbName) (columns : List DbName) (parentTable : DbName)
      (parentColumns : List DbName)
      (onDelete onUpdate : FkAction) (deferred : Bool)
deriving DecidableEq

structure CreateTableSpec where
  schema : Option DbName
  name : DbName
  ifNotExists : Bool
  columns : List ColumnSpec
  constraints : List TableConstraintSpec
  strict : Bool
  withoutRowid : Bool
  normalizedSql : Option String
deriving DecidableEq

/-- The locals of `apply_create_table`; the ALTER statements use it for the table they change. -/
structure Build where
  nextObjectId : Nat
  nextRelationId : Nat
  columns : List ColumnDef
  indexes : List IndexDef
  constraints : List ConstraintDef
  checks : List CheckDef
  foreignKeys : List ForeignKeyDef
  rowidAliasColumn : Option Nat

def columnLookup (columns : List ColumnDef) (folded : String) : Option Nat :=
  (columns.reverse.find? fun c => c.folded = folded).map ColumnDef.ordinal

def columnKey (attnum : Nat) (sortDir : SortDir) : IndexKeyDef :=
  { ordinal := attnum, source := .column attnum, sortDir, collation := none }

structure ColumnState where
  build : Build
  notNull : Bool
  defaultValue : Option OwnedValue
  defaultExpr : Option ExprAst

namespace Build

/-- An index over one column, with the constraint it stands for. -/
def addColumnIndex (b : Build) (spec : CreateTableSpec) (tableId columnId ordinal : Nat)
    (origin : IndexOrigin)
    (kind : ConstraintKind) (sortDir : SortDir) (conflict : ConflictAction) : Build :=
  let constraintId := b.nextObjectId
  let indexId := b.nextObjectId + 1
  { b with
    nextObjectId := b.nextObjectId + 2
    nextRelationId := b.nextRelationId + 1
    indexes := b.indexes ++
      [{ indexId, tableId, relationId := b.nextRelationId, metaPageId := none
         name := "sqlite_autoindex_" ++ spec.name.original ++ "_" ++ toString (ordinal + 1)
         folded := "sqlite_autoindex_" ++ spec.name.folded ++ "_" ++ toString (ordinal + 1)
         unique := true, primary := decide (origin = .primaryKey), origin
         keys := [columnKey ordinal sortDir], normalizedSql := none, predicateSql := none }]
    constraints := b.constraints ++
      [{ constraintId, tableId, name := none, kind
         columnId := some columnId, indexId := some indexId
         conflictAction := conflict }] }

def columnConstraint (spec : CreateTableSpec) (tableId columnId ordinal : Nat) (affinity : Affinity)
    (c : ColumnState) : ColumnConstraintSpec → ColumnState
  | .primaryKey sortDir conflict =>
    let isAlias := !spec.withoutRowid && c.build.rowidAliasColumn.isNone &&
      decide (affinity = .integer)
    let build := if isAlias then { c.build with rowidAliasColumn := some ordinal } else c.build
    { c with
      notNull := true
      build := build.addColumnIndex spec tableId columnId ordinal .primaryKey .primaryKey sortDir
        conflict }
  | .unique conflict =>
    { c with
      build :=
        c.build.addColumnIndex spec tableId columnId ordinal .uniqueConstraint .unique .asc
          conflict }
  | .notNull conflict =>
    { c with
      notNull := true
      build :=
        { c.build with
          nextObjectId := c.build.nextObjectId + 1
          constraints := c.build.constraints ++
            [{ constraintId := c.build.nextObjectId, tableId, name := none, kind := .notNull
               columnId := some columnId, indexId := none, conflictAction := conflict }] } }
  | .default (.const value) => { c with defaultValue := some value }
  | .default expr => { c with defaultExpr := some expr }
  | .check expr =>
    { c with
      build :=
        { c.build with
          nextObjectId := c.build.nextObjectId + 1
          checks := c.build.checks ++
            [{ constraintId := c.build.nextObjectId, name := none, expr }] } }

/-- One column of CREATE TABLE; `usedNames` are the folded names of the columns so far. -/
def column (spec : CreateTableSpec) (tableId : Nat) (b : Build) (column : ColumnSpec) :
    Except Error Build := do
  require (∀ c ∈ b.columns, c.folded ≠ column.name.folded) .objectExists
  let ordinal := b.columns.length
  let columnId := b.nextObjectId
  let affinity := deriveAffinity column.declaredType
  let c := column.constraints.foldl (columnConstraint spec tableId columnId ordinal affinity)
    { build := { b with nextObjectId := b.nextObjectId + 1 }, notNull := false
      defaultValue := column.defaultValue, defaultExpr := none }
  return { c.build with
    columns := c.build.columns ++
      [{ columnId, ordinal, name := column.name.original, folded := column.name.folded
         declaredType := column.declaredType, affinity, notNull := c.notNull, defaultValue :=
           c.defaultValue
         defaultExpr := c.defaultExpr, generated := column.generated }] }

def ordinalOf (b : Build) (missing : Error) (name : DbName) : Except Error Nat :=
  (columnLookup b.columns name.folded).elim (.error missing) .ok

/-- An index over the columns of a table constraint, with the constraint; `indexName` gets the index
id. -/
def addTableIndex (b : Build) (tableId : Nat) (origin : IndexOrigin) (kind : ConstraintKind)
    (name : Option DbName)
    (indexName : Nat → String × String) (columns : List DbName) (conflict : ConflictAction) :
    Except Error Build := do
  let constraintId := b.nextObjectId
  let indexId := b.nextObjectId + 1
  let ordinals ← columns.mapM (b.ordinalOf .columnNotFound)
  return { b with
    nextObjectId := b.nextObjectId + 2
    nextRelationId := b.nextRelationId + 1
    indexes := b.indexes ++
      [{ indexId, tableId, relationId := b.nextRelationId, metaPageId := none
         name := (indexName indexId).1, folded := (indexName indexId).2
         unique := true, primary := decide (origin = .primaryKey), origin
         keys := ordinals.map fun o => columnKey o .asc, normalizedSql :=
           none, predicateSql := none }]
    constraints := b.constraints ++
      [{ constraintId, tableId, name := name.map DbName.original, kind
         columnId := none, indexId := some indexId
         conflictAction := conflict }] }

def addCheck (b : Build) (name : Option DbName) (expr : ExprAst) : Build :=
  { b with
    nextObjectId := b.nextObjectId + 1
    checks := b.checks ++
      [{ constraintId := b.nextObjectId, name := name.map DbName.original, expr }] }

/-- `missing` is the error for a column that is not there: the two callers of the source differ in
it. -/
def addForeignKey (b : Build) (missing : Error) (name : Option DbName) (columns : List DbName)
    (parentTable : DbName)
    (parentColumns : List DbName) (onDelete onUpdate : FkAction) (deferred : Bool) :
    Except Error Build := do
  let ordinals ← columns.mapM (b.ordinalOf missing)
  return { b with
    nextObjectId := b.nextObjectId + 1
    foreignKeys := b.foreignKeys ++
      [{ constraintId := b.nextObjectId, name := name.map DbName.original, columns := ordinals
         parentTable := parentTable.original, parentColumns := parentColumns.map DbName.original
         onDelete, onUpdate, deferred }] }

/-- The name `build_table_constraint_index` gives an index. -/
def autoindexName (table : DbName) (indexId : Nat) : String × String :=
  let name := "sqlite_autoindex_" ++ table.folded ++ "_" ++ toString indexId
  (name, name)

def tableConstraint (spec : CreateTableSpec) (tableId : Nat) (b : Build) :
    TableConstraintSpec → Except Error Build
  | .primaryKey name columns conflict =>
    b.addTableIndex tableId .primaryKey .primaryKey name (autoindexName spec.name) columns conflict
  | .unique name columns conflict =>
    b.addTableIndex tableId .uniqueConstraint .unique name (autoindexName spec.name) columns
      conflict
  | .check name expr => .ok (b.addCheck name expr)
  | .foreignKey name columns parentTable parentColumns onDelete onUpdate deferred =>
    b.addForeignKey .objectNotFound name columns parentTable parentColumns onDelete onUpdate
      deferred

end Build

variable (s : SchemaSnapshot)

def applyCreateTable (spec : CreateTableSpec) : Except Error SchemaSnapshot := do
  let schemaId ← resolveSchemaId s spec.schema
  if (s.lookupTable schemaId spec.name.folded).isSome then
    if spec.ifNotExists then return s else throw .objectExists
  let tableId := s.nextObjectId
  let relationId := s.nextRelationId
  let b : Build :=
    { nextObjectId := s.nextObjectId + 1, nextRelationId := s.nextRelationId + 1, columns := [],
      indexes := []
      constraints := [], checks := [], foreignKeys := [], rowidAliasColumn := none }
  let b ← spec.columns.foldlM (Build.column spec tableId) b
  let b ← spec.constraints.foldlM (Build.tableConstraint spec tableId) b
  let table : TableDef :=
    { tableId, schemaId, relationId, name := spec.name.original, folded := spec.name.folded
      columns := b.columns, indexes := b.indexes, constraints := b.constraints, checks := b.checks
      foreignKeys := b.foreignKeys, rowidAliasColumn := b.rowidAliasColumn, strict := spec.strict
      withoutRowid := spec.withoutRowid, autoincrement := spec.columns.any ColumnSpec.autoincrement
      normalizedSql := spec.normalizedSql }
  return bumped
    { s with
      tables := s.tables ++ [table]
      nextObjectId := b.nextObjectId
      nextRelationId := b.nextRelationId }

structure DropSpec where
  name : QualifiedName
  ifExists : Bool
deriving DecidableEq

def applyDropTable (spec : DropSpec) : Except Error SchemaSnapshot := do
  let schemaId ← resolveSchemaId s (some spec.name.schema)
  let tables := s.tables.filter fun t =>
    ¬ (t.schemaId = schemaId ∧ t.folded = spec.name.name.folded)
  if tables.length = s.tables.length then
    if spec.ifExists then return s else throw .objectNotFound
  return bumped { s with tables }

structure IndexColumnSpec where
  name : DbName
  sortDir : SortDir
  collation : Option String
  exprSql : Option String
  exprReferencedCols : List Nat
deriving DecidableEq

structure CreateIndexSpec where
  schema : Option DbName
  name : DbName
  ifNotExists : Bool
  table : QualifiedName
  unique : Bool
  columns : List IndexColumnSpec
  origin : IndexOrigin
  normalizedSql : Option String
  predicateSql : Option String
deriving DecidableEq

/-- `build_index_keys`, for the column at this place of the list. -/
def buildIndexKey (table : TableDef) (column : IndexColumnSpec) (idx : Nat) :
    Except Error IndexKeyDef := do
  let collation := column.collation.map toAsciiUppercase
  match column.exprSql with
  | some sql =>
    return {
      ordinal := idx, source := .expression sql column.exprReferencedCols
      sortDir := column.sortDir, collation }
  | none =>
    match table.columns.find? fun c => c.folded = column.name.folded with
    | none => throw .columnNotFound
    | some c =>
      return {
        ordinal := c.ordinal, source := .column c.ordinal, sortDir := column.sortDir, collation }

def buildIndexKeys (table : TableDef) (columns : List IndexColumnSpec) :
    Except Error (List IndexKeyDef) :=
  columns.zipIdx.mapM fun c => buildIndexKey table c.1 c.2

def replaceFirst (p : TableDef → Bool) (f : TableDef → TableDef) :
    List TableDef → Option (List TableDef)
  | [] => none
  | t :: ts => if p t then some (f t :: ts) else (replaceFirst p f ts).map (t :: ·)

def replaceFirstIndex (p : IndexDef → Bool) (f : IndexDef → IndexDef) :
    List IndexDef → List IndexDef
  | [] => []
  | i :: is => if p i then f i :: is else i :: replaceFirstIndex p f is

def applyCreateIndex (spec : CreateIndexSpec) : Except Error SchemaSnapshot := do
  let schemaId ← resolveSchemaId s spec.schema
  if (s.lookupIndex schemaId spec.name.folded).isSome then
    if spec.ifNotExists then return s else throw .objectExists
  let tableSchema ← resolveSchemaId s (some spec.table.schema)
  let table ← (s.lookupTable tableSchema spec.table.name.folded).elim (.error .objectNotFound) .ok
  let keys ← buildIndexKeys table spec.columns
  let index : IndexDef :=
    { indexId := s.nextObjectId, tableId := table.tableId, relationId := s.nextRelationId,
      metaPageId := none
      name := spec.name.original, folded := spec.name.folded, unique := spec.unique
      primary := decide (spec.origin = .primaryKey), origin := spec.origin, keys
      normalizedSql := spec.normalizedSql, predicateSql := spec.predicateSql }
  match replaceFirst (fun t => decide (t.tableId = table.tableId))
    (fun t => { t with indexes := t.indexes ++ [index] })
      s.tables with
  | none => throw .objectNotFound
  | some tables =>
    return bumped
      { s with tables, nextObjectId := s.nextObjectId + 1, nextRelationId := s.nextRelationId + 1 }

def applySetIndexMetaPageId (indexId metaPageId : Nat) : Except Error SchemaSnapshot :=
  match replaceFirst (fun t => t.indexes.any fun i => decide (i.indexId = indexId))
      (fun t =>
        { t with
          indexes := replaceFirstIndex (fun i => decide (i.indexId = indexId))
            (fun i => { i with metaPageId := some metaPageId }) t.indexes }) s.tables with
  | none => .error .objectNotFound
  | some tables => .ok (bumped { s with tables })

def applyDropIndex (spec : DropSpec) : Except Error SchemaSnapshot := do
  let schemaId ← resolveSchemaId s (some spec.name.schema)
  match s.lookupIndex schemaId spec.name.name.folded with
  | none => if spec.ifExists then return s else throw .objectNotFound
  | some index =>
    require (index.origin = .user) (.unsupportedDdl "constraint-backed indexes cannot be dropped")
    match replaceFirst (fun t => decide (t.tableId = index.tableId))
        (fun t => { t with indexes := t.indexes.filter fun i => decide (i.indexId ≠ index.indexId)
          }) s.tables with
    | none => if spec.ifExists then return s else throw .objectNotFound
    | some tables => return bumped { s with tables }

def applyRenameIndex (oldFolded newName : String) : Except Error SchemaSnapshot := do
  let schemaId ← resolveSchemaId s none
  require ((s.lookupIndex schemaId (toAsciiLowercase newName)).isNone) .objectExists
  match replaceFirst (fun t => t.indexes.any fun i => decide (i.folded = oldFolded))
      (fun t =>
        { t with
          indexes := replaceFirstIndex (fun i => decide (i.folded = oldFolded))
            (fun i => { i with name := newName, folded := toAsciiLowercase newName }) t.indexes })
              s.tables with
  | none => throw .objectNotFound
  | some tables => return bumped { s with tables }

/-! ### Views and triggers -/

structure CreateViewSpec where
  schema : Option DbName
  name : DbName
  ifNotExists : Bool
  sessionScoped : Bool
  columns : List DbName
  bodySql : String
  normalizedSql : Option String
deriving DecidableEq

def applyCreateView (spec : CreateViewSpec) : Except Error SchemaSnapshot := do
  let schemaId ← resolveSchemaId s spec.schema
  if (s.lookupTable schemaId spec.name.folded).isSome then
    if spec.ifNotExists then return s else throw .objectExists
  if (s.lookupView schemaId spec.name.folded).isSome then
    if spec.ifNotExists then return s else throw .objectExists
  require ((s.lookupIndex schemaId spec.name.folded).isNone) .objectExists
  let view : ViewDef :=
    { viewId := s.nextObjectId, schemaId, name := spec.name.original, folded := spec.name.folded
      columns := spec.columns.map DbName.original, bodySql := spec.bodySql, sessionScoped :=
        spec.sessionScoped
      normalizedSql := spec.normalizedSql }
  return bumped { s with views := s.views ++ [view], nextObjectId := s.nextObjectId + 1 }

def applyDropView (spec : DropSpec) : Except Error SchemaSnapshot := do
  let schemaId ← resolveSchemaId s (some spec.name.schema)
  let views := s.views.filter fun v => ¬ (v.schemaId = schemaId ∧ v.folded = spec.name.name.folded)
  if views.length = s.views.length then
    if spec.ifExists then return s else throw .objectNotFound
  return bumped { s with views }

structure CreateTriggerSpec where
  schema : Option DbName
  name : DbName
  ifNotExists : Bool
  table : DbName
  whenTime : TriggerTimeKind
  whenEvent : TriggerEventKind
  whenCols : List DbName
  whenPredicateSql : Option String
  bodySql : String
  normalizedSql : Option String
deriving DecidableEq

def applyCreateTrigger (spec : CreateTriggerSpec) : Except Error SchemaSnapshot := do
  let schemaId ← resolveSchemaId s spec.schema
  if s.hasTrigger schemaId spec.name.folded then
    if spec.ifNotExists then return s else throw .objectExists
  if spec.whenTime = .insteadOf then
    require ((s.lookupView schemaId spec.table.folded).isSome) .objectNotFound
  else
    require ((s.lookupTable schemaId spec.table.folded).isSome) .objectNotFound
  let trigger : TriggerDef :=
    { triggerId := s.nextObjectId, schemaId, name := spec.name.original, folded := spec.name.folded
      tableName := spec.table.original, tableFolded := spec.table.folded, whenTime := spec.whenTime
      whenEvent := spec.whenEvent, whenCols := spec.whenCols.map DbName.original
      whenPredicateSql := spec.whenPredicateSql, bodySql := spec.bodySql, normalizedSql :=
        spec.normalizedSql }
  return bumped { s with triggers := s.triggers ++ [trigger], nextObjectId := s.nextObjectId + 1 }

def applyDropTrigger (spec : DropSpec) : Except Error SchemaSnapshot := do
  let schemaId ← resolveSchemaId s (some spec.name.schema)
  let triggers := s.triggers.filter fun t =>
    ¬ (t.schemaId = schemaId ∧ t.folded = spec.name.name.folded)
  if triggers.length = s.triggers.length then
    if spec.ifExists then return s else throw .objectNotFound
  return bumped { s with triggers }

/-! ### Rewriting the texts of views and triggers after a rename -/

def isIdentChar (c : Char) : Bool := c.isAlphanum || c == '_'

/-- The loop of `rewrite_ident_ci`: `prev` is the character before the rest of the text. An
occurrence is replaced when no identifier goes on on either side of it. -/
def rewriteFrom (needle replacement : List Char) (prev : Option Char) :
    Nat → List Char → List Char × Bool
  | 0, rest => (rest, false)
  | _ + 1, [] => ([], false)
  | rounds + 1, c :: rest =>
    let after := (c :: rest).drop needle.length
    if needle.isPrefixOf ((c :: rest).map Char.toLower) && !(prev.any isIdentChar) &&
        !(after.head?.any isIdentChar) then
      ((replacement ++
        (rewriteFrom needle replacement ((c :: rest).take needle.length).getLast? rounds after).1),
        true)
    else
      let (out, changed) := rewriteFrom needle replacement (some c) rounds rest
      (c :: out, changed)

def rewriteIdentCi (sql oldName replacement : String) : Option String :=
  if oldName.toList = [] then none
  else
    let (out, changed) :=
      rewriteFrom (toAsciiLowercase oldName).toList replacement.toList none sql.toList.length
        sql.toList
    if changed then some (String.ofList out) else none

inductive RenameRewrite
  | table | column
deriving DecidableEq

def renderCreateViewForAlter (v : ViewDef) : String :=
  "CREATE " ++ (if v.sessionScoped then "TEMP " else "") ++ "VIEW " ++ v.name ++
    (if v.columns = [] then "" else " (" ++ ", ".intercalate v.columns ++ ")") ++ " AS " ++
    v.bodySql

def renderCreateTriggerForAlter (t : TriggerDef) : String :=
  let time := match t.whenTime with
    | .before => "BEFORE"
    | .after => "AFTER"
    | .insteadOf => "INSTEAD OF"
  let event := match t.whenEvent with
    | .insert => "INSERT"
    | .update => "UPDATE"
    | .delete => "DELETE"
  "CREATE TRIGGER " ++ t.name ++ " " ++ time ++ " " ++ event ++ " ON " ++ t.tableName ++ " " ++
    t.bodySql

/-- A text that is only filled in and not rewritten does not count as a change, and is dropped
again. -/
def rewriteView (schemaId : Nat) (oldName replacement : String) (v : ViewDef) : ViewDef :=
  if v.schemaId ≠ schemaId then v
  else
    let body := rewriteIdentCi v.bodySql oldName replacement
    let v' := { v with bodySql := body.getD v.bodySql }
    let base := v'.normalizedSql.getD (renderCreateViewForAlter v')
    let sql := rewriteIdentCi base oldName replacement
    if body.isSome || sql.isSome then { v' with normalizedSql := some (sql.getD base) } else v

def rewriteTrigger (schemaId : Nat) (oldName newName replacement : String) (mode : RenameRewrite)
    (t : TriggerDef) :
    TriggerDef :=
  if t.schemaId ≠ schemaId then t
  else
    let t1 := if mode = .table then
      { t with tableName := newName, tableFolded := toAsciiLowercase newName } else t
    let body := rewriteIdentCi t1.bodySql oldName replacement
    let when_ := t1.whenPredicateSql.bind fun sql => rewriteIdentCi sql oldName replacement
    let isOld := fun col : String => decide (toAsciiLowercase col = toAsciiLowercase oldName)
    let t2 :=
      { t1 with
        bodySql := body.getD t1.bodySql
        whenPredicateSql := when_.or t1.whenPredicateSql
        whenCols := t1.whenCols.map fun col => if isOld col then newName else col }
    let base := t2.normalizedSql.getD (renderCreateTriggerForAlter t2)
    let sql := rewriteIdentCi base oldName replacement
    if decide (mode = .table) || body.isSome || when_.isSome || t1.whenCols.any isOld ||
        sql.isSome then
      { t2 with normalizedSql := some (sql.getD base) }
    else t

def rewriteDependentAlterSql (schemaId : Nat) (oldName newName : String) (mode : RenameRewrite) :
    SchemaSnapshot :=
  let replacement := match mode with
    | .table => "\"" ++ newName ++ "\""
    | .column => newName
  { s with
    views := s.views.map (rewriteView schemaId oldName replacement)
    triggers := s.triggers.map (rewriteTrigger schemaId oldName newName replacement mode) }

inductive AlterTableOperationSpec
  | renameTable (tableName : QualifiedName)
  | renameColumn (oldName newName : DbName)
  | addColumn (column : ColumnSpec) (ifNotExists : Bool)
      (tableConstraints : List TableConstraintSpec)
  | dropColumn (columnName : DbName) (ifExists : Bool)
  | setColumnDefault (columnName : DbName) (defaultValue : Option OwnedValue)
  | dropColumnDefault (columnName : DbName)
  | dropColumnNotNull (columnName : DbName)
  | setColumnNotNull (columnName : DbName)
  | addNamedConstraint (constraint : TableConstraintSpec) (ifNotExists : Bool)
  | dropConstraint (name : DbName) (ifExists : Bool)
  | renameConstraint (oldName newName : DbName)
  | addColumnIdentity (columnName : DbName)
  | dropColumnIdentity (columnName : DbName) (ifExists : Bool)
  | setColumnType (columnName : DbName) (declaredType : String)
deriving DecidableEq

structure AlterTableSpec where
  name : QualifiedName
  ifExists : Bool
  operation : AlterTableOperationSpec
deriving DecidableEq

namespace TableDef
variable (t : TableDef)

def column? (folded : String) : Option ColumnDef := t.columns.find? fun c => c.folded = folded

def modifyColumn (folded : String) (f : ColumnDef → ColumnDef) : TableDef :=
  let rec go : List ColumnDef → List ColumnDef
    | [] => []
    | c :: cs => if c.folded = folded then f c :: cs else c :: go cs
  { t with columns := go t.columns, normalizedSql := none }

def modifyColumns (folded : String) (f : ColumnDef → ColumnDef) : TableDef :=
  { t with
    columns := t.columns.map fun c => if c.folded = folded then f c else c
    normalizedSql := none }

def toBuild (nextObjectId nextRelationId : Nat) : Build :=
  { nextObjectId, nextRelationId, columns := t.columns, indexes := t.indexes,
    constraints := t.constraints
    checks := t.checks, foreignKeys := t.foreignKeys, rowidAliasColumn := t.rowidAliasColumn }

def withBuild (b : Build) : TableDef :=
  { t with
    indexes := b.indexes, constraints := b.constraints, checks := b.checks, foreignKeys :=
      b.foreignKeys
    normalizedSql := none }

def hasConstraintName (folded : String) : Bool :=
  let named := fun n : Option String => n.any fun n => decide (toAsciiLowercase n = folded)
  t.constraints.any (fun c => named c.name) || t.checks.any (fun c => named c.name) ||
    t.foreignKeys.any fun c => named c.name

def rejectDropColumnReferences (dropped : ColumnDef) (dropOrdinal : Nat) : Except Error Unit := do
  require (∀ c ∈ t.constraints, c.columnId ≠ some dropped.columnId)
    (.unsupportedDdl "ALTER TABLE DROP COLUMN cannot drop a constrained column")
  require (∀ c ∈ t.checks, ∀ col ∈ c.expr.referencedCols, col < dropOrdinal)
    (.unsupportedDdl "ALTER TABLE DROP COLUMN with CHECK constraints is not supported")
  t.indexes.forM fun index => do
    require (index.predicateSql = none)
      (.unsupportedDdl "ALTER TABLE DROP COLUMN with partial indexes is not supported")
    index.keys.forM fun key =>
      match key.source with
      | .column attnum =>
        require (attnum ≠ dropOrdinal)
          (.unsupportedDdl "ALTER TABLE DROP COLUMN cannot drop an indexed column")
      | .expression _ referencedCols =>
        require (∀ col ∈ referencedCols, col < dropOrdinal)
          (.unsupportedDdl "ALTER TABLE DROP COLUMN with expression indexes is not supported")
  require (∀ fk ∈ t.foreignKeys, dropOrdinal ∉ fk.columns)
    (.unsupportedDdl "ALTER TABLE DROP COLUMN cannot drop a foreign-key column")

def renumber (dropOrdinal n : Nat) : Nat := if dropOrdinal < n then n - 1 else n

def renumberIndex (dropOrdinal : Nat) (i : IndexDef) : IndexDef :=
  { i with
    keys := i.keys.map fun key =>
      { key with
        ordinal := renumber dropOrdinal key.ordinal
        source := match key.source with
          | .column attnum => .column (renumber dropOrdinal attnum)
          | source => source } }

def dropColumn (folded : String) (ifExists : Bool) : Except Error TableDef := do
  match t.columns.findIdx? fun c => decide (c.folded = folded), t.column? folded with
  | some dropOrdinal, some dropped => do
    require (t.columns.length ≠ 1)
      (.unsupportedDdl "ALTER TABLE DROP COLUMN cannot drop the last column")
    require (t.rowidAliasColumn ≠ some dropOrdinal)
      (.unsupportedDdl "ALTER TABLE DROP COLUMN cannot drop an INTEGER PRIMARY KEY rowid alias")
    require (∀ c ∈ t.columns, c.generated = none)
      (.unsupportedDdl "ALTER TABLE DROP COLUMN with generated columns is not supported")
    t.rejectDropColumnReferences dropped dropOrdinal
    return { t with
      columns := (t.columns.eraseIdx dropOrdinal).mapIdx fun ordinal c => { c with ordinal }
      rowidAliasColumn := t.rowidAliasColumn.map (renumber dropOrdinal)
      indexes := t.indexes.map (renumberIndex dropOrdinal)
      foreignKeys := t.foreignKeys.map fun fk =>
        { fk with columns := fk.columns.map (renumber dropOrdinal) }
      normalizedSql := none }
  | _, _ => if ifExists then return t else throw .objectNotFound

end TableDef

def TableConstraintSpec.name : TableConstraintSpec → Option DbName
  | .primaryKey name .. | .unique name .. | .check name .. | .foreignKey name .. => name

def alterIndexName (table : TableDef) (name : Option DbName) (indexId : Nat) : String × String :=
  let display :=
    (name.map DbName.original).getD ("sqlite_autoindex_" ++ table.folded ++ "_" ++ toString indexId)
  (display, toAsciiLowercase display)

def alterConstraint (table : TableDef) (b : Build) : TableConstraintSpec → Except Error Build
  | .check name expr => .ok (b.addCheck name expr)
  | .unique name columns conflict =>
    b.addTableIndex table.tableId .uniqueConstraint .unique name (alterIndexName table name) columns
      conflict
  | .foreignKey name columns parentTable parentColumns onDelete onUpdate deferred =>
    b.addForeignKey .columnNotFound name columns parentTable parentColumns onDelete onUpdate
      deferred
  | .primaryKey .. => .error (.unsupportedDdl "ALTER TABLE ADD PRIMARY KEY is not supported")

def applyAlterAddConstraint (table : TableDef) (nextObjectId nextRelationId : Nat)
    (constraint : TableConstraintSpec)
    (ifNotExists : Bool) : Except Error (TableDef × Nat × Nat) := do
  if constraint.name.any fun name => table.hasConstraintName name.folded then
    if ifNotExists then return (table, nextObjectId, nextRelationId) else throw .objectExists
  let b ← alterConstraint table (table.toBuild nextObjectId nextRelationId) constraint
  return (table.withBuild b, b.nextObjectId, b.nextRelationId)

/-- What an ALTER leaves: the snapshot without the changed table yet, the table, and the next object
id. -/
structure Altered where
  snapshot : SchemaSnapshot
  table : TableDef
  nextObjectId : Nat

section Operations
variable (table : TableDef)

def alterOnly (t : TableDef) : Altered := ⟨s, t, s.nextObjectId⟩

def alterRenameTable (legacy : Bool) (schemaId : Nat) (spec : AlterTableSpec)
    (tableName : QualifiedName) :
    Except Error Altered := do
  let targetSchema ← resolveSchemaId s (some tableName.schema)
  require (targetSchema = schemaId)
    (.unsupportedDdl "ALTER TABLE rename across schemas is not supported")
  require ((s.lookupTable targetSchema tableName.name.folded).isNone) .objectExists
  let s' := if legacy then s
    else rewriteDependentAlterSql s schemaId spec.name.name.original tableName.name.original .table
  return ⟨s', { table with
    name := tableName.name.original, folded := tableName.name.folded, normalizedSql := none },
    s.nextObjectId⟩

def alterRenameColumn (legacy : Bool) (schemaId : Nat) (oldName newName : DbName) :
    Except Error Altered := do
  require ((table.column? newName.folded).isNone) .objectExists
  require ((table.column? oldName.folded).isSome) .objectNotFound
  let s' := if legacy then s else rewriteDependentAlterSql s schemaId oldName.original
    newName.original .column
  return ⟨s', table.modifyColumn oldName.folded
    fun c => { c with name := newName.original, folded := newName.folded },
    s.nextObjectId⟩

def alterAddForeignKey (a : TableDef × Nat × Nat) (constraint : TableConstraintSpec) :
    Except Error (TableDef × Nat × Nat) :=
  match constraint with
  | .foreignKey .. => applyAlterAddConstraint a.1 a.2.1 a.2.2 constraint false
  | _ => .error (.unsupportedDdl "ALTER TABLE ADD COLUMN supports FOREIGN KEY only")

/-- `none`: the column is there and `IF NOT EXISTS` ends the statement. -/
def alterAddColumn (column : ColumnSpec) (ifNotExists : Bool)
    (tableConstraints : List TableConstraintSpec) :
    Except Error (Option Altered) := do
  if (table.column? column.name.folded).isSome then
    if ifNotExists then return none else throw .objectExists
  let isNotNull := fun c : ColumnConstraintSpec => match c with
    | .notNull _ => true
    | _ => false
  let isDefault := fun c : ColumnConstraintSpec => match c with
    | .default _ => true
    | _ => false
  require (column.constraints.all fun c => isNotNull c || isDefault c)
    (.unsupportedDdl "ALTER TABLE ADD COLUMN supports NOT NULL and DEFAULT only")
  require (column.autoincrement = false)
    (.unsupportedDdl "ALTER TABLE ADD COLUMN does not support AUTOINCREMENT")
  let notNull := column.constraints.any isNotNull
  require (¬ (notNull ∧ column.defaultValue = none))
    (.unsupportedDdl "ALTER TABLE ADD COLUMN NOT NULL requires a default")
  let t : TableDef :=
    { table with
      columns := table.columns ++
        [{ columnId := s.nextObjectId, ordinal := table.columns.length, name := column.name.original
           folded := column.name.folded, declaredType := column.declaredType
           affinity := deriveAffinity column.declaredType, notNull, defaultValue :=
             column.defaultValue
           defaultExpr := none, generated := none }] }
  let (t, nextObjectId, nextRelationId) ←
    tableConstraints.foldlM alterAddForeignKey (t, s.nextObjectId + 1, s.nextRelationId)
  return some ⟨{ s with nextRelationId }, { t with normalizedSql := none }, nextObjectId⟩

def alterSetColumnNotNull (columnName : DbName) : Except Error Altered := do
  match table.column? columnName.folded with
  | none => throw .objectNotFound
  | some column =>
    let t := table.modifyColumns columnName.folded fun c => { c with notNull := true }
    if t.constraints.any fun c =>
        decide (c.kind = .notNull ∧ c.columnId = some column.columnId) then
      return alterOnly s t
    else
      return ⟨s,
        { t with
          constraints := t.constraints ++
            [{ constraintId := s.nextObjectId, tableId := table.tableId, name := none
               kind := .notNull
               columnId := some column.columnId, indexId := none, conflictAction := .abort }] },
        s.nextObjectId + 1⟩

def alterDropColumnNotNull (columnName : DbName) : Except Error Altered :=
  match table.column? columnName.folded with
  | none => .error .objectNotFound
  | some column =>
    let t := table.modifyColumns columnName.folded fun c => { c with notNull := false }
    .ok (alterOnly s
      { t with
        constraints := t.constraints.filter fun c =>
          ¬ (c.kind = .notNull ∧ c.columnId = some column.columnId) })

def alterDropConstraint (name : DbName) (ifExists : Bool) : Except Error Altered := do
  let named := fun n : Option String => n.any fun n => decide (toAsciiLowercase n = name.folded)
  require (table.hasConstraintName name.folded ∨ ifExists) .objectNotFound
  let droppedIndexes :=
    (table.constraints.filter fun c => named c.name).filterMap ConstraintDef.indexId
  return alterOnly s
    { table with
      foreignKeys := table.foreignKeys.filter fun fk => !named fk.name
      checks := table.checks.filter fun c => !named c.name
      constraints := table.constraints.filter fun c => !named c.name
      indexes := table.indexes.filter fun i => decide (i.indexId ∉ droppedIndexes)
      normalizedSql := none }

def alterRenameConstraint (oldName newName : DbName) : Except Error Altered := do
  let rename := fun n : Option String =>
    if n.any fun n => decide (toAsciiLowercase n = oldName.folded) then some newName.original else n
  require (table.hasConstraintName oldName.folded) .objectNotFound
  return alterOnly s
    { table with
      foreignKeys := table.foreignKeys.map fun fk => { fk with name := rename fk.name }
      checks := table.checks.map fun c => { c with name := rename c.name }
      constraints := table.constraints.map fun c => { c with name := rename c.name }
      normalizedSql := none }

def alterColumn (columnName : DbName) (f : ColumnDef → ColumnDef) : Except Error Altered := do
  require ((table.column? columnName.folded).isSome) .objectNotFound
  return alterOnly s (table.modifyColumn columnName.folded f)

def alterOperation (legacy : Bool) (schemaId : Nat) (spec : AlterTableSpec) :
    Except Error (Option Altered) :=
  match spec.operation with
  | .renameTable tableName => some <$> alterRenameTable s table legacy schemaId spec tableName
  | .renameColumn oldName newName => some <$> alterRenameColumn s table legacy schemaId
      oldName newName
  | .addColumn column ifNotExists tableConstraints =>
      alterAddColumn s table column ifNotExists tableConstraints
  | .dropColumn columnName ifExists =>
    (fun t => some (alterOnly s t)) <$> table.dropColumn columnName.folded ifExists
  | .setColumnDefault columnName defaultValue =>
    some <$> alterColumn s table columnName fun c => { c with defaultValue, defaultExpr := none }
  | .dropColumnDefault columnName =>
    some <$> alterColumn s table columnName fun c =>
      { c with defaultValue := none, defaultExpr := none }
  | .dropColumnNotNull columnName => some <$> alterDropColumnNotNull s table columnName
  | .setColumnNotNull columnName => some <$> alterSetColumnNotNull s table columnName
  | .addNamedConstraint constraint ifNotExists => do
    let (t, nextObjectId, nextRelationId) ←
      applyAlterAddConstraint table s.nextObjectId s.nextRelationId constraint ifNotExists
    return some ⟨{ s with nextRelationId }, { t with normalizedSql := none }, nextObjectId⟩
  | .dropConstraint name ifExists => some <$> alterDropConstraint s table name ifExists
  | .renameConstraint oldName newName => some <$> alterRenameConstraint s table oldName newName
  | .addColumnIdentity columnName => do
    require ((table.column? columnName.folded).isSome) .objectNotFound
    return some (alterOnly s
      (table.modifyColumns columnName.folded fun c => { c with notNull := true }))
  | .dropColumnIdentity columnName ifExists => do
    require ((table.column? columnName.folded).isSome ∨ ifExists) .objectNotFound
    return some (alterOnly s { table with normalizedSql := none })
  | .setColumnType columnName declaredType =>
    some <$> alterColumn s table columnName fun c =>
      { c with declaredType := some declaredType, affinity := deriveAffinity (some declaredType) }

end Operations

/-- `legacy` is the thread's `legacy_alter_table` switch. -/
def applyAlterTable (legacy : Bool) (s : SchemaSnapshot) (spec : AlterTableSpec) :
    Except Error SchemaSnapshot := do
  let schemaId ← resolveSchemaId s (some spec.name.schema)
  let isTable :=
    fun t : TableDef => decide (t.schemaId = schemaId ∧ t.folded = spec.name.name.folded)
  match s.tables.find? isTable with
  | none => if spec.ifExists then return s else throw .objectNotFound
  | some table =>
    match ← alterOperation s table legacy schemaId spec with
    | none => return s
    | some a =>
      return bumped
        { a.snapshot with
          tables := (replaceFirst isTable (fun _ => a.table) s.tables).getD s.tables
          nextObjectId := a.nextObjectId }

end RedlineDb.Catalog
