import Mathlib.Algebra.GroupWithZero.Nat
import Mathlib.Data.List.Basic

/-!
# Identifiers, tuples, undo records and pages

Identifiers (transaction, relation, row, page and index ids, CSNs, LSNs, page generations) are the
engine's 64-bit counters, kept as natural numbers. An undo pointer packs a page id and a slot
(`encodeUndoPtr`) and is null when it is `0`. A page is the slotted page of `format/page`: its
header fields, its special area and its cells in slot order. A cell is kept decoded, together with
the length of its encoding, which is all the page's space accounting reads.
-/

namespace RedlineDb

abbrev Bytes := List UInt8

instance lawfulBEqIds : LawfulBEq (Nat × Nat) := inferInstance

inductive Error
  | io
  | invalidMagic (actual : Nat)
  | bufferTooSmall (needed actual : Nat)
  | corruptPage (message : String)
  | corruptWal (message : String)
  | pageFull
  | recordTooLarge (needed maximum : Nat)
  | notVisible
  | writeConflict
  | lockTimeout
  | serializationFailure
  | unsupportedIsolation
  | transactionClosed
  | datatypeMismatch
  | constraintViolation (message : String)
  | transactionState (message : String)
  | unsupportedVersion (version : Nat)
  | invalidChecksum
  | objectExists
  | objectNotFound
  | columnNotFound
  | unsupportedDdl (message : String)
  | catalogCorrupt (message : String)
  | unsupportedSql (message : String)
  | notAuthorized
  | triggerIgnore
  | commitMaybeCommitted
  | stackOverflow
deriving DecidableEq

def pageHeaderLen : Nat := 64
def slotLen : Nat := 4
def tupleHeaderLen : Nat := 72
def undoHeaderLen : Nat := 48
def indexSpecialLen : Nat := 256

structure TuplePtr where
  pageId : Nat
  slot : Nat
  generation : Nat
deriving DecidableEq

def TuplePtr.isNull (p : TuplePtr) : Bool := p.pageId == 0 && p.slot == 65535

/-- One version of a row. `deleted` is `TUPLE_FLAG_DELETED`, the only flag; the CSN hints are always
zero and never read. -/
structure TupleVersion where
  rowId : Nat
  relId : Nat
  beginTx : Nat
  endTx : Nat
  undoHead : Nat
  deleted : Bool
  payload : Bytes
deriving DecidableEq

namespace TupleVersion

def new (rowId : Nat) (relId : Nat) (beginTx : Nat) (payload : Bytes) : TupleVersion where
  rowId; relId; beginTx; endTx := 0; undoHead := 0; deleted := false; payload

def tombstone (rowId : Nat) (relId : Nat) (beginTx : Nat) : TupleVersion where
  rowId; relId; beginTx; endTx := 0; undoHead := 0; deleted := true; payload := []

def encodedSize (t : TupleVersion) : Nat := tupleHeaderLen + t.payload.length

end TupleVersion

inductive UndoKind
  | insertDelete | updateBeforeImage | deleteBeforeImage
deriving DecidableEq

structure UndoRecord where
  kind : UndoKind
  txId : Nat
  rowId : Nat
  prevUndo : Nat
  beforeImage : TupleVersion
deriving DecidableEq

def UndoRecord.encodedSize (u : UndoRecord) : Nat := undoHeaderLen + u.beforeImage.encodedSize

inductive IndexUniqueness
  | nonUnique | unique
deriving DecidableEq

structure IndexRowRef where
  rowId : Nat
  tuple : TuplePtr
deriving DecidableEq

/-- `Entry::Leaf`: the physical key is the logical key followed by the row reference. -/
structure LeafEntry where
  logicalKey : Bytes
  row : IndexRowRef
  physical : Bytes
  createTx : Nat
  deleteTx : Nat
deriving DecidableEq

structure InternalEntry where
  separator : Bytes
  child : Nat
deriving DecidableEq

inductive Cell
  | tuple (t : TupleVersion)
  | undo (u : UndoRecord)
  | leaf (e : LeafEntry)
  | internal (e : InternalEntry)
deriving DecidableEq

def Cell.encodedLen : Cell → Nat
  | .tuple t => t.encodedSize
  | .undo u => u.encodedSize
  | .leaf e => 42 + e.logicalKey.length + e.physical.length
  | .internal e => 10 + e.separator.length

/-- The page kinds the heap and the indexes allocate. -/
inductive PageKind
  | heap | undo | btreeInternal | btreeLeaf | btreeMeta
deriving DecidableEq

inductive PageState
  | neverAllocated | reusable | active | retired | quarantined | invalid
deriving DecidableEq

structure MetaHeader where
  indexId : Nat
  rootPageId : Nat
  rootLevel : Nat
  uniqueness : IndexUniqueness
deriving DecidableEq

structure IndexPageHeader where
  leaf : Bool
  level : Nat
  indexId : Nat
  left : Option Nat
  right : Option Nat
  highKey : Bytes
deriving DecidableEq

inductive Special
  | none
  | btreeMeta (m : MetaHeader)
  | btreePage (h : IndexPageHeader)
deriving DecidableEq

def Special.len : Special → Nat
  | .none => 0
  | _ => indexSpecialLen

structure Page where
  kind : PageKind
  pageId : Nat
  relId : Nat
  pageLsn : Nat
  generation : Nat
  state : PageState
  special : Special
  cells : List Cell
deriving DecidableEq

namespace Page

def new (kind : PageKind) (pageId : Nat) (relId : Nat) : Page where
  kind; pageId; relId; pageLsn := 0; generation := 1; state := .active; special :=
    .none; cells := []

def reinitialize (kind : PageKind) (pageId : Nat) (relId : Nat) (generation : Nat) : Page where
  kind; pageId; relId; pageLsn := 0; generation; state := .active; special := .none; cells := []

def setPageLsn (p : Page) (lsn : Nat) : Page := { p with pageLsn := lsn }

def lower (p : Page) : Nat := pageHeaderLen + slotLen * p.cells.length

def cellBytes (p : Page) : Nat := (p.cells.map Cell.encodedLen).sum

def upper (pageSize : Nat) (p : Page) : Nat := pageSize - p.special.len - p.cellBytes

def insertCell (pageSize : Nat) (p : Page) (c : Cell) : Except Error (Nat × Page) :=
  if p.lower + slotLen + c.encodedLen ≤ p.upper pageSize then
    .ok (p.cells.length, { p with cells := p.cells ++ [c] })
  else .error .pageFull

def cell (p : Page) (slot : Nat) : Except Error Cell :=
  match p.cells[slot]? with
  | some c => .ok c
  | none => .error (.corruptPage "slot out of bounds")

def tupleCell (p : Page) (slot : Nat) : Except Error TupleVersion :=
  match p.cells[slot]? with
  | some (.tuple t) => .ok t
  | some _ => .error (.invalidMagic 1)
  | none => .error (.corruptPage "slot out of bounds")

def undoCell (p : Page) (slot : Nat) : Except Error UndoRecord :=
  match p.cells[slot]? with
  | some (.undo u) => .ok u
  | some _ => .error (.invalidMagic 1)
  | none => .error (.corruptPage "slot out of bounds")

end Page

def encodeUndoPtr (pageId : Nat) (slot : Nat) : Nat := pageId * 65536 + slot

def decodeUndoPtr (p : Nat) : Nat × Nat := (p / 65536, p % 65536)

theorem decode_encodeUndoPtr {pageId : Nat} {slot : Nat} (h : slot < 65536) :
    decodeUndoPtr (encodeUndoPtr pageId slot) = (pageId, slot) := by
  simp only [decodeUndoPtr, encodeUndoPtr, Prod.mk.injEq]
  omega

def advancePast (value seen : Nat) : Nat := max value (seen + 1)

/-- Row ids are `u64`s, and SQL values can reach the last one. -/
def maxRowId : Nat := 2 ^ 64 - 1

/-- `advance_atomic_past` of the row counter, which saturates. -/
def advanceRowPast (value seen : Nat) : Nat := max value (min (seen + 1) maxRowId)

end RedlineDb
