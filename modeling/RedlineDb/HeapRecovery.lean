import RedlineDb.Heap

/-!
# The heap during recovery

Replay of the log's heap records (`*_recovered_for_relation`: no log record, LSN zero) and the
rebuild of the directories from the pages (`directory/load.rs`). Both scan the page file from its
first page; a page that was never written reads as a hole without magic and is passed over. A scan
pins the pages it reads, which changes no page's content.
-/

namespace RedlineDb
namespace PageBackedHeap

def scanPages (pageCount : Nat) : List Nat := List.range' 1 pageCount

variable (h : PageBackedHeap)

def scanFetch (pid : Nat) : Except Error (Option Page) :=
  match h.store.fetch pid with
  | .ok p => .ok (some p)
  | .error (.invalidMagic 0) => .ok none
  | .error e => .error e

/-- A page of the heap: the scans pass over undo and index pages and over pages of other heaps. -/
def isOwnHeapPage (p : Page) : Bool := p.kind = .heap ∧ p.relId = h.relId

def findInPage (h : PageBackedHeap) (rel row : Nat) (p : Page) :
    List Nat → Except Error (Option TupleVersion)
  | [] => .ok none
  | slot :: slots => do
    let t ← p.tupleCell slot
    if t.rowId = row ∧ h.normRel t.relId = rel then return some t
    else h.findInPage rel row p slots

def findInPages (h : PageBackedHeap) (rel row : Nat) : List Nat → Except Error (Option TupleVersion)
  | [] => .ok none
  | pid :: pids => do
    match ← h.scanFetch pid with
    | none => h.findInPages rel row pids
    | some p =>
      if h.isOwnHeapPage p then do
        match ← h.findInPage rel row p (List.range p.cells.length) with
        | some t => return some t
        | none => h.findInPages rel row pids
      else h.findInPages rel row pids

/-- The version a replayed update or delete replaces: the directory's, else the first one found in
the pages. The directory is asked before relation `0` is resolved. -/
def currentTupleRecovered (rel row : Nat) : Except Error TupleVersion :=
  match h.headForRelation rel row with
  | some ptr => h.readTuple ptr
  | none => do
    match ← h.findInPages (h.normRel rel) row (scanPages h.store.pageCount) with
    | some t => return t
    | none => throw (.corruptPage "row id missing from relation row directory")

def insertRecoveredForRelation (tx rel row : Nat) (payload : Bytes) : Except Error PageBackedHeap :=
  h.insertRecoveredAt tx rel row payload 0

def updateRecoveredForRelation (tx rel row : Nat) (payload : Bytes) :
    Except Error PageBackedHeap := do
  let current ← h.currentTupleRecovered rel row
  h.appendUpdateVersion tx rel row payload current 0

def deleteRecoveredForRelation (tx rel row : Nat) : Except Error PageBackedHeap := do
  let current ← h.currentTupleRecovered rel row
  h.appendDeleteVersion tx rel row current 0

def redoPageImage (p : Page) (lsn : Nat) : PageBackedHeap :=
  { h with store := h.store.writePageDirect (p.setPageLsn lsn) }

def loadTuple (ptr : TuplePtr) (t : TupleVersion) : PageBackedHeap :=
  let h := { h with nextRow := advanceRowPast h.nextRow t.rowId }
  let rel := h.normRel t.relId
  let h := if (h.head t.rowId).isNone then h.setHead t.rowId ptr else h
  if (h.headForRelation rel t.rowId).isNone then h.setRelationHead rel t.rowId ptr else h

def loadSlots (pid : Nat) (p : Page) : List Nat → PageBackedHeap → Except Error PageBackedHeap
  | [], h => .ok h
  | slot :: slots, h => do
    let t ← p.tupleCell slot
    loadSlots pid p slots (h.loadTuple ⟨pid, slot, p.generation⟩ t)

def loadPages : List Nat → PageBackedHeap → Except Error PageBackedHeap
  | [], h => .ok h
  | pid :: pids, h => do
    match ← h.scanFetch pid with
    | none => loadPages pids h
    | some p =>
      if h.isOwnHeapPage p ∧ p.state ≠ .reusable then do
        -- the newest slot of a page comes first
        let h ← loadSlots pid p (List.range p.cells.length).reverse h
        loadPages pids h
      else loadPages pids h

def loadRowDirectoryFromPages (pageCount : Nat) : Except Error PageBackedHeap :=
  loadPages (scanPages pageCount) h

def pushReusablePage (kind : PageKind) (pid : Nat) : PageBackedHeap :=
  match kind with
  | .heap =>
    if pid ∈ h.reusableHeapPages then
      h else { h with reusableHeapPages := h.reusableHeapPages ++ [pid] }
  | .undo =>
    if pid ∈ h.reusableUndoPages then
      h else { h with reusableUndoPages := h.reusableUndoPages ++ [pid] }
  | _ => h

def loadReusable : List Nat → PageBackedHeap → Except Error PageBackedHeap
  | [], h => .ok h
  | pid :: pids, h => do
    match ← h.scanFetch pid with
    | none => loadReusable pids h
    | some p =>
      if p.relId = h.relId ∧ p.state = .reusable then
        loadReusable pids (h.pushReusablePage p.kind pid)
      else loadReusable pids h

def loadReusablePagesFromPages (pageCount : Nat) : Except Error PageBackedHeap :=
  loadReusable (scanPages pageCount) h

end PageBackedHeap
end RedlineDb
