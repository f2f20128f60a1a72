import RedlineDb.Storage
import RedlineDb.Tx
import RedlineDb.Wal

/-!
# The page-backed heap

`PageBackedHeap` of `engine/page_heap`. Every write appends a tuple to a heap page of the row's lane
and points the directories at it; updates and deletes first append the version they replace, with
its end transaction set, to an undo page and link it from the new tuple. The log is always present
(an engine without one only skips the appends). A rejected call returns its error; cells it appended
before the rejection are referenced by nothing and are not kept.
-/

namespace RedlineDb

structure AppendLane where
  heapPage : Option Nat
  undoPage : Option Nat
deriving DecidableEq

/-- The directories are sharded by lane in the source; a map is what the shards represent. `store`
and `wal` are the buffer pool and log coordinator the heap shares with the indexes. -/
structure PageBackedHeap where
  relId : Nat
  lanes : Nat
  rowDir : AList (fun _ : Nat => TuplePtr)
  relationRowDir : AList (fun _ : Nat × Nat => TuplePtr)
  appendLanes : Nat → AppendLane
  reusableHeapPages : List Nat
  reusableUndoPages : List Nat
  store : Store
  wal : WalCoordinator
  nextRow : Nat

inductive TupleVisibility
  | visible | deleted | invisible
deriving DecidableEq

def TupleVersion.visibility (t : TupleVersion) (txs : ConcurrentTxStatus) (snapshot : Snapshot)
    (owner : Option Nat) : TupleVisibility :=
  if ¬ txs.isTxVisible t.beginTx snapshot owner then .invisible
  else if t.endTx ≠ 0 ∧ txs.isTxVisible t.endTx snapshot owner then .invisible
  else if t.deleted then .deleted
  else .visible

inductive UndoHit
  | visible (t : TupleVersion)
  | deleted
  | exhausted
deriving DecidableEq

namespace PageBackedHeap

def new (relId lanes : Nat) (store : Store) (wal : WalCoordinator) : PageBackedHeap where
  relId
  lanes := min (max lanes 1) 65535
  rowDir := ∅
  relationRowDir := ∅
  appendLanes := fun _ => ⟨none, none⟩
  reusableHeapPages := []
  reusableUndoPages := []
  store; wal
  nextRow := 1

variable (h : PageBackedHeap)

def reserveRowId : Nat × PageBackedHeap :=
  (h.nextRow, { h with nextRow := (h.nextRow + 1) % 2 ^ 64 })

def lowerNextRow (nextRow : Nat) : PageBackedHeap :=
  { h with nextRow := min h.nextRow nextRow }

/-- A write to relation `0` goes to the heap's own relation. -/
def normRel (rel : Nat) : Nat := if rel = 0 then h.relId else rel

def head (row : Nat) : Option TuplePtr := h.rowDir.lookup row

def headForRelation (rel row : Nat) : Option TuplePtr :=
  h.relationRowDir.lookup (rel, row)

def setHead (row : Nat) (ptr : TuplePtr) : PageBackedHeap :=
  { h with rowDir := h.rowDir.insert row ptr }

def setRelationHead (rel row : Nat) (ptr : TuplePtr) : PageBackedHeap :=
  { h with relationRowDir := h.relationRowDir.insert (rel, row) ptr }

def relationRowids (rel : Nat) : List Nat :=
  (h.relationRowDir.keys.filter (·.1 = rel)).map (·.2)

def laneForRow (row : Nat) : Nat := row % h.lanes

def readTuple (ptr : TuplePtr) : Except Error TupleVersion := do
  Lib.require (¬ ptr.isNull) (.corruptPage "null tuple pointer")
  let page ← h.store.fetch ptr.pageId
  Lib.require (page.generation = ptr.generation) (.corruptPage "tuple pointer generation mismatch")
  page.tupleCell ptr.slot

def readUndo (ptr : Nat) : Except Error UndoRecord := do
  Lib.require (ptr ≠ 0) (.corruptPage "null undo pointer")
  let page ← h.store.fetch (decodeUndoPtr ptr).1
  page.undoCell (decodeUndoPtr ptr).2

/-- The loop over an undo chain that reads and write checks share: stop at the first version the
snapshot sees. The undo pointers of a chain decrease, so the pointer itself bounds the rounds. -/
def walkUndo (h : PageBackedHeap) (txs : ConcurrentTxStatus) (snapshot : Snapshot)
    (owner : Option Nat) :
    Nat → Nat → Except Error UndoHit
  | 0, cursor => if cursor = 0 then .ok .exhausted else .error
      (.corruptPage "undo chain does not end")
  | fuel + 1, cursor =>
    if cursor = 0 then .ok .exhausted
    else do
      let undo ← h.readUndo cursor
      match undo.beforeImage.visibility txs snapshot owner with
      | .visible => return .visible undo.beforeImage
      | .deleted => return .deleted
      | .invisible => h.walkUndo txs snapshot owner fuel undo.prevUndo

def getFromUndo (txs : ConcurrentTxStatus) (snapshot : Snapshot) (owner : Option Nat)
    (undoPtr : Nat) : Except Error (Option Bytes) := do
  match ← h.walkUndo txs snapshot owner undoPtr undoPtr with
  | .visible t => return some t.payload
  | .deleted => return none
  | .exhausted => return none

def getForRelation (txs : ConcurrentTxStatus) (snapshot : Snapshot)
    (owner : Option Nat) (rel row : Nat) : Except Error (Option Bytes) :=
  match h.headForRelation rel row with
  | none => .ok none
  | some ptr => do
    let current ← h.readTuple ptr
    if current.relId ≠ rel then return none
    else
      match current.visibility txs snapshot owner with
      | .visible => return some current.payload
      | .deleted => return none
      | .invisible => h.getFromUndo txs snapshot owner current.undoHead

def currentTupleForRelation (rel row : Nat) : Except Error TupleVersion :=
  match h.headForRelation (h.normRel rel) row with
  | none => .error (.corruptPage "row id missing from relation row directory")
  | some ptr => h.readTuple ptr

/-- The write check: the version a writer replaces. Only behind an aborted head is the undo chain
searched. -/
def visibleCurrentTupleForWrite (tx : Nat) (snapshot : Snapshot)
    (txs : ConcurrentTxStatus) (current : TupleVersion) : Except Error TupleVersion :=
  match current.visibility txs snapshot (some tx) with
  | .visible => .ok current
  | .deleted => .error .notVisible
  | .invisible =>
    match txs.state current.beginTx with
    | .aborted => do
      match ← h.walkUndo txs snapshot (some tx) current.undoHead current.undoHead with
      | .visible t => return t
      | .deleted => throw .notVisible
      | .exhausted => throw .notVisible
    | .committed _ => .error .serializationFailure
    | .inProgress => .error .serializationFailure

def visibleTupleForWriteInRelation (tx : Nat) (snapshot : Snapshot)
    (txs : ConcurrentTxStatus) (rel row : Nat) : Except Error TupleVersion := do
  let current ← h.currentTupleForRelation rel row
  h.visibleCurrentTupleForWrite tx snapshot txs current

def ensureCellSize (needed : Nat) : Except Error Unit :=
  let maximum := h.store.pageSize.bytes - (pageHeaderLen + slotLen)
  Lib.require (needed ≤ maximum) (.recordTooLarge needed maximum)

def takeReusablePage (kind : PageKind) : Option (Nat × PageBackedHeap) :=
  match kind with
  | .heap => h.reusableHeapPages.getLast?.map fun pid =>
      (pid, { h with reusableHeapPages := h.reusableHeapPages.dropLast })
  | .undo => h.reusableUndoPages.getLast?.map fun pid =>
      (pid, { h with reusableUndoPages := h.reusableUndoPages.dropLast })
  | _ => none

/-- The page the append loop goes on with: a reusable one, or a fresh one. -/
def nextAppendPage (kind : PageKind) : Except Error (Nat × PageBackedHeap) :=
  match h.takeReusablePage kind with
  | some r => .ok r
  | none => do
    let (pid, store) ← h.store.allocate kind h.relId
    return (pid, { h with store })

/-- The log append of a staged cell, and the page LSN the page gets. Only a call with an LSN and a
payload logs. -/
def logCell (w : WalCoordinator) (tx lsn : Nat) (walPayload : Option WalPayload) :
    Except Error (Nat × WalCoordinator) :=
  match walPayload with
  | some payload =>
    if lsn ≠ 0 then do
      let (append, w) ← w.append .pageDelta tx payload
      return (append.endLsn, w)
    else .ok (lsn, w)
  | none => .ok (lsn, w)

/-- One round of the append loop on page `pid`. `none` is the full page. -/
def tryAppend (tx pid : Nat) (needsReinit : Bool) (kind : PageKind) (c : Cell)
    (lsn : Nat) (walPayload : Option WalPayload) :
    Except Error (Option (Nat × Nat) × PageBackedHeap) := do
  let (frame, store) ← h.store.pin pid
  let page := if needsReinit then Page.reinitialize kind pid h.relId (frame.page.generation + 1)
    else frame.page
  match page.insertCell h.store.pageSize.bytes c with
  | .ok (slot, staged) => do
    let (pageLsn, wal) ← logCell h.wal tx lsn walPayload
    return (some (slot, page.generation),
      { h with wal, store := store.setFrame pid ⟨staged.setPageLsn pageLsn, true⟩ })
  | .error _ => return (none, { h with store := store.setFrame pid { frame with page } })

/-- The append loop. A round on a reinitialised page succeeds, so it runs at most twice. -/
def appendLoop (tx : Nat) (kind : PageKind) (c : Cell) (lsn : Nat)
    (walPayload : Option WalPayload) :
    Nat → PageBackedHeap → Nat → Bool → Except Error ((Nat × Nat × Nat) × PageBackedHeap)
  | 0, _, _, _ => .error (.corruptPage "append loop does not end")
  | rounds + 1, h, pid, needsReinit => do
    let (outcome, h) ← h.tryAppend tx pid needsReinit kind c lsn walPayload
    match outcome with
    | some (slot, generation) => return ((pid, slot, generation), h)
    | none =>
      let (pid, h) ← h.nextAppendPage kind
      appendLoop tx kind c lsn walPayload rounds h pid true

/-- `append_cell`: page, slot and generation of the new cell. The caller's lane goes on with that
page. -/
def appendCell (tx : Nat) (currentPage : Option Nat) (kind : PageKind) (c : Cell)
    (lsn : Nat) (walPayload : Option WalPayload) :
    Except Error ((Nat × Nat × Nat) × PageBackedHeap) := do
  h.ensureCellSize c.encodedLen
  match currentPage with
  | some pid => appendLoop tx kind c lsn walPayload 2 h pid false
  | none =>
    let (pid, h) ← h.nextAppendPage kind
    appendLoop tx kind c lsn walPayload 2 h pid true

def setLane (i : Nat) (lane : AppendLane) : PageBackedHeap :=
  { h with appendLanes := fun j => if j = i then lane else h.appendLanes j }

def appendTuple (tx row : Nat) (t : TupleVersion) (lsn : Nat)
    (walPayload : Option WalPayload) : Except Error (TuplePtr × PageBackedHeap) := do
  let lane := h.laneForRow row
  let ((pid, slot, generation), h) ←
    h.appendCell tx (h.appendLanes lane).heapPage .heap (.tuple t) lsn walPayload
  return (⟨pid, slot, generation⟩, h.setLane lane { h.appendLanes lane with heapPage := some pid })

def appendUndo (tx row : Nat) (u : UndoRecord) (lsn : Nat) :
    Except Error (Nat × PageBackedHeap) := do
  let lane := h.laneForRow row
  let ((pid, slot, _), h) ← h.appendCell tx (h.appendLanes lane).undoPage .undo (.undo u) lsn none
  return (encodeUndoPtr pid slot, h.setLane lane { h.appendLanes lane with undoPage := some pid })

/-- `append_update_version` and `append_delete_version` replace `current` by a new tuple: the
version replaced goes to the undo pages, with its end transaction set. -/
def appendVersion (kind : UndoKind) (tx rel row : Nat) (next current : TupleVersion)
    (lsn : Nat) (walPayload : Option WalPayload) : Except Error PageBackedHeap := do
  let (undoPtr, h) ← h.appendUndo tx row
    { kind, txId := tx, rowId := row, prevUndo := current.undoHead
      beforeImage := { current with endTx := tx } } lsn
  let (ptr, h) ← h.appendTuple tx row { next with undoHead := undoPtr } lsn walPayload
  return (h.setHead row ptr).setRelationHead rel row ptr

def appendUpdateVersion (tx rel row : Nat) (payload : Bytes) (current : TupleVersion)
    (lsn : Nat) : Except Error PageBackedHeap := do
  let rel := h.normRel rel
  let next := TupleVersion.new row rel tx payload
  h.ensureCellSize next.encodedSize
  let walPayload := if lsn ≠ 0 then some (WalPayload.heapUpdate tx rel row payload) else none
  h.appendVersion .updateBeforeImage tx rel row next current lsn walPayload

def appendDeleteVersion (tx rel row : Nat) (current : TupleVersion) (lsn : Nat) :
    Except Error PageBackedHeap :=
  let rel := h.normRel rel
  h.appendVersion .deleteBeforeImage tx rel row (TupleVersion.tombstone row rel tx) current lsn
    (some (.heapDelete tx rel row))

/-- `insert_recovered_at`: the new tuple has no undo chain, whatever the row had before. -/
def insertRecoveredAt (tx rel row : Nat) (payload : Bytes) (lsn : Nat) :
    Except Error PageBackedHeap := do
  let h := { h with nextRow := advanceRowPast h.nextRow row }
  let rel := h.normRel rel
  let walPayload := if lsn ≠ 0 then some (WalPayload.heapInsert tx rel row payload) else none
  let (ptr, h) ← h.appendTuple tx row (.new row rel tx payload) lsn walPayload
  return (h.setHead row ptr).setRelationHead rel row ptr

def insertForRelation (tx rel row : Nat) (payload : Bytes) (lsn : Nat) :
    Except Error PageBackedHeap :=
  { h with nextRow := advanceRowPast h.nextRow row }.insertRecoveredAt tx rel row payload lsn

def updateForRelation (tx : Nat) (snapshot : Snapshot) (txs : ConcurrentTxStatus)
    (rel row : Nat) (payload : Bytes) (lsn : Nat) : Except Error PageBackedHeap := do
  let current ← h.visibleTupleForWriteInRelation tx snapshot txs rel row
  h.appendUpdateVersion tx rel row payload current lsn

def deleteForRelation (tx : Nat) (snapshot : Snapshot) (txs : ConcurrentTxStatus)
    (rel row : Nat) (lsn : Nat) : Except Error PageBackedHeap := do
  let current ← h.visibleTupleForWriteInRelation tx snapshot txs rel row
  h.appendDeleteVersion tx rel row current lsn

end PageBackedHeap
end RedlineDb
