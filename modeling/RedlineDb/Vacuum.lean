import RedlineDb.HeapRecovery
import RedlineDb.SnapshotReads

/-!
# Vacuum of the page-backed heap

`vacuum` of `engine/page_heap/directory/vacuum.rs`. It removes the heads of rows whose deletion is
older than the horizon, cuts undo chains that only versions older than the horizon are behind, and
gives back heap pages that no head is left on. A page given back is emptied by the next append that
takes it.

`ReuseWf` is the invariant of a heap with such pages: they are heap pages, no lane appends to them
and no head is on them. Appends keep the cells that a head or an undo pointer leads to (`Keeps`).
-/

namespace RedlineDb
open Lib

/-- `overwrite_cell`: in place, so the length must stay. -/
def Page.overwriteCell (p : Page) (slot : Nat) (c : Cell) : Except Error Page :=
  match p.cells[slot]? with
  | none => .error (.corruptPage "slot out of bounds")
  | some old => do
    require (c.encodedLen = old.encodedLen) (.corruptPage "overwrite cell length mismatch")
    return { p with cells := p.cells.set slot c }

structure VacuumStats where
  rowsScanned : Nat
  chainsPruned : Nat
  undoLinksRemoved : Nat
  deadRowsRemoved : Nat
  oldestActiveSnapshotCsn : Nat
deriving DecidableEq

namespace PageBackedHeap

/-! ### The source's functions -/

variable (h : PageBackedHeap)

def allRelationEntries : List ((Nat × Nat) × TuplePtr) :=
  h.relationRowDir.entries.map fun e => (e.1, e.2)

def removeHeadIf (row : Nat) (expected : TuplePtr) : Bool × PageBackedHeap :=
  if h.rowDir.lookup row = some expected then (true, { h with rowDir := h.rowDir.erase row })
    else (false, h)

def removeRelationHeadIf (rel row : Nat) (expected : TuplePtr) : Bool × PageBackedHeap :=
  if h.relationRowDir.lookup (rel, row) = some expected then
    (true, { h with relationRowDir := h.relationRowDir.erase (rel, row) })
  else (false, h)

def pageHasNoHeads (pid : Nat) : Bool :=
  h.relationRowDir.entries.all fun e => e.2.pageId ≠ pid

def AppendLane.clear (lane : AppendLane) (pid : Nat) : AppendLane where
  heapPage := if lane.heapPage = some pid then none else lane.heapPage
  undoPage := if lane.undoPage = some pid then none else lane.undoPage

def clearCurrentPageReference (pid : Nat) : PageBackedHeap :=
  { h with appendLanes := fun i => AppendLane.clear (h.appendLanes i) pid }

/-- The frame does not become dirty. -/
def markPageReusable (pid : Nat) (kind : PageKind) : Except Error PageBackedHeap := do
  let h := h.clearCurrentPageReference pid
  let (frame, store) ← h.store.pin pid
  let store := store.setFrame pid { frame with page := { frame.page with state := .reusable } }
  return { h with store }.pushReusablePage kind pid

/-- `mark_dirty(Lsn::ZERO)` also sets the page LSN. -/
def overwriteTuple (ptr : TuplePtr) (t : TupleVersion) : Except Error PageBackedHeap := do
  require (¬ ptr.isNull) (.corruptPage "null tuple pointer")
  let (frame, store) ← h.store.pin ptr.pageId
  let page ← frame.page.overwriteCell ptr.slot (.tuple t)
  return { h with store := store.setFrame ptr.pageId ⟨page.setPageLsn 0, true⟩ }

/-- The pointers of a chain decrease, so the pointer bounds the rounds. -/
def removableUndoChainLen (h : PageBackedHeap) (horizon : Nat) (txs : ConcurrentTxStatus) :
    Nat → Nat → Nat → Except Error Nat
  | 0, cursor, count => if cursor = 0 then
      .ok count else .error (.corruptPage "undo chain does not end")
  | fuel + 1, cursor, count =>
    if cursor = 0 then .ok count
    else do
      let undo ← h.readUndo cursor
      if undo.beforeImage.endTx = 0 then return 0
      else
        match txs.state undo.beforeImage.endTx with
        | .committed endCsn =>
          if endCsn < horizon then
            h.removableUndoChainLen horizon txs fuel undo.prevUndo (count + 1)
          else return 0
        | .inProgress | .aborted => return 0

def vacuumRow (horizon : Nat) (txs : ConcurrentTxStatus) (stats : VacuumStats) (rel row : Nat)
    (ptr : TuplePtr) : Except Error (VacuumStats × PageBackedHeap) :=
  if h.headForRelation rel row ≠ some ptr then .ok (stats, h)
  else do
    let current ← h.readTuple ptr
    match txs.state current.beginTx with
    | .inProgress | .aborted => return (stats, h)
    | .committed currentCsn =>
      if current.deleted then
        let rel := if current.relId = 0 then h.relId else current.relId
        if currentCsn < horizon then
          let (removed, h) := h.removeRelationHeadIf rel row ptr
          if removed then
            let (_, h) := h.removeHeadIf row ptr
            let stats := { stats with deadRowsRemoved := stats.deadRowsRemoved + 1 }
            if h.pageHasNoHeads ptr.pageId then
              return (stats, ← h.markPageReusable ptr.pageId .heap)
            else return (stats, h)
          else return (stats, h)
        else return (stats, h)
      else if current.undoHead = 0 then return (stats, h)
      else
        let removable ← h.removableUndoChainLen horizon txs current.undoHead current.undoHead 0
        if removable = 0 then return (stats, h)
        else if h.headForRelation rel row ≠ some ptr then return (stats, h)
        else
          let h ← h.overwriteTuple ptr { current with undoHead := 0 }
          let stats := { stats with
            chainsPruned := stats.chainsPruned + 1
            undoLinksRemoved := stats.undoLinksRemoved + removable }
          if h.pageHasNoHeads ptr.pageId then return (stats, ← h.markPageReusable ptr.pageId .heap)
          else return (stats, h)

def vacuum (horizon : Nat) (txs : ConcurrentTxStatus) :
    Except Error (VacuumStats × PageBackedHeap) :=
  let rows := h.allRelationEntries
  rows.foldlM (fun s e => s.2.vacuumRow horizon txs s.1 e.1.1 e.1.2 e.2)
    (⟨rows.length, 0, 0, 0, horizon⟩, h)

variable {h} {h' : PageBackedHeap}

structure HeadOk (h : PageBackedHeap) (rel row : Nat) (ptr : TuplePtr) (t : TupleVersion)
    (l : List TupleVersion) : Prop where
  tuple : h.readTuple ptr = .ok t
  relId : t.relId = rel
  rowId : t.rowId = row
  chain : UndoChain h row t.undoHead l
  linked : Linked 0 (t :: l)

structure ReuseWf (h : PageBackedHeap) : Prop extends LaneWf h where
  head : ∀ rel row ptr, h.headForRelation rel row = some ptr →
    ptr.pageId ∉ h.reusableHeapPages ∧ (rel = 0 → h.relId = 0) ∧ ∃ t l, HeadOk h rel row ptr t l

theorem ReuseWf.rowChain (hw : ReuseWf h) (rel row : Nat) :
    ∃ l, RowChain h rel row l ∧ Linked 0 l := by
  cases hd : h.headForRelation rel row with
  | none => exact ⟨[], .none hd, trivial⟩
  | some ptr =>
    obtain ⟨-, -, t, l, hok⟩ := hw.head rel row ptr hd
    exact ⟨t :: l, .some hd hok.tuple hok.relId hok.chain, hok.linked⟩

theorem readTuple_of_store (hs : h'.store = h.store) (ptr : TuplePtr) :
    h'.readTuple ptr = h.readTuple ptr := by
  unfold readTuple
  rw [hs]

theorem readUndo_of_store (hs : h'.store = h.store) (ptr : Nat) :
    h'.readUndo ptr = h.readUndo ptr := by
  unfold readUndo
  rw [hs]

variable {ptr : TuplePtr}

theorem HeadOk.of_store {rel row : Nat} {t : TupleVersion} {l : List TupleVersion}
    (hok : HeadOk h rel row ptr t l) (hs : h'.store = h.store) : HeadOk h' rel row ptr t l :=
  { hok with
    tuple := (readTuple_of_store hs ptr).trans hok.tuple
    chain := hok.chain.of_undo fun ptr _ hu => (readUndo_of_store hs ptr).trans hu }

section
variable (hw : ReuseWf h)
include hw

/-- The row counter, the log and the row directory do not matter, and heads may go. -/
theorem ReuseWf.of_store
    (hsame : h' = { h with
      nextRow := h'.nextRow, wal := h'.wal, rowDir := h'.rowDir
      relationRowDir := h'.relationRowDir })
    (hdir : ∀ k ptr, h'.relationRowDir.lookup k = some ptr → h.relationRowDir.lookup k = some ptr) :
    ReuseWf h' := by
  have hs : h'.store = h.store := by rw [hsame]
  have hhead : ∀ rel row ptr, h'.headForRelation rel row = some ptr →
      ptr.pageId ∉ h.reusableHeapPages ∧ (rel = 0 → h.relId = 0) ∧
        ∃ t l, HeadOk h' rel row ptr t l := fun rel row ptr hd => by
    obtain ⟨hnr, hz, t, l, hok⟩ := hw.head rel row ptr (hdir _ _ hd)
    exact ⟨hnr, hz, t, l, hok.of_store hs⟩
  rw [hsame] at hhead ⊢
  exact { hw with head := hhead }

variable {h₁ : PageBackedHeap} {lsn rel row tx : Nat} {l : List TupleVersion} {t : TupleVersion}

omit hw in
theorem HeadOk.keeps
    (hok : HeadOk h rel row ptr t l) (hK : Keeps h h') (hn : ptr.pageId ∉ h.reusableHeapPages) :
    HeadOk h' rel row ptr t l :=
  { hok with
    tuple := hK.tuple ptr t hn hok.tuple
    chain := hok.chain.of_undo hK.undo }

theorem ReuseWf.keeps (hw' : LaneWf h' ∧ Keeps h h') : ReuseWf h' := by
  refine { hw'.1 with head := fun rel row ptr hd => ?_ }
  have hK := hw'.2
  rw [headForRelation, hK.dir] at hd
  obtain ⟨hnr, hz, t, l, hok⟩ := hw.head rel row ptr hd
  exact ⟨fun hq => hnr (hK.reusable _ hq), fun h0 => hK.relId.trans (hz h0), t, l, hok.keeps hK hnr⟩

variable {wp : Option WalPayload}

theorem ReuseWf.setHeads (hz : rel = 0 → h.relId = 0) (hnr : ptr.pageId ∉ h.reusableHeapPages)
    (hok : HeadOk h rel row ptr t l) :
    ReuseWf ((h.setHead row ptr).setRelationHead rel row ptr) := by
  refine { hw with head := fun rel' row' ptr' hd => ?_ }
  rcases lookup_insert_eq_some.1 hd with ⟨heq, rfl⟩ | ⟨-, hd⟩
  · cases heq
    exact ⟨hnr, hz, t, l, hok.of_store rfl⟩
  · obtain ⟨hnr', hz', t', l', hok'⟩ := hw.head rel' row' ptr' hd
    exact ⟨hnr', hz', t', l', hok'.of_store rfl⟩

structure WroteRow (h : PageBackedHeap) (key : Nat × Nat) (h' : PageBackedHeap) : Prop where
  wf : ReuseWf h'
  other : ∀ rel row l, (rel, row) ≠ key → RowChain h rel row l → RowChain h' rel row l

theorem WroteRow.of_setHeads (hw₁ : ReuseWf h₁) (hK : Keeps h h₁) (hz : rel = 0 → h.relId = 0)
    (hnr : ptr.pageId ∉ h₁.reusableHeapPages) (hok : HeadOk h₁ rel row ptr t l) :
    WroteRow h (rel, row) ((h₁.setHead row ptr).setRelationHead rel row ptr) := by
  refine ⟨hw₁.setHeads (fun h0 => hK.relId.trans (hz h0)) hnr hok, fun rel' row' l' hne hc => ?_⟩
  have hdir : ((h₁.setHead row ptr).setRelationHead rel row ptr).headForRelation rel' row' =
      h.headForRelation rel' row' := by
    simp [headForRelation, setRelationHead, setHead, AList.lookup_insert_ne hne, hK.dir]
  cases hc with
  | none h1 => exact .none (hdir.trans h1)
  | some h1 h2 h3 h4 =>
    have hnr' := (hw.head _ _ _ h1).1
    exact .some (hdir.trans h1) (hK.tuple _ _ hnr' h2) h3 (h4.of_undo hK.undo)

omit hw in
theorem normRel_eq_zero (hz : h.normRel rel = 0) : h.relId = 0 := by
  unfold normRel at hz
  split at hz
  · exact hz
  · next hne => exact absurd hz hne

theorem insertForRelation_wrote {payload : Bytes}
    (hi : h.insertForRelation tx rel row payload lsn = .ok h') :
    WroteRow h (h.normRel rel, row) h' := by
  simp only [insertForRelation, insertRecoveredAt, bind_eq_ok, pure_eq_ok, Prod.exists] at hi
  obtain ⟨ptr, h2, ha, rfl⟩ := hi
  have hw0 : ReuseWf { h with nextRow := advanceRowPast (advanceRowPast h.nextRow row) row } :=
    hw.of_store rfl fun _ _ hd => hd
  obtain ⟨hw1, hr, hnr, -⟩ := appendTuple_put hw0.toLaneWf ha
  exact .of_setHeads hw (hw0.keeps hw1) { hw1.2 with } normRel_eq_zero hnr
    ⟨hr, rfl, rfl, .nil, rfl, trivial⟩

theorem appendVersion_wrote {kind : UndoKind} {next current : TupleVersion}
    (hz : rel = 0 → h.relId = 0) (hrel : next.relId = rel) (hrow : next.rowId = row)
    (htx : next.beginTx = tx) (hend : next.endTx = 0) (hu : UndoChain h row current.undoHead l)
    (hl : Linked current.beginTx l)
    (ha : h.appendVersion kind tx rel row next current lsn wp = .ok h') :
    WroteRow h (rel, row) h' := by
  simp only [appendVersion, bind_eq_ok, pure_eq_ok, Prod.exists] at ha
  obtain ⟨undoPtr, h2, hundo, ptr, h3, htup, rfl⟩ := ha
  obtain ⟨hw1, hr1, hlt, -⟩ := appendUndo_put hw.toLaneWf rfl hundo
  obtain ⟨hw2, hr2, hnr, -⟩ := appendTuple_put hw1.1 htup
  have hK := hw1.2.trans hw2.2
  have hprev : current.undoHead < undoPtr := hu.lt (Nat.pos_of_ne_zero (readUndo_eq_ok.1 hr1).1) hlt
  have hchain : UndoChain h3 row undoPtr ({ current with endTx := tx } :: l) :=
    UndoChain.cons (u := ⟨kind, tx, row, current.undoHead, { current with endTx := tx }⟩)
      (hw2.2.undo _ _ hr1) rfl hprev rfl (hu.of_undo hK.undo)
  have hlinked : Linked 0 ({ next with undoHead := undoPtr } :: { current with endTx := tx } ::
      l) := ⟨hend, htx.symm, hl⟩
  exact .of_setHeads hw (hw.keeps ⟨hw2.1, hK⟩) hK hz hnr ⟨hr2, hrel, hrow, hchain, hlinked⟩

variable {txs : ConcurrentTxStatus}

theorem updateForRelation_wrote {snapshot : Snapshot} {payload : Bytes}
    (hu : h.updateForRelation tx snapshot txs rel row payload lsn = .ok h') :
    WroteRow h (h.normRel rel, row) h' := by
  simp only [updateForRelation, appendUpdateVersion, bind_eq_ok] at hu
  obtain ⟨current, hcur, _, -, ha⟩ := hu
  obtain ⟨l, hc, hl⟩ := hw.rowChain (h.normRel rel) row
  obtain ⟨a, b, rfl, -⟩ := visibleTupleForWrite_ok hc hcur
  refine appendVersion_wrote hw normRel_eq_zero ?_ ?_ ?_ ?_ (hc.suffix rfl) hl.suffix ha <;> rfl

theorem deleteForRelation_wrote {snapshot : Snapshot}
    (hd : h.deleteForRelation tx snapshot txs rel row lsn = .ok h') :
    WroteRow h (h.normRel rel, row) h' := by
  simp only [deleteForRelation, appendDeleteVersion, bind_eq_ok] at hd
  obtain ⟨current, hcur, ha⟩ := hd
  obtain ⟨l, hc, hl⟩ := hw.rowChain (h.normRel rel) row
  obtain ⟨a, b, rfl, -⟩ := visibleTupleForWrite_ok hc hcur
  refine appendVersion_wrote hw normRel_eq_zero ?_ ?_ ?_ ?_ (hc.suffix rfl) hl.suffix ha <;> rfl

end
end PageBackedHeap
end RedlineDb
