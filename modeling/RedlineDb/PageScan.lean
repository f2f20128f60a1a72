import RedlineDb.Lib.Workers
import RedlineDb.SnapshotReads

/-!
# Scans of the heap pages

`parallel_scan_page_range` of `engine/page_heap/scan.rs`: it reads the tuples of the heap pages
themselves, in a range of pages shared out among workers, and returns those the snapshot sees. A
tuple on a heap page never gets an end transaction; only the copy on the undo page does. So the scan
returns every version of a row that the snapshot sees and that holds a payload, where a point read
returns the newest one (`scan_agrees_iff`).
-/

namespace Lib
variable {τ α : Type} {sees : τ → Bool} {vs : List (Version τ α)}

/-- Below the newest version that the reader sees, it sees deletions only. -/
def ShowsLast (sees : τ → Bool) (vs : List (Version τ α)) : Prop :=
  ∀ v ∈ (vs.filter fun v => sees v.tx).tail, v.value = none

instance [DecidableEq α] (sees : τ → Bool) (vs : List (Version τ α)) :
    Decidable (ShowsLast sees vs) :=
  inferInstanceAs (Decidable (∀ v ∈ _, _))

theorem newest_eq_head (sees : τ → Bool) (vs : List (Version τ α)) :
    newest sees vs = (vs.filter fun v => sees v.tx).head?.bind Version.value := by
  induction vs with
  | nil => rfl
  | cons v vs ih =>
    rw [newest, List.filter_cons]
    split
    · rfl
    · exact ih

/-- The versions seen with a value are the newest one alone, or none when it deletes, iff the rest
seen are deletions. -/
theorem count_eq_newest_iff [DecidableEq α] :
    (∀ a, vs.countP (fun v => sees v.tx && decide (v.value = some a)) =
      if newest sees vs = some a then 1 else 0) ↔
      ShowsLast sees vs := by
  have hcount : ∀ a, vs.countP (fun v => sees v.tx && decide (v.value = some a)) =
      (vs.filter fun v => sees v.tx).countP fun v => decide (v.value = some a) := fun a => by
    rw [List.countP_filter]
    exact List.countP_congr fun v _ => by simp [and_comm]
  simp only [hcount, newest_eq_head, ShowsLast]
  cases vs.filter fun v => sees v.tx with
  | nil => simp
  | cons w ws =>
    simp only [List.countP_cons, List.head?_cons, Option.bind_some, List.tail_cons,
      decide_eq_true_eq]
    constructor
    · intro h v hv
      by_contra hne
      obtain ⟨a, ha⟩ := Option.ne_none_iff_exists'.1 hne
      have hpos : 0 < ws.countP fun v => decide (v.value = some a) :=
        List.countP_pos_iff.2 ⟨v, hv, by simp [ha]⟩
      have := h a
      by_cases hw : w.value = some a
      · simp only [hw, if_true] at this
        omega
      · simp only [hw, if_false] at this
        omega
    · intro h a
      have hzero : (ws.countP fun v => decide (v.value = some a)) = 0 :=
        List.countP_eq_zero.2 fun v hv => by simp [h v hv]
      rw [hzero, Nat.zero_add]
      congr

end Lib

namespace RedlineDb
open Lib List

structure HeapScanRow where
  relId : Nat
  rowId : Nat
  payload : Bytes
deriving DecidableEq

def Cell.tuple? : Cell → Option TupleVersion
  | .tuple t => some t
  | _ => none

namespace PageBackedHeap
section Scan
variable (h : PageBackedHeap) (txs : ConcurrentTxStatus) (snapshot : Snapshot)
    (owner relFilter : Option Nat)

/-- What the scan makes of a cell on a heap page of relation `pageRel`. -/
def scanCell (pageRel : Nat) : Cell → Option HeapScanRow
  | .tuple t =>
    let effectiveRel := if t.relId = 0 then pageRel else t.relId
    if relFilter.any (· ≠ effectiveRel) then none
    else
      match t.visibility txs snapshot owner with
      | .visible => some ⟨effectiveRel, t.rowId, t.payload⟩
      | .deleted | .invisible => none
  -- a cell that does not decode as a tuple is passed over
  | _ => none

def collectHeapPage (pid : Nat) : Except Error (List HeapScanRow) :=
  match h.store.fetch pid with
  | .ok page =>
    if page.kind ≠ .heap then .ok []
    else .ok (page.cells.filterMap (scanCell txs snapshot owner relFilter page.relId))
  | .error (.invalidMagic 0) => .ok []
  | .error e => .error e

def collectHeapPages (pids : List Nat) : Except Error (List HeapScanRow) := do
  return (← pids.mapM (h.collectHeapPage txs snapshot owner relFilter)).flatten

def serialScanPageRange (start stop : Nat) : Except Error (List HeapScanRow) :=
  h.collectHeapPages txs snapshot owner relFilter (List.range' start (stop - start))

/-- `schedule` is the order in which the rows come through the channel. -/
def parallelScanPageRange (start stop workers : Nat) (schedule : List Nat) :
    Except Error (List HeapScanRow) :=
  if start ≥ stop then .ok []
  else
    let workers := min (max workers 1) (stop - start)
    if workers = 1 then h.serialScanPageRange txs snapshot owner relFilter start stop
    else do
      let queues ← (List.range workers).mapM fun i =>
        h.collectHeapPages txs snapshot owner relFilter (share start stop workers i)
      return drain schedule queues

end Scan

/-! ### The tuples on the heap pages -/

variable {h h' : PageBackedHeap}

def pageTuples (h : PageBackedHeap) (pid : Nat) : List TupleVersion :=
  match h.store.fetch pid with
  | .ok page => if page.kind = .heap then page.cells.filterMap Cell.tuple? else []
  | .error _ => []

def heapTuples (h : PageBackedHeap) : List TupleVersion :=
  (List.range' 1 (h.store.nextPageId - 1)).flatMap h.pageTuples

def Resident (h : PageBackedHeap) : Prop := ∀ q, 1 ≤ q → q < h.store.nextPageId →
    ∃ p, h.store.fetch q = .ok p

variable {gen lsn pid rel row slot tx : Nat} {wp : Option WalPayload}

theorem flatMap_update {α : Type} {f g : Nat → List α} {n m : Nat} {x : List α}
    (hid : 1 ≤ pid ∧ pid < m) (hle : n ≤ m)
    (hself : g pid = f pid ++ x) (hother : ∀ q, q ≠ pid → g q = f q)
    (hnone : ∀ q, n ≤ q → f q = []) :
    ((List.range' 1 (m - 1)).flatMap g).Perm (x ++ (List.range' 1 (n - 1)).flatMap f) := by
  have hext : (range' 1 (m - 1)).flatMap f = (range' 1 (n - 1)).flatMap f := by
    have hsplit : range' 1 (m - 1) = range' 1 (n - 1) ++
        range' (1 + (n - 1)) (m - 1 - (n - 1)) := by
      rw [range'_append_1]
      congr 1
      omega
    rw [hsplit, flatMap_append]
    refine (append_right_eq_self).2 (flatMap_eq_nil_iff.2 fun q hq => hnone q ?_)
    have := mem_range'_1.1 hq
    omega
  rw [← hext]
  obtain ⟨a, b, hab⟩ := append_of_mem (mem_range'_1.2 ⟨hid.1, show pid < 1 + (m - 1) by omega⟩)
  have hnd : (a ++ pid :: b).Nodup := hab ▸ nodup_range'
  rw [nodup_append, nodup_cons] at hnd
  have ha : a.flatMap g = a.flatMap f := flatMap_congr fun q hq => hother q fun he =>
      hnd.2.2 q hq pid mem_cons_self he
  have hb : b.flatMap g = b.flatMap f := flatMap_congr fun q hq => hother q fun he =>
      hnd.2.1.1 (he ▸ hq)
  rw [hab, flatMap_append, flatMap_append, flatMap_cons, flatMap_cons, ha, hb, hself]
  calc a.flatMap f ++ (f pid ++ x ++ b.flatMap f)
      = a.flatMap f ++ f pid ++ (x ++ b.flatMap f) := by simp
    _ |>.Perm (x ++ (a.flatMap f ++ f pid) ++ b.flatMap f) := by
        rw [← append_assoc]
        exact List.Perm.append_right _ perm_append_comm
    _ = x ++ (a.flatMap f ++ (f pid ++ b.flatMap f)) := by simp

structure Gains (h : PageBackedHeap) (ts : List TupleVersion) (h' : PageBackedHeap) : Prop where
  tuples : h'.heapTuples.Perm (ts ++ h.heapTuples)
  resident : Resident h → Resident h'

theorem Gains.trans {h₁ h₂ h₃ : PageBackedHeap} {ts ts' : List TupleVersion} (a : Gains h₁ ts h₂)
    (b : Gains h₂ ts' h₃) :
    Gains h₁ (ts' ++ ts) h₃ where
  tuples := by
    rw [append_assoc]
    exact b.tuples.trans (a.tuples.append_left ts')
  resident hr := b.resident (a.resident hr)

theorem Gains.of_store {h₁ : PageBackedHeap} {ts : List TupleVersion} (hg : Gains h ts h₁)
    (hs : h'.store = h₁.store) :
    Gains h ts h' := by
  have heq : h'.heapTuples = h₁.heapTuples := by
    unfold heapTuples pageTuples
    rw [hs]
  refine ⟨heq ▸ hg.tuples, fun hr => ?_⟩
  unfold Resident
  rw [hs]
  exact hg.resident hr

theorem Gains.refl (h : PageBackedHeap) : Gains h [] h := ⟨.refl _, id⟩

section
variable (hw : HeapWf h)
include hw

theorem HeapWf.pageTuples_nil {q : Nat} (hq : h.store.nextPageId ≤ q) : h.pageTuples q = [] := by
  unfold pageTuples
  split
  · next p hp =>
    have := (hw.ids q p hp).2
    omega
  · rfl

theorem Put.pageTuples_self {kind : PageKind} {c : Cell} (hP : Put h kind c pid slot gen h') :
    h'.pageTuples pid = h.pageTuples pid ++ if kind = .heap then c.tuple?.toList else [] := by
  obtain ⟨p', old, hp', hk', -, -, hcells, -, hold⟩ := hP.page
  have hnew : h'.pageTuples pid = if kind = .heap then old.filterMap Cell.tuple? ++ c.tuple?.toList
      else [] := by
    simp only [pageTuples, hp', hk', hcells, filterMap_append]
    congr
  have hwas : h.pageTuples pid = if kind = .heap then old.filterMap Cell.tuple? else [] := by
    rcases hold with ⟨p, hp, -, hc, -, hk, -⟩ | ⟨rfl, rfl, -⟩ | ⟨-, -, hr⟩
    · simp only [pageTuples, hp, hk, hc]
    · simp [hw.pageTuples_nil le_rfl]
    · simp [hw.noReuse] at hr
  rw [hnew, hwas]
  split <;> rfl

theorem Put.gains {kind : PageKind} {c : Cell} (hP : Put h kind c pid slot gen h')
    (hst : Stored h tx lsn wp pid h') :
    Gains h (if kind = .heap then c.tuple?.toList else []) h' where
  tuples := by
    refine flatMap_update ⟨hP.ids.1, hP.ids.2.1⟩ hP.ids.2.2 (hP.pageTuples_self hw) (fun q hq => ?_)
      fun q hq => hw.pageTuples_nil hq
    unfold pageTuples
    rw [hP.other q hq]
  resident hr q h1 hlt := by
    by_cases hq : q = pid
    · obtain ⟨p', _, hp', -⟩ := hP.page
      exact ⟨p', hq ▸ hp'⟩
    · rw [hP.other q hq]
      have := hP.pid_le hw
      have := hst.alloc
      exact hr q h1 (by omega)

theorem appendTuple_gains {t : TupleVersion} {ptr : TuplePtr}
    (ha : h.appendTuple tx row t lsn wp = .ok (ptr, h')) : Gains h [t] h' := by
  obtain ⟨-, -, -, h1, hP, hst, rfl⟩ := appendTuple_put hw.toLaneWf ha
  exact (hP.gains hw hst).of_store rfl

theorem insertForRelation_gains {payload : Bytes}
    (hi : h.insertForRelation tx rel row payload lsn = .ok h') :
    Gains h [.new row (h.normRel rel) tx payload] h' := by
  simp only [insertForRelation, insertRecoveredAt, bind_eq_ok, pure_eq_ok, Prod.exists] at hi
  obtain ⟨ptr, h2, ha, rfl⟩ := hi
  have hw0 : HeapWf { h with nextRow := advanceRowPast (advanceRowPast h.nextRow row) row } :=
    { hw with }
  have hg : Gains { h with nextRow := advanceRowPast (advanceRowPast h.nextRow row) row } _ h2 :=
    appendTuple_gains hw0 ha
  exact ⟨hg.tuples, hg.resident⟩

theorem appendVersion_gains {kind : UndoKind} {next current : TupleVersion}
    (ha : h.appendVersion kind tx rel row next current lsn wp = .ok h') :
    ∃ undoPtr, Gains h [{ next with undoHead := undoPtr }] h' := by
  simp only [appendVersion, bind_eq_ok, pure_eq_ok, Prod.exists] at ha
  obtain ⟨undoPtr, h2, hundo, ptr, h3, htup, rfl⟩ := ha
  obtain ⟨-, -, -, h1, pid, slot, gen, hP, hst, hh2⟩ := appendUndo_put hw.toLaneWf rfl hundo
  have hgundo : Gains h [] h2 := (hP.gains hw hst).of_store (by rw [hh2]; rfl)
  exact ⟨undoPtr,
    (hgundo.trans (appendTuple_gains (appendUndo_grows hw rfl hundo).wf htup)).of_store rfl⟩

end
end PageBackedHeap

namespace Engine
open PageBackedHeap
variable {e e' : Engine} {tx rel row : Nat}

def writeOf (t : TupleVersion) : (Nat × Nat) × Version Nat Bytes :=
  ((t.relId, t.rowId), t.toVersion)

/-- Every accepted write puts its version on a heap page, as a tuple without an end. No other step
does. -/
theorem step_gains {op : Op} (hw : HeapWf e.heap) (hs : e.step op = .ok e') :
    ∃ ts, Gains e.heap ts e'.heap ∧ ts.map writeOf = (op.write? e.heap.relId).toList ∧
      ∀ t ∈ ts, t.endTx = 0 := by
  rcases step_heap_cases hs with ⟨hnone, wal, hwal⟩ | ⟨tx, rel, row, payload, rfl, hins⟩ |
    ⟨tx, rel, row, payload, _, _, rfl, hup⟩ | ⟨tx, rel, row, _, _, rfl, hdel⟩
  · exact ⟨[], (Gains.refl _).of_store (by rw [hwal]), by rw [hnone]; rfl, by simp⟩
  · exact ⟨_, insertForRelation_gains hw hins, rfl, by simp [TupleVersion.new]⟩
  · simp only [PageBackedHeap.updateForRelation, appendUpdateVersion, bind_eq_ok] at hup
    obtain ⟨_, -, _, -, ha⟩ := hup
    obtain ⟨u, hg⟩ := appendVersion_gains hw ha
    exact ⟨_, hg, rfl, by simp [TupleVersion.new]⟩
  · simp only [PageBackedHeap.deleteForRelation, appendDeleteVersion, bind_eq_ok] at hdel
    obtain ⟨_, -, ha⟩ := hdel
    obtain ⟨u, hg⟩ := appendVersion_gains hw ha
    exact ⟨_, hg, rfl, by simp [TupleVersion.tombstone]⟩

structure PageInv (relId : Nat) (ops : List Op) (e : Engine) : Prop where
  wf : HeapWf e.heap
  rel : e.heap.relId = relId
  resident : Resident e.heap
  tuples : (e.heap.heapTuples.map writeOf).Perm (ops.filterMap (Op.write? relId))
  ended : ∀ t ∈ e.heap.heapTuples, t.endTx = 0

variable {ops : List Op}

theorem PageInv.step {relId : Nat} {op : Op} (hI : PageInv relId ops e) (hs : e.step op = .ok e') :
    PageInv relId (ops ++ [op]) e' := by
  obtain ⟨hg, -⟩ := step_heap hI.wf hs
  obtain ⟨ts, hgain, hts, hend⟩ := step_gains hI.wf hs
  refine ⟨hg.wf, hg.relId.trans hI.rel, hgain.resident hI.resident, ?_, fun t ht => ?_⟩
  · rw [hI.rel] at hts
    refine (hgain.tuples.map writeOf).trans ?_
    rw [map_append, hts, filterMap_append]
    refine (List.Perm.append_left _ hI.tuples).trans (perm_append_comm.trans ?_)
    cases hw : op.write? relId <;> simp [hw]
  · rcases mem_append.1 (hgain.tuples.mem_iff.1 ht) with ht | ht
    · exact hend t ht
    · exact hI.ended t ht

theorem PageInv.of_run {relId lanes segmentBytes walBufferBytes : Nat} {pageSize : PageSize}
    {P : Engine → Op → Prop}
    (hrun : Run Engine.step P (create relId lanes pageSize segmentBytes walBufferBytes) ops e) :
    PageInv relId ops e := by
  refine hrun.invariant (I := PageInv relId) ?_ fun _ _ _ _ hI _ hs => hI.step hs
  refine ⟨heapWf_create _ _ _ _ _, rfl, fun q h1 hlt => ?_, .refl _, by
    simp [heapTuples, create, new, Store.create]⟩
  simp only [create, new, Store.create] at hlt
  omega

theorem PageInv.relId_eq_zero {relId : Nat} (hI : PageInv relId ops e) {t : TupleVersion}
    (ht : t ∈ e.heap.heapTuples) (hz : t.relId = 0) : relId = 0 := by
  have hmem := hI.tuples.mem_iff.1 (mem_map_of_mem ht)
  obtain ⟨op, -, hop⟩ := mem_filterMap.1 hmem
  have hrel : ∀ {rel row : Nat} {v : Version Nat Bytes},
      ((if rel = 0 then relId else rel, row), v) = writeOf t → relId = 0 := by
    intro rel row v heq
    have h1 : (if rel = 0 then relId else rel) = t.relId := congrArg (·.1.1) heq
    split at h1
    · exact h1.trans hz
    · next hne => exact absurd (h1.trans hz) hne
  cases op <;> simp only [Op.write?, Option.some.injEq, reduceCtorEq] at hop <;> exact hrel hop

/-! ### What a scan of all pages returns -/

section
variable {relId : Nat} {ops : List Op} {snapshot : Snapshot} {owner : Option Nat}

def rowOf (txs : ConcurrentTxStatus) (snapshot : Snapshot) (owner : Option Nat) (rel : Nat)
    (t : TupleVersion) :
    Option HeapScanRow :=
  if t.relId = rel ∧ txs.isTxVisible t.beginTx snapshot owner ∧ t.deleted = false then
    some ⟨rel, t.rowId, t.payload⟩
  else none

section
variable (hI : PageInv relId ops e)
include hI

theorem PageInv.scanCell_eq {t : TupleVersion} (ht : t ∈ e.heap.heapTuples) :
    scanCell e.txs snapshot owner (some rel) relId (.tuple t) =
      rowOf e.txs snapshot owner rel t := by
  have heff : (if t.relId = 0 then relId else t.relId) = t.relId := by
    split
    · next hz => rw [hI.relId_eq_zero ht hz, hz]
    · rfl
  simp only [scanCell, heff, visibility_of_end (.inl (hI.ended t ht)), rowOf]
  by_cases hr : t.relId = rel
  · subst hr
    cases e.txs.isTxVisible t.beginTx snapshot owner <;> cases t.deleted <;> simp
  · simp [hr, Ne.symm hr]

theorem PageInv.collectHeapPage_eq {q : Nat} (hq : 1 ≤ q ∧ q < e.heap.store.nextPageId) :
    e.heap.collectHeapPage e.txs snapshot owner (some rel) q =
      .ok ((e.heap.pageTuples q).filterMap (rowOf e.txs snapshot owner rel)) := by
  obtain ⟨p, hp⟩ := hI.resident q hq.1 hq.2
  have hmem : ∀ t ∈ e.heap.pageTuples q, t ∈ e.heap.heapTuples := fun t ht =>
    mem_flatMap.2 ⟨q, mem_range'_1.2 ⟨hq.1, by omega⟩, ht⟩
  have hrows : (e.heap.pageTuples q).filterMap (rowOf e.txs snapshot owner rel) =
      (e.heap.pageTuples q).filterMap fun t => scanCell e.txs snapshot owner (some rel) relId
      (.tuple t) :=
    filterMap_congr fun t ht => (hI.scanCell_eq (hmem t ht)).symm
  rw [hrows]
  simp only [collectHeapPage, pageTuples, hp]
  by_cases hk : p.kind = .heap
  · have hprel : p.relId = relId := (hI.wf.page q p hp).rel.trans hI.rel
    simp only [hk, ne_eq, not_true_eq_false, if_false, if_true, hprel, filterMap_filterMap]
    congr 1
    refine filterMap_congr fun c _ => ?_
    cases c <;> rfl
  · simp [hk]

theorem PageInv.collectHeapPages_eq {pids : List Nat}
    (hq : ∀ q ∈ pids, 1 ≤ q ∧ q < e.heap.store.nextPageId) :
    e.heap.collectHeapPages e.txs snapshot owner (some rel) pids =
      .ok (pids.flatMap fun q => (e.heap.pageTuples q).filterMap
        (rowOf e.txs snapshot owner rel)) := by
  simp only [collectHeapPages, mapM_eq_ok fun q h => hI.collectHeapPage_eq (hq q h), flatMap_def]
  rfl

/-- Whatever the number of workers and the order in the channel, a scan of all pages gives the rows
of the tuples that the snapshot sees. -/
theorem PageInv.scan_eq (snapshot : Snapshot) (owner : Option Nat) (rel workers : Nat)
    (schedule : List Nat) :
    ∃ rows, e.heap.parallelScanPageRange e.txs snapshot owner (some rel) 1 e.heap.store.nextPageId
      workers schedule = .ok rows ∧
      rows.Perm (e.heap.heapTuples.filterMap (rowOf e.txs snapshot owner rel)) := by
  have hall : e.heap.heapTuples.filterMap (rowOf e.txs snapshot owner rel) =
      (range' 1 (e.heap.store.nextPageId - 1)).flatMap fun q =>
        (e.heap.pageTuples q).filterMap (rowOf e.txs snapshot owner rel) := filterMap_flatMap
  rw [hall]
  unfold parallelScanPageRange
  split
  · next hge =>
    refine ⟨[], rfl, ?_⟩
    rw [Nat.sub_eq_zero_of_le hge]
    exact .refl _
  · next hlt =>
    dsimp only
    split
    · refine ⟨_, hI.collectHeapPages_eq fun q hq => ?_, .refl _⟩
      have := mem_range'_1.1 hq
      omega
    · generalize hw : min (max workers 1) (e.heap.store.nextPageId - 1) = w
      have hpos : 0 < w := by omega
      have hshares := shares_perm 1 e.heap.store.nextPageId hpos
      have hqueues : ((range w).mapM fun i =>
          e.heap.collectHeapPages e.txs snapshot owner (some rel)
            (share 1 e.heap.store.nextPageId w i)) =
          .ok ((range w).map fun i => (share 1 e.heap.store.nextPageId w i).flatMap fun q =>
            (e.heap.pageTuples q).filterMap (rowOf e.txs snapshot owner rel)) := by
        refine mapM_eq_ok fun i hi => hI.collectHeapPages_eq fun q hq => ?_
        have := mem_range'_1.1 (hshares.mem_iff.1 (mem_flatMap.2 ⟨i, hi, hq⟩))
        omega
      refine ⟨_, by rw [hqueues]; rfl, (drain_perm _ _).trans ?_⟩
      rw [← flatMap_def, ← flatMap_assoc]
      exact hshares.flatMap_right _

end

/-! ### Scans and point reads -/

def ScanAgrees (h : PageBackedHeap) (txs : ConcurrentTxStatus) (snapshot : Snapshot)
    (owner : Option Nat) (rel : Nat)
    (rows : List HeapScanRow) : Prop :=
  (∀ row payload, h.getForRelation txs snapshot owner rel row = .ok (some payload) →
    rows.count ⟨rel, row, payload⟩ = 1) ∧
    ∀ r ∈ rows, r.relId = rel ∧ h.getForRelation txs snapshot owner rel r.rowId =
      .ok (some r.payload)

/-- The snapshot is not older than every snapshot in use, and its owner has not aborted. -/
structure Live (e : Engine) (snapshot : Snapshot) (owner : Option Nat) : Prop where
  owner : ∀ tx ∈ owner, e.txs.state tx ≠ .aborted
  recent : e.txs.publishedCsn ≤ snapshot.visibleCsn ∨
    ∃ tx t, e.txns.lookup tx = some t ∧ t.isOpen ∧ t.snapshot.visibleCsn ≤ snapshot.visibleCsn

def RelationStepOk (rel : Nat) (e : Engine) (op : Op) : Prop :=
  ∀ w ∈ op.write? e.heap.relId, w.1.1 = rel → RowStepOk w.1 e op

instance (rel : Nat) (e : Engine) (op : Op) : Decidable (RelationStepOk rel e op) :=
  inferInstanceAs (Decidable (∀ w ∈ _, _ → _))

theorem RelationStepOk.rowStepOk {op : Op} (hok : RelationStepOk rel e op) (row : Nat) :
    RowStepOk (rel, row) e op := by
  cases op with
  | insertForRelation tx rel' row' payload => exact fun hk => hk ▸ hok _ rfl (congrArg (·.1) hk) rfl
  | updateForRelation tx rel' row' payload => exact fun hk => hk ▸ hok _ rfl (congrArg (·.1) hk) rfl
  | deleteForRelation tx rel' row' => exact fun hk => hk ▸ hok _ rfl (congrArg (·.1) hk) rfl
  | begin _ | getForRelation _ _ _ | lockRowForRelation _ _ _ | appendCommit _ | finishCommit _
  | failCommit _
  | rollback _ => trivial

theorem RowInv.get_eq_newest {vs : List (Version Nat Bytes)} {l : List TupleVersion}
    (hr : RowInv e (rel, row) vs l)
    (hlive : Live e snapshot owner) : e.heap.getForRelation e.txs snapshot owner rel row =
      .ok (newest (fun x => e.txs.isTxVisible x snapshot owner) vs) := by
  rw [getForRelation_chain hr.chain, firstVisible_linked hr.linked (.inl rfl)]
  congr 1
  refine hr.tracks.newest_eq (fun x hx => ?_) fun x hx => ?_
  · have hst : e.txs.state x = .aborted := hx
    unfold ConcurrentTxStatus.isTxVisible
    rw [if_neg fun ho : some x = owner => hlive.owner x ho.symm hst, hst]
  · obtain ⟨csn, hst, hpub, hopen⟩ := hx
    have hle : csn ≤ snapshot.visibleCsn := by
      rcases hlive.recent with hp | ⟨tx, t, ht, ho, hp⟩
      · exact hpub.trans hp
      · exact (hopen tx t ht ho).trans hp
    unfold ConcurrentTxStatus.isTxVisible
    rw [hst]
    simp [hle]

theorem countP_history (relId : Nat) (key : Nat × Nat) (ops : List Op)
    (p : Version Nat Bytes → Bool) :
    (history relId key ops).countP p =
      (ops.filterMap (Op.write? relId)).countP fun w => decide (w.1 = key) && p w.2 := by
  rw [history, filterMap_reverse, countP_reverse, countP_filterMap, countP_filterMap]
  refine countP_congr fun op _ => ?_
  cases op.write? relId with
  | none => simp
  | some w => by_cases hk : w.1 = key <;> simp [hk]

theorem PageInv.count_eq (hI : PageInv relId ops e) {rows : List HeapScanRow}
    (hrows : rows.Perm (e.heap.heapTuples.filterMap (rowOf e.txs snapshot owner rel))) (row : Nat)
    (payload : Bytes) :
    rows.count ⟨rel, row, payload⟩ = (history relId (rel, row) ops).countP fun v =>
      e.txs.isTxVisible v.tx snapshot owner && decide (v.value = some payload) := by
  rw [hrows.count_eq, countP_history, ← hI.tuples.countP_eq, countP_map, count, countP_filterMap]
  refine countP_congr fun t _ => ?_
  simp only [rowOf, writeOf, TupleVersion.toVersion, Function.comp]
  by_cases hr : t.relId = rel
  · by_cases hd : t.deleted = true <;> cases e.txs.isTxVisible t.beginTx snapshot owner <;>
      simp [hr, hd]
  · simp [hr]

/-- In every run whose writes to the relation meet the condition, a scan of all heap pages for a
live snapshot, with any number of workers, returns what the point reads return iff in no row the
snapshot sees a version with a payload below the newest version it sees. -/
theorem scan_agrees_iff {lanes segmentBytes walBufferBytes : Nat} {pageSize : PageSize}
    (hrun : Run step (RelationStepOk rel)
      (create relId lanes pageSize segmentBytes walBufferBytes) ops e)
    (hlive : Live e snapshot owner) (workers : Nat) (schedule : List Nat) :
    ∃ rows, e.heap.parallelScanPageRange e.txs snapshot owner (some rel) 1 e.heap.store.nextPageId
      workers schedule = .ok rows ∧
      (ScanAgrees e.heap e.txs snapshot owner rel rows ↔
        ∀ row, ShowsLast (fun x => e.txs.isTxVisible x snapshot owner)
          (history relId (rel, row) ops)) := by
  have hI := PageInv.of_run hrun
  obtain ⟨rows, hscan, hrows⟩ := hI.scan_eq snapshot owner rel workers schedule
  have hget : ∀ row, e.heap.getForRelation e.txs snapshot owner rel row =
      .ok (newest (fun x => e.txs.isTxVisible x snapshot owner) (history relId (rel, row) ops)) :=
        fun row => by
    obtain ⟨l, hr⟩ := (ReadInv.of_run (hrun.mono fun _ _ h => RelationStepOk.rowStepOk h row)).row
    exact hr.get_eq_newest hlive
  have hrel : ∀ r ∈ rows, r.relId = rel := fun r hr => by
    obtain ⟨t, -, ht⟩ := mem_filterMap.1 (hrows.mem_iff.1 hr)
    unfold rowOf at ht
    split at ht
    · cases ht
      rfl
    · cases ht
  refine ⟨rows, hscan, ?_⟩
  simp only [ScanAgrees, hget, Except.ok.injEq, ← count_eq_newest_iff, ← hI.count_eq hrows]
  constructor
  · rintro ⟨hin, hout⟩ row payload
    split
    · next hn => exact hin row payload hn
    · next hn => exact count_eq_zero.2 fun hmem => hn (hout _ hmem).2
  · intro hcount
    refine ⟨fun row payload hn => by rw [hcount, if_pos hn], fun r hr => ⟨hrel r hr, ?_⟩⟩
    by_contra hn
    have hzero := hcount r.rowId r.payload
    rw [if_neg hn, count_eq_zero, ← hrel r hr] at hzero
    exact hzero hr

end

def traceUncommitted : List Op :=
  [.begin .snapshot, .insertForRelation 1 7 1 [1], .insertForRelation 1 7 2 [2], .appendCommit 1,
    .finishCommit 1,
   .begin .snapshot, .begin .snapshot, .updateForRelation 3 7 1 [3]]

theorem scan_agrees_uncommitted : ∃ (e : Engine) (t : Txn) (rows : List HeapScanRow),
    e.txns.lookup 2 = some t ∧
    e.heap.parallelScanPageRange e.txs t.snapshot (some 2) (some 7) 1 e.heap.store.nextPageId 4
      [1, 0] = .ok rows ∧
      ScanAgrees e.heap e.txs t.snapshot (some 2) 7 rows := by
  obtain ⟨e, hrun, t, ht, hopen, hst, hlast1, hlast2⟩ :
      ∃ e, Run Engine.step (RelationStepOk 7) small traceUncommitted e ∧
      ∃ t ∈ e.txns.lookup 2, t.isOpen ∧ e.txs.state 2 ≠ .aborted ∧
        ShowsLast (fun x => e.txs.isTxVisible x t.snapshot (some 2))
          (history 1 (7, 1) traceUncommitted) ∧
        ShowsLast (fun x => e.txs.isTxVisible x t.snapshot (some 2))
          (history 1 (7, 2) traceUncommitted) := by
    decide +kernel
  have hlive : Live e t.snapshot (some 2) :=
    ⟨fun x hx => Option.some.inj hx ▸ hst, .inr ⟨2, t, ht, hopen, le_rfl⟩⟩
  obtain ⟨rows, hscan, hiff⟩ := scan_agrees_iff hrun hlive 4 [1, 0]
  refine ⟨e, t, rows, ht, hscan, hiff.2 fun row => ?_⟩
  -- no other row has a history
  by_cases h1 : row = 1
  · exact h1 ▸ hlast1
  · by_cases h2 : row = 2
    · exact h2 ▸ hlast2
    · have hnil : history 1 (7, row) traceUncommitted = [] := by
        simp [history, traceUncommitted, Op.write?, Ne.symm h1, Ne.symm h2]
      simp [hnil, ShowsLast]

def traceSuperseded : List Op :=
  [.begin .snapshot, .insertForRelation 1 7 1 [1], .insertForRelation 1 7 2 [2], .appendCommit 1,
    .finishCommit 1,
   .begin .snapshot, .updateForRelation 2 7 1 [3], .deleteForRelation 2 7 2, .appendCommit 2,
     .finishCommit 2,
   .begin .snapshot]

/-- The scan returns the replaced version of row `1` beside the current one, and the deleted row
`2`. -/
theorem scan_returns_superseded :
    ∃ (e : Engine) (t : Txn), Run step (fun _ _ => True) small traceSuperseded e ∧
    e.txns.lookup 3 = some t ∧ t.isOpen ∧
    e.heap.parallelScanPageRange e.txs t.snapshot (some 3) (some 7) 1 e.heap.store.nextPageId 2 [] =
      .ok [⟨7, 1, [1]⟩, ⟨7, 2, [2]⟩, ⟨7, 1, [3]⟩] ∧
    e.heap.getForRelation e.txs t.snapshot (some 3) 7 1 = .ok (some [3]) ∧
    e.heap.getForRelation e.txs t.snapshot (some 3) 7 2 = .ok none := by
  obtain ⟨e, hrun, t, ht, hread⟩ : ∃ e, Run Engine.step (fun _ _ => True) small traceSuperseded e ∧
      ∃ t ∈ e.txns.lookup 3, t.isOpen ∧
        e.heap.parallelScanPageRange e.txs t.snapshot (some 3)
          (some 7) 1 e.heap.store.nextPageId 2 [] =
          .ok [⟨7, 1, [1]⟩, ⟨7, 2, [2]⟩, ⟨7, 1, [3]⟩] ∧
        e.heap.getForRelation e.txs t.snapshot (some 3) 7 1 = .ok (some [3]) ∧
        e.heap.getForRelation e.txs t.snapshot (some 3) 7 2 = .ok none := by decide +kernel
  exact ⟨e, t, hrun, ht, hread⟩

/-- The tuples on the heap pages are those of the accepted writes, each once: none is lost and none
is there twice. -/
theorem heapTuples_perm_writes {relId lanes segmentBytes walBufferBytes : Nat} {pageSize : PageSize}
    {P : Engine → Op → Prop}
    (hrun : Run step P (create relId lanes pageSize segmentBytes walBufferBytes) ops e) :
    (e.heap.heapTuples.map writeOf).Perm (ops.filterMap (Op.write? relId)) :=
  (PageInv.of_run hrun).tuples

theorem heapTuples_perm_writes_traceSuperseded :
    ∃ e, Run step (fun _ _ => True) small traceSuperseded e ∧
    (e.heap.heapTuples.map writeOf).Perm (traceSuperseded.filterMap (Op.write? 1)) := by
  obtain ⟨e, hrun, -⟩ : ∃ e, Run Engine.step (fun _ _ => True) small traceSuperseded e ∧
      True := by decide +kernel
  exact ⟨e, hrun, heapTuples_perm_writes hrun⟩

end Engine
end RedlineDb
