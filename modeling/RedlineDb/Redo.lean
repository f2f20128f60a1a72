import RedlineDb.CheckpointReopen
import RedlineDb.LiveRows
import RedlineDb.PageScan
import RedlineDb.RowSizes

/-!
# Redo of the log behind a checkpoint

A reopening replays the writes of committed transactions from the checkpoint LSN on. It appends them
to new pages and points the directory at them; the load of the directory afterwards leaves these
entries alone. A replayed update or delete needs a version to replace. It takes the one replayed
before, or else the first one that a scan of the pages finds, which may be older and larger than the
one that was replaced: its undo record has to fit a page as well.
-/

namespace RedlineDb
open Lib List

/-- The call that logged a record. -/
def WalRecord.op? (r : WalRecord) : Option Op :=
  match r.kind, r.payload with
  | .pageDelta, .heapInsert tx rel row payload => some (.insertForRelation tx rel row payload)
  | .pageDelta, .heapUpdate tx rel row payload => some (.updateForRelation tx rel row payload)
  | .pageDelta, .heapDelete tx rel row => some (.deleteForRelation tx rel row)
  | .commit, .commit tx _ => some (.appendCommit tx)
  | _, _ => none

/-- What a row reads as when the transactions that commit among `ops` are added to what was `shown`.
-/
def effects (relId : Nat) (shown : Nat → Nat → Except Error (Option Bytes)) (ops : List Op)
    (rel row : Nat) :
    Except Error (Option Bytes) :=
  match (history relId (rel, row) ops).find? fun v => .appendCommit v.tx ∈ ops with
  | some v => .ok v.value
  | none => shown rel row

/-! ### Appends to new pages -/

namespace PageBackedHeap
variable {h h0 h1 h' : PageBackedHeap} {lsn rel row tx : Nat} {wp : Option WalPayload}

/-- The heap has grown on pages past its own only. -/
structure Beyond (h0 h : PageBackedHeap) : Prop where
  grows : Grows h0 h
  old : ∀ q < h0.store.nextPageId, h.store.fetch q = h0.store.fetch q
  lanes : ∀ i q, (h.appendLanes i).heapPage = some q ∨ (h.appendLanes i).undoPage = some q →
    h0.store.nextPageId ≤ q
  next : h0.store.nextPageId ≤ h.store.nextPageId
  size : h.store.pageSize = h0.store.pageSize
  count : h.store.pageCount = h0.store.pageCount

theorem Beyond.put {kind : PageKind} {c : Cell} {pid slot gen i : Nat} {cur : Option Nat}
    {lane : AppendLane}
    (hB : Beyond h0 h) (hg : Grows h (h1.setLane i lane)) (hk : kind = .heap ∨ kind = .undo)
    (hck : c.pageKind = kind)
    (hcur : ∀ q, cur = some q → q ∉ h.reusableHeapPages ∧ ∃ p, h.store.fetch q = .ok p ∧
      p.kind = kind)
    (hge : ∀ q, cur = some q → h0.store.nextPageId ≤ q)
    (ha : h.appendCell tx cur kind c lsn wp = .ok ((pid, slot, gen), h1))
    (hlane : ∀ q, lane.heapPage = some q ∨ lane.undoPage = some q → q = pid ∨
      h0.store.nextPageId ≤ q) :
    Beyond h0 (h1.setLane i lane) := by
  obtain ⟨hP, hst, hplace⟩ := appendCell_put hB.grows.wf.toLaneWf hk hck hcur ha
  have hpid : h0.store.nextPageId ≤ pid := by
    obtain ⟨hsome, hnone⟩ := hplace (.inl hB.grows.wf.noReuse)
    cases hc : cur with
    | none => exact (hnone hc).symm ▸ hB.next
    | some q => exact (hge q hc).trans (hsome q hc)
  refine ⟨hB.grows.trans hg, fun q hq => ?_, fun j q hj => ?_, hB.next.trans hP.ids.2.2,
    hP.size.trans hB.size,
    hst.file.2.trans hB.count⟩
  · exact (hP.other q (by omega)).trans (hB.old q hq)
  · have hal : h1.appendLanes = h.appendLanes := by rw [hP.frame]
    simp only [setLane] at hj
    split at hj
    · rcases hlane q hj with rfl | h
      · exact hpid
      · exact h
    · exact hB.lanes j q (hal ▸ hj)

theorem Beyond.appendTuple {t : TupleVersion} {ptr : TuplePtr} (hB : Beyond h0 h)
    (ha : h.appendTuple tx row t lsn wp = .ok (ptr, h')) : Beyond h0 h' := by
  have hg := appendTuple_grows hB.grows.wf ha
  have hw := hB.grows.wf.toLaneWf
  simp only [PageBackedHeap.appendTuple, bind_eq_ok, pure_eq_ok, Prod.mk.injEq, Prod.exists] at ha
  obtain ⟨pid, slot, gen, h1, hc, rfl, rfl⟩ := ha
  obtain ⟨hP, -⟩ := appendCell_put hw (.inl rfl) rfl (fun q hq => hw.laneHeap _ q hq) hc
  have hal : h1.appendLanes = h.appendLanes := by rw [hP.frame]
  refine hB.put hg (.inl rfl) rfl (fun q hq => hw.laneHeap _ q hq)
    (fun q hq => hB.lanes _ q (.inl hq)) hc ?_
  rintro q (hq | hq)
  · exact .inl (Option.some.inj hq).symm
  · exact .inr (hB.lanes _ q (.inr (hal ▸ hq)))

theorem Beyond.appendUndo {u : UndoRecord} {ptr : Nat} (hB : Beyond h0 h) (hrow : u.rowId = row)
    (ha : h.appendUndo tx row u lsn = .ok (ptr, h')) : Beyond h0 h' := by
  have hg := appendUndo_grows hB.grows.wf hrow ha
  have hw := hB.grows.wf.toLaneWf
  simp only [PageBackedHeap.appendUndo, bind_eq_ok, pure_eq_ok, Prod.mk.injEq, Prod.exists] at ha
  obtain ⟨pid, slot, gen, h1, hc, rfl, rfl⟩ := ha
  obtain ⟨hP, -⟩ := appendCell_put hw (.inr rfl) rfl (fun q hq => hw.undoPage_not_reusable hq) hc
  have hal : h1.appendLanes = h.appendLanes := by rw [hP.frame]
  refine hB.put hg (.inr rfl) rfl (fun q hq => hw.undoPage_not_reusable hq)
    (fun q hq => hB.lanes _ q (.inr hq)) hc ?_
  rintro q (hq | hq)
  · exact .inr (hB.lanes _ q (.inl (hal ▸ hq)))
  · exact .inl (Option.some.inj hq).symm

theorem Beyond.setHeads {ptr : TuplePtr} (hB : Beyond h0 h) :
    Beyond h0 ((h.setHead row ptr).setRelationHead rel row ptr) :=
  { hB with grows := hB.grows.setHeads }

/-- The row's directory entry points at a tuple that holds the version. -/
def Heads (h : PageBackedHeap) (key : Nat × Nat) (v : Version Nat Bytes) : Prop :=
  ∃ ptr t, h.headForRelation key.1 key.2 = some ptr ∧ h.readTuple ptr = .ok t ∧ t.relId = key.1 ∧
    t.endTx = 0 ∧
    t.toVersion = v ∧ t.payload = v.value.getD []

/-- A version was put on top of the row, and nothing else changed in the directory. -/
structure Topped (h0 : PageBackedHeap) (key : Nat × Nat) (v : Version Nat Bytes)
    (h h' : PageBackedHeap) : Prop where
  beyond : Beyond h0 h'
  grows : Grows h h'
  head : h'.Heads key v
  other : ∀ rel row, (rel, row) ≠ key → h'.headForRelation rel row = h.headForRelation rel row

/-- An empty page takes the undo record of a tuple with this payload. -/
def RoomFor (h : PageBackedHeap) (payload : Bytes) : Prop :=
  undoHeaderLen + (tupleHeaderLen + payload.length) ≤ h.store.pageSize.bytes -
    (pageHeaderLen + slotLen)

instance (h : PageBackedHeap) (payload : Bytes) : Decidable (h.RoomFor payload) :=
  inferInstanceAs (Decidable (_ ≤ _))

theorem Topped.of_setHeads {t : TupleVersion} {ptr : TuplePtr} (hB : Beyond h0 h1) (hg : Grows h h1)
    (hd : h1.relationRowDir = h.relationRowDir) (hr : h1.readTuple ptr = .ok t)
    (hrel : t.relId = rel)
    (hend : t.endTx = 0) (hpay : t.payload = t.toVersion.value.getD []) :
    Topped h0 (rel, row) t.toVersion h ((h1.setHead row ptr).setRelationHead rel row ptr) := by
  have hg' : Grows h1 ((h1.setHead row ptr).setRelationHead rel row ptr) :=
    hg.wf.refl_grows.setHeads
  refine ⟨hB.setHeads, hg.trans hg', ⟨ptr, t, ?_, hg'.tuple _ _ hr, hrel, hend, rfl, hpay⟩, ?_⟩
  · simp [headForRelation, setRelationHead, setHead]
  · intro rel' row' hne
    simp [headForRelation, setRelationHead, setHead, AList.lookup_insert_ne hne, hd]

theorem Beyond.exists_insert {payload : Bytes} (hB : Beyond h0 h) (hn : h.normRel rel = rel)
    (hsz : tupleHeaderLen + payload.length ≤ h.store.pageSize.bytes - (pageHeaderLen + slotLen)) :
    ∃ h', h.insertRecoveredForRelation tx rel row payload = .ok h' ∧
      Topped h0 (rel, row) ⟨tx, some payload⟩ h h' := by
  have hw0 : HeapWf { h with nextRow := advanceRowPast h.nextRow row } := { hB.grows.wf with }
  have hB0 : Beyond h0 { h with nextRow := advanceRowPast h.nextRow row } :=
    { hB with grows := { hB.grows with wf := hw0 } }
  obtain ⟨⟨ptr, h2⟩, ha⟩ : ∃ r, ({ h with nextRow := advanceRowPast h.nextRow row } :
      PageBackedHeap).appendTuple tx row (.new row rel tx payload) 0 none = .ok r :=
    exists_appendTuple _ hw0.toLaneWf hsz ⟨_, rfl⟩
  obtain ⟨⟨-, hK⟩, hr, -⟩ := appendTuple_put hw0.toLaneWf ha
  have hg0 : Grows h { h with nextRow := advanceRowPast h.nextRow row } :=
    ⟨hw0, fun _ _ h => h, fun _ _ h => h, rfl⟩
  refine ⟨_, ?_, Topped.of_setHeads (hB0.appendTuple ha) (hg0.trans (appendTuple_grows hw0 ha))
    hK.dir hr rfl rfl rfl⟩
  have hn0 : ({ h with nextRow := advanceRowPast h.nextRow row } : PageBackedHeap).normRel rel =
      rel := hn
  simp only [insertRecoveredForRelation, insertRecoveredAt, hn0]
  exact bind_eq_ok.2 ⟨_, ha, rfl⟩

theorem Beyond.exists_appendVersion {current : TupleVersion} (kind : UndoKind) (tx row : Nat)
    (wp : Option WalPayload) (next : TupleVersion) (hB : Beyond h0 h)
    (hroom : h.RoomFor current.payload)
    (hsz : next.encodedSize ≤ h.store.pageSize.bytes - (pageHeaderLen + slotLen))
    (hrel : next.relId = rel)
    (hend : next.endTx = 0) (hpay : next.payload = next.toVersion.value.getD []) :
    ∃ h', h.appendVersion kind tx rel row next current 0 wp = .ok h' ∧
      Topped h0 (rel, row) next.toVersion h h' := by
  have hlog : ∃ r, logCell h.wal tx 0 wp = .ok r := by cases wp <;> exact ⟨_, rfl⟩
  obtain ⟨h', ha⟩ : ∃ h', h.appendVersion kind tx rel row next current 0 wp = .ok h' :=
    PageBackedHeap.exists_appendVersion hB.grows.wf.toLaneWf hroom hsz hlog
  refine ⟨h', ha, ?_⟩
  simp only [appendVersion, bind_eq_ok, pure_eq_ok, Prod.exists] at ha
  obtain ⟨undoPtr, h2, hundo, ptr, h3, htup, rfl⟩ := ha
  have hg1 := appendUndo_grows hB.grows.wf rfl hundo
  obtain ⟨⟨-, hK1⟩, -⟩ := appendUndo_put hB.grows.wf.toLaneWf rfl hundo
  obtain ⟨⟨-, hK2⟩, hr, -⟩ := appendTuple_put hg1.wf.toLaneWf htup
  exact Topped.of_setHeads (t := { next with undoHead := undoPtr })
    ((hB.appendUndo rfl hundo).appendTuple htup)
    (hg1.trans (appendTuple_grows hg1.wf htup)) (hK2.dir.trans hK1.dir) hr hrel hend hpay

/-! ### The version a replayed write replaces -/

theorem findInPage_ok {p : Page} (rel row : Nat) (slots : List Nat)
    (hc : ∀ k ∈ slots, ∃ t, p.cells[k]? = some (.tuple t) ∧ h.normRel t.relId = t.relId) :
    ∃ r, h.findInPage rel row p slots = .ok r ∧
      (r = none → ∀ k ∈ slots, (p.cells[k]?).any (Cell.isVersionOf rel row) = false) ∧
      ∀ t ∈ r, .tuple t ∈ p.cells ∧ t.relId = rel ∧ t.rowId = row := by
  induction slots with
  | nil => exact ⟨none, rfl, by simp, by simp⟩
  | cons k slots ih =>
    obtain ⟨t, hk, hn⟩ := hc k (by simp)
    obtain ⟨r, hr, hnone, hsome⟩ := ih fun k' hk' => hc k' (by simp [hk'])
    have hcell : p.tupleCell k = .ok t := by rw [Page.tupleCell, hk]
    by_cases hver : t.rowId = row ∧ h.normRel t.relId = rel
    · refine ⟨some t, ?_, by simp, ?_⟩
      · rw [findInPage, hcell]
        exact if_pos hver
      · rintro _ ⟨⟩
        exact ⟨mem_of_getElem? hk, hn.symm.trans hver.2, hver.1⟩
    · refine ⟨r, ?_, fun hr0 k' hk' => ?_, hsome⟩
      · rw [findInPage, hcell]
        exact (if_neg hver).trans hr
      · rcases mem_cons.1 hk' with rfl | hk'
        · simp only [hk, Option.any_some, Cell.isVersionOf, decide_eq_false_iff_not]
          exact fun hc => hver ⟨hc.2, hn.trans hc.1⟩
        · exact hnone hr0 k' hk'

theorem findInPages_ok {pids : List Nat} (rel row : Nat) (hp : ∀ pid ∈ pids, h.Loadable pid) :
    ∃ r, h.findInPages rel row pids = .ok r ∧
      (r = none → pids.findSome? (h.versionOn rel row) = none) ∧
      ∀ t ∈ r, (∃ pid ∈ pids, ∃ p, h.store.fetch pid = .ok p ∧ p.kind = .heap ∧
        .tuple t ∈ p.cells) ∧
        t.relId = rel ∧ t.rowId = row := by
  induction pids with
  | nil => exact ⟨none, rfl, by simp, by simp⟩
  | cons pid pids ih =>
    obtain ⟨r, hr, hnone, hsome⟩ := ih fun q hq => hp q (by simp [hq])
    obtain ⟨p, hfetch, hrel, -, htup, hund⟩ := hp pid (by simp)
    have hscan : h.scanFetch pid = .ok (some p) := by rw [scanFetch, hfetch]
    have hlater : ∀ t ∈ r, (∃ q ∈ pid :: pids, ∃ p, h.store.fetch q = .ok p ∧ p.kind = .heap ∧
        .tuple t ∈ p.cells) ∧
        t.relId = rel ∧ t.rowId = row := by
      intro t ht
      obtain ⟨⟨q, hq, hrest⟩, hkey⟩ := hsome t ht
      exact ⟨⟨q, by simp [hq], hrest⟩, hkey⟩
    have hver : p.lastVersion rel row = none → r = none →
        (pid :: pids).findSome? (h.versionOn rel row) = none := by
      intro hl hr0
      rw [findSome?_cons, versionOn, hfetch]
      simp only [hl, Option.map_none]
      exact hnone hr0
    by_cases hk : p.kind = .heap
    · obtain ⟨found, hf, hfnone, hfsome⟩ :=
        findInPage_ok rel row (range p.cells.length) fun k hk' => htup hk k (by simpa using hk')
      have hown : h.isOwnHeapPage p = true := by simp [isOwnHeapPage, hk, hrel]
      have hstep : h.findInPages rel row (pid :: pids) =
          found.elim (h.findInPages rel row pids) (fun t => .ok (some t)) := by
        rw [findInPages, hscan]
        show (if _ then _ else _) = _
        rw [if_pos hown, hf]
        cases found <;> rfl
      cases found with
      | some t =>
        refine ⟨some t, hstep, by simp, ?_⟩
        rintro _ ⟨⟩
        obtain ⟨hcell, hkey⟩ := hfsome t rfl
        exact ⟨⟨pid, by simp, p, hfetch, hk, hcell⟩, hkey⟩
      | none =>
        refine ⟨r, hstep.trans hr, hver (find?_eq_none.2 fun k hk' => ?_), hlater⟩
        rw [hfnone rfl k (by simpa using hk')]
        exact Bool.false_ne_true
    · refine ⟨r, ?_, hver (lastVersion_eq_none (hund hk)), hlater⟩
      rw [findInPages, hscan]
      show (if _ then _ else _) = _
      rw [if_neg (by simp [isOwnHeapPage, hk])]
      exact hr

/-! ### What can be replayed -/

/-- A write of `tx` finds a version of the row to replace, on the pages or replayed: one of its own,
or of a transaction that has committed. There is room for the undo record of every one it may find.
-/
def Replaceable (g : PageBackedHeap) (ops : List Op) (tx : Nat) (key : Nat × Nat) : Prop :=
  ((g.firstVersion key.1 key.2).isSome ∨ ∃ v ∈ history g.relId key ops, v.tx = tx ∨
    .appendCommit v.tx ∈ ops) ∧
    (∀ t ∈ g.heapTuples, (t.relId, t.rowId) = key → g.RoomFor t.payload) ∧
    ∀ v ∈ history g.relId key ops, g.RoomFor (v.value.getD [])

def TupleFits (g : PageBackedHeap) (payload : Bytes) : Prop :=
  tupleHeaderLen + payload.length ≤ g.store.pageSize.bytes - (pageHeaderLen + slotLen)

/-- The record of `op` can be replayed behind those of `ops`. -/
def Follows (g : PageBackedHeap) (ops : List Op) : Op → Prop
  | .insertForRelation _ rel _ payload => g.normRel rel = rel ∧ g.TupleFits payload
  | .updateForRelation tx rel row payload =>
    g.normRel rel = rel ∧ g.TupleFits payload ∧ g.Replaceable ops tx (rel, row)
  | .deleteForRelation tx rel row => g.normRel rel = rel ∧ g.Replaceable ops tx (rel, row)
  | .appendCommit _ => True
  | _ => False

inductive Redoable (g : PageBackedHeap) : List Op → Prop
  | nil : Redoable g []
  | snoc {ops : List Op} {op : Op} : Redoable g ops → g.Follows ops op → Redoable g (ops ++ [op])

/-- `h0` is the heap that a reopening finds on the pages of `g`. -/
structure Opened (g h0 : PageBackedHeap) : Prop where
  live : LiveHeap g
  wf : HeapWf h0
  fetch : ∀ q, h0.store.fetch q = g.store.fetch q
  relId : h0.relId = g.relId
  size : h0.store.pageSize = g.store.pageSize
  next : h0.store.nextPageId = g.store.nextPageId
  count : h0.store.pageCount + 1 = g.store.nextPageId
  lanes : ∀ i, h0.appendLanes i = ⟨none, none⟩
  heads : ∀ rel row, h0.headForRelation rel row = none

/-- The writes `vs` of the transactions in `C` have been replayed: the directory has the newest one
of each row. -/
structure Redone (h0 : PageBackedHeap) (C : Nat → Bool) (vs : Nat × Nat → List (Version Nat Bytes))
    (h : PageBackedHeap) : Prop where
  beyond : Beyond h0 h
  bare : ∀ key, (vs key).find? (C ·.tx) = none → h.headForRelation key.1 key.2 = none
  head : ∀ key v, (vs key).find? (C ·.tx) = some v → h.Heads key v

section
variable {g : PageBackedHeap} {C : Nat → Bool} {ops : List Op}
    {vs vs' : Nat × Nat → List (Version Nat Bytes)}

theorem Opened.redone (hO : Opened g h0) (hvs : ∀ key, vs key = []) : Redone h0 C vs h0 where
  beyond := ⟨hO.wf.refl_grows, fun _ _ => rfl, by simp [hO.lanes], le_rfl, rfl, rfl⟩
  bare _ _ := hO.heads _ _
  head key v hv := by simp [hvs] at hv

theorem Redone.skip {key : Nat × Nat} {v : Version Nat Bytes} (hD : Redone h0 C vs h)
    (hself : vs' key = v :: vs key) (hother : ∀ k, k ≠ key → vs' k = vs k) (hC : C v.tx = false) :
    Redone h0 C vs' h := by
  have hfind : ∀ k, (vs' k).find? (C ·.tx) = (vs k).find? (C ·.tx) := by
    intro k
    by_cases hk : k = key
    · rw [hk, hself, find?_cons_of_neg (by simp [hC])]
    · rw [hother k hk]
  exact ⟨hD.beyond, fun k hk => hD.bare k (hfind k ▸ hk), fun k w hk => hD.head k w (hfind k ▸ hk)⟩

theorem Redone.topped {key : Nat × Nat} {v : Version Nat Bytes} (hD : Redone h0 C vs h)
    (hT : Topped h0 key v h h')
    (hself : vs' key = v :: vs key) (hother : ∀ k, k ≠ key → vs' k = vs k) (hC : C v.tx = true) :
    Redone h0 C vs' h' := by
  have hfind : (vs' key).find? (C ·.tx) = some v := by
    rw [hself, find?_cons_of_pos (by simpa using hC)]
  refine ⟨hT.beyond, fun k hk => ?_, fun k w hk => ?_⟩
  · by_cases hkey : k = key
    · rw [hkey, hfind] at hk
      cases hk
    · exact (hT.other k.1 k.2 hkey).trans (hD.bare k (hother k hkey ▸ hk))
  · by_cases hkey : k = key
    · rw [hkey, hfind] at hk
      cases hk
      exact hkey ▸ hT.head
    · obtain ⟨ptr, t, hd, hr, hrest⟩ := hD.head k w (hother k hkey ▸ hk)
      exact ⟨ptr, t, (hT.other k.1 k.2 hkey).trans hd, hT.grows.tuple _ _ hr, hrest⟩

theorem Beyond.normRel (hB : Beyond h0 h) (hO : Opened g h0) (rel : Nat) :
    h.normRel rel = g.normRel rel := by
  unfold PageBackedHeap.normRel
  rw [hB.grows.relId, hO.relId]

theorem Beyond.loadable (hB : Beyond h0 h) (hO : Opened g h0) :
    ∀ pid ∈ scanPages h.store.pageCount, h.Loadable pid ∧ h.store.fetch pid = g.store.fetch pid ∧
      pid ∈ range' 1 (g.store.nextPageId - 1) := by
  intro pid hpid
  have hcount := hO.count
  rw [scanPages, hB.count, mem_range'_1] at hpid
  have hfetch : h.store.fetch pid = g.store.fetch pid :=
    (hB.old pid (by rw [hO.next]; omega)).trans (hO.fetch pid)
  obtain ⟨p, hp, hr, ha, ht, hu⟩ := hO.live.loadable hpid.1 (by omega)
  refine ⟨⟨p, hfetch.trans hp, hr.trans ?_, ha, fun hk k hlt => ?_, hu⟩, hfetch,
    mem_range'_1.2 (by omega)⟩
  · exact (hB.grows.relId.trans hO.relId).symm
  · obtain ⟨t, hc, hn⟩ := ht hk k hlt
    exact ⟨t, hc, (hB.normRel hO _).trans hn⟩

theorem Beyond.firstVersion_eq (hB : Beyond h0 h) (hO : Opened g h0) (rel row : Nat) :
    (scanPages h.store.pageCount).findSome? (h.versionOn rel row) = g.firstVersion rel row := by
  have hpages : scanPages h.store.pageCount = scanPages (g.store.nextPageId - 1) := by
    rw [hB.count, ← hO.count, Nat.add_sub_cancel]
  rw [firstVersion, ← hpages, ← head?_filterMap, ← head?_filterMap]
  refine congrArg head? (filterMap_congr fun pid hpid => ?_)
  rw [versionOn, versionOn, (hB.loadable hO pid hpid).2.1]

theorem Redone.exists_current (hD : Redone h0 C (history g.relId · ops) h) (hO : Opened g h0)
    (hC : ∀ x, .appendCommit x ∈ ops → C x = true) (htx : C tx = true) (hn : g.normRel rel = rel)
    (hrep : g.Replaceable ops tx (rel, row)) :
    ∃ current, h.currentTupleRecovered rel row = .ok current ∧ h.RoomFor current.payload := by
  obtain ⟨hex, htuples, hversions⟩ := hrep
  have hroom : ∀ payload, g.RoomFor payload → h.RoomFor payload := by
    intro payload hg
    unfold RoomFor at hg ⊢
    rw [hD.beyond.size, hO.size]
    exact hg
  cases hf : (history g.relId (rel, row) ops).find? (C ·.tx) with
  | some v =>
    obtain ⟨ptr, t, hd, hr, -, -, -, hpay⟩ := hD.head (rel, row) v hf
    refine ⟨t, ?_, hroom _ (hpay ▸ hversions v (mem_of_find?_eq_some hf))⟩
    rw [currentTupleRecovered, hd]
    exact hr
  | none =>
    have hpages := hD.beyond.loadable hO
    obtain ⟨r, hr, hnone, hsome⟩ := findInPages_ok rel row fun pid hpid => (hpages pid hpid).1
    cases r with
    | some t =>
      obtain ⟨⟨pid, hpid, p, hp, hk, hcell⟩, rfl, rfl⟩ := hsome t rfl
      have hcur : h.currentTupleRecovered t.relId t.rowId = .ok t := by
        rw [currentTupleRecovered, hD.bare (t.relId, t.rowId) hf]
        dsimp only
        rw [hD.beyond.normRel hO, hn, hr]
        rfl
      refine ⟨t, hcur, hroom _ (htuples t ?_ rfl)⟩
      obtain ⟨-, hfetch, hrange⟩ := hpages pid hpid
      refine mem_flatMap.2 ⟨pid, hrange, ?_⟩
      rw [pageTuples, ← hfetch, hp]
      simp only [hk, if_true]
      exact mem_filterMap.2 ⟨_, hcell, rfl⟩
    | none =>
      -- a version of its own, or of a transaction that has committed, would have been replayed
      exfalso
      rcases hex with hfirst | ⟨v, hv, hvtx⟩
      · rw [← hD.beyond.firstVersion_eq hO, hnone rfl] at hfirst
        cases hfirst
      · have hCv : C v.tx = true := by
          rcases hvtx with h | h
          · exact h.symm ▸ htx
          · exact hC _ h
        exact absurd hCv (by simpa using find?_eq_none.1 hf v hv)

end
end PageBackedHeap

/-! ### The replay -/

theorem recoverHeap_append {C : Nat → Bool} {lsn : Nat} {rs rs' : List WalRecord}
    {h : PageBackedHeap} :
    recoverHeap C lsn (rs ++ rs') h = recoverHeap C lsn rs h >>= recoverHeap C lsn rs' := by
  induction rs generalizing h with
  | nil => rfl
  | cons r rs ih =>
    show (recoverHeapRecord C lsn h r >>= recoverHeap C lsn (rs ++ rs')) =
      (recoverHeapRecord C lsn h r >>= recoverHeap C lsn rs) >>= _
    cases recoverHeapRecord C lsn h r with
    | error e => rfl
    | ok h1 => exact ih

/-- What the replay does with a record. -/
def replayOp (C : Nat → Bool) (h : PageBackedHeap) : Op → Except Error PageBackedHeap
  | .insertForRelation tx rel row payload => if C tx then
      h.insertRecoveredForRelation tx rel row payload else .ok h
  | .updateForRelation tx rel row payload => if C tx then
      h.updateRecoveredForRelation tx rel row payload else .ok h
  | .deleteForRelation tx rel row => if C tx then h.deleteRecoveredForRelation tx rel row else .ok h
  | _ => .ok h

theorem recoverHeapRecord_eq {C : Nat → Bool} {lsn : Nat} {r : WalRecord} {op : Op}
    {h : PageBackedHeap}
    (hop : r.op? = some op) (hl : lsn ≤ r.lsn) : recoverHeapRecord C lsn h r = replayOp C h op := by
  obtain ⟨l, prev, tx, kind, payload⟩ := r
  rw [recoverHeapRecord, if_neg (Nat.not_lt.2 hl)]
  cases kind <;> cases payload <;> simp only [WalRecord.op?, Option.some.injEq, reduceCtorEq] at hop
  all_goals
    subst hop
    rfl

namespace PageBackedHeap
variable {g h h0 : PageBackedHeap} {C : Nat → Bool} {ops : List Op} {lsn : Nat}

theorem history_other {relId : Nat} {op : Op} {w : (Nat × Nat) × Version Nat Bytes}
    (ops : List Op)
    (hw : op.write? relId = some w) :
    history relId w.1 (ops ++ [op]) = w.2 :: history relId w.1 ops ∧
      ∀ k, k ≠ w.1 → history relId k (ops ++ [op]) = history relId k ops := by
  refine ⟨?_, fun k hk => ?_⟩
  · rw [history_snoc, hw]
    simp
  · rw [history_snoc, hw]
    simp [Ne.symm hk]

theorem Redone.write {op : Op} {key : Nat × Nat} {v : Version Nat Bytes}
    {x : Except Error PageBackedHeap}
    (hD : Redone h0 C (history g.relId · ops) h) (hw : op.write? g.relId = some (key, v))
    (hx : C v.tx = true → ∃ h', x = .ok h' ∧ Topped h0 key v h h') :
    ∃ h', (if C v.tx then x else .ok h) = .ok h' ∧
      Redone h0 C (history g.relId · (ops ++ [op])) h' := by
  obtain ⟨hself, hother⟩ := history_other ops hw
  cases hC : C v.tx with
  | false => exact ⟨h, rfl, hD.skip hself hother hC⟩
  | true =>
    obtain ⟨h', hok, hT⟩ := hx hC
    exact ⟨h', hok, hD.topped hT hself hother hC⟩

theorem Redone.replayOp {op : Op} (hD : Redone h0 C (history g.relId · ops) h) (hO : Opened g h0)
    (hC : ∀ x, .appendCommit x ∈ ops → C x = true) (hF : g.Follows ops op) :
    ∃ h', replayOp C h op = .ok h' ∧ Redone h0 C (history g.relId · (ops ++ [op])) h' := by
  have hnorm : ∀ {rel}, g.normRel rel = rel → (if rel = 0 then g.relId else rel) = rel := id
  have hsize : ∀ {payload}, g.TupleFits payload → h.TupleFits payload := by
    intro payload hfit
    unfold TupleFits at hfit ⊢
    rw [hD.beyond.size, hO.size]
    exact hfit
  cases op with
  | insertForRelation tx rel row payload =>
    obtain ⟨hn, hfit⟩ := hF
    have hw : Op.write? g.relId (.insertForRelation tx rel row payload) =
        some ((rel, row), ⟨tx, some payload⟩) := by simp [Op.write?, hnorm hn]
    refine hD.write hw fun _ => ?_
    exact hD.beyond.exists_insert ((hD.beyond.normRel hO rel).trans hn) (hsize hfit)
  | updateForRelation tx rel row payload =>
    obtain ⟨hn, hfit, hrep⟩ := hF
    have hw : Op.write? g.relId (.updateForRelation tx rel row payload) =
        some ((rel, row), ⟨tx, some payload⟩) := by simp [Op.write?, hnorm hn]
    refine hD.write hw fun htx => ?_
    obtain ⟨current, hcur, hroom⟩ := hD.exists_current hO hC htx hn hrep
    have hn' : h.normRel rel = rel := (hD.beyond.normRel hO rel).trans hn
    obtain ⟨h', ha, hT⟩ := hD.beyond.exists_appendVersion .updateBeforeImage tx row none
      (.new row rel tx payload) hroom (hsize hfit) rfl rfl rfl
    refine ⟨h', bind_eq_ok.2 ⟨current, hcur, ?_⟩, hT⟩
    rw [appendUpdateVersion, hn']
    exact bind_eq_ok.2 ⟨(), require_eq_ok.2 (hsize hfit), ha⟩
  | deleteForRelation tx rel row =>
    obtain ⟨hn, hrep⟩ := hF
    have hw : Op.write? g.relId (.deleteForRelation tx rel row) =
        some ((rel, row), ⟨tx, none⟩) := by simp [Op.write?, hnorm hn]
    refine hD.write hw fun htx => ?_
    obtain ⟨current, hcur, hroom⟩ := hD.exists_current hO hC htx hn hrep
    have hn' : h.normRel rel = rel := (hD.beyond.normRel hO rel).trans hn
    obtain ⟨h', ha, hT⟩ := hD.beyond.exists_appendVersion .deleteBeforeImage tx row
      (some (.heapDelete tx rel row)) (.tombstone row rel tx) hroom
      (by
        simp only [RoomFor, TupleVersion.encodedSize, TupleVersion.tombstone, length_nil] at hroom ⊢
        omega) rfl rfl rfl
    refine ⟨h', bind_eq_ok.2 ⟨current, hcur, ?_⟩, hT⟩
    rw [appendDeleteVersion, hn']
    exact ha
  | appendCommit tx =>
    have hsame : (history g.relId · (ops ++ [.appendCommit tx])) = (history g.relId · ops) := by
      funext key
      rw [history_snoc]
      rfl
    exact ⟨h, rfl, hsame ▸ hD⟩
  | _ => exact hF.elim

theorem Redoable.recoverHeap {rs : List WalRecord} (hR : Redoable g ops) (hO : Opened g h0)
    (hm : rs.map WalRecord.op? = ops.map some) (hl : ∀ r ∈ rs, lsn ≤ r.lsn)
    (hC : ∀ x, .appendCommit x ∈ ops → C x = true) :
    ∃ h, recoverHeap C lsn rs h0 = .ok h ∧ Redone h0 C (history g.relId · ops) h := by
  induction hR generalizing rs with
  | nil =>
    rw [map_nil, map_eq_nil_iff] at hm
    exact ⟨h0, hm ▸ rfl, hO.redone fun _ => rfl⟩
  | @snoc ops op _ hF ih =>
    obtain ⟨rs, r, rfl⟩ := (eq_nil_or_concat rs).resolve_left (by rintro rfl; simp at hm)
    simp only [concat_eq_append, map_append, map_cons, map_nil] at hm hl ⊢
    obtain ⟨hm, hr⟩ := append_inj' hm rfl
    have hC' : ∀ x, .appendCommit x ∈ ops → C x = true := fun x hx => hC x (mem_append_left _ hx)
    obtain ⟨h, hrec, hD⟩ := ih hm (fun r' hr' => hl r' (by simp [hr'])) hC'
    obtain ⟨h', hop, hD'⟩ := hD.replayOp hO hC' hF
    refine ⟨h', ?_, hD'⟩
    rw [recoverHeap_append, hrec]
    show (recoverHeapRecord C lsn h r >>= fun h => .ok h) = _
    rw [recoverHeapRecord_eq (singleton_inj.1 hr) (hl r (by simp)), hop]
    rfl

/-! ### Reading the rows that were not replayed -/

end PageBackedHeap

def Cell.stamps : Cell → List Nat
  | .tuple t => [t.beginTx, t.endTx]
  | .undo u => [u.beforeImage.beginTx, u.beforeImage.endTx]
  | _ => []

namespace PageBackedHeap
variable {g h h0 h' : PageBackedHeap} {n rel row : Nat}

/-- Every transaction that left its id on a page has a lower id than `n`. -/
def Stamped (h : PageBackedHeap) (n : Nat) : Prop :=
  ∀ q p, h.store.fetch q = .ok p → ∀ c ∈ p.cells, ∀ x ∈ c.stamps, x < n

section reads
variable {txs txs' : ConcurrentTxStatus} {snapshot snapshot' : Snapshot}
  (hst : h.Stamped n)
  (hv : ∀ x < n, txs'.isTxVisible x snapshot' none = txs.isTxVisible x snapshot none)
include hst hv

theorem Stamped.visibility {q : Nat} {p : Page} {c : Cell} {t : TupleVersion}
    (hp : h.store.fetch q = .ok p) (hc : c ∈ p.cells) (ht : c.stamps = [t.beginTx, t.endTx]) :
    t.visibility txs' snapshot' none = t.visibility txs snapshot none := by
  have hx := hst q p hp c hc
  simp only [TupleVersion.visibility, hv _ (hx t.beginTx (by simp [ht])),
    hv _ (hx t.endTx (by simp [ht]))]

theorem Stamped.walkUndo (hu : ∀ ptr u, h.readUndo ptr = .ok u → h'.readUndo ptr = .ok u)
    {fuel cursor : Nat} {hit : UndoHit}
    (hw : h.walkUndo txs snapshot none fuel cursor = .ok hit) :
    h'.walkUndo txs' snapshot' none fuel cursor = .ok hit := by
  induction fuel generalizing cursor with
  | zero => exact hw
  | succ fuel ih =>
    rw [PageBackedHeap.walkUndo] at hw ⊢
    split
    · next h0 => rwa [if_pos h0] at hw
    · next h0 =>
      rw [if_neg h0, bind_eq_ok] at hw
      obtain ⟨u, hread, hw⟩ := hw
      obtain ⟨-, p, hp, hk⟩ := readUndo_eq_ok.1 hread
      refine bind_eq_ok.2 ⟨u, hu _ _ hread, ?_⟩
      rw [hst.visibility hv hp (mem_of_getElem? hk) rfl]
      cases hvu : u.beforeImage.visibility txs snapshot none with
      | visible => rwa [hvu] at hw
      | deleted => rwa [hvu] at hw
      | invisible =>
        rw [hvu] at hw
        exact ih hw

/-- A read that succeeds also does on more pages, when the transactions that it asks for count as
before. -/
theorem Stamped.getForRelation {value : Option Bytes}
    (ht : ∀ ptr t, h.readTuple ptr = .ok t → h'.readTuple ptr = .ok t)
    (hu : ∀ ptr u, h.readUndo ptr = .ok u → h'.readUndo ptr = .ok u)
    (hd : h'.headForRelation rel row = h.headForRelation rel row)
    (hr : h.getForRelation txs snapshot none rel row = .ok value) :
    h'.getForRelation txs' snapshot' none rel row = .ok value := by
  unfold PageBackedHeap.getForRelation at hr ⊢
  rw [hd]
  cases hhead : h.headForRelation rel row with
  | none => rwa [hhead] at hr
  | some ptr =>
    rw [hhead] at hr
    obtain ⟨t, hread, hr⟩ := bind_eq_ok.1 hr
    obtain ⟨-, p, hp, -, hk⟩ := readTuple_eq_ok.1 hread
    refine bind_eq_ok.2 ⟨t, ht _ _ hread, ?_⟩
    split
    · next hrel => rwa [if_pos hrel] at hr
    · next hrel =>
      rw [if_neg hrel] at hr
      rw [hst.visibility hv hp (mem_of_getElem? hk) rfl]
      cases hvt : t.visibility txs snapshot none with
      | visible => rwa [hvt] at hr
      | deleted => rwa [hvt] at hr
      | invisible =>
        rw [hvt] at hr
        obtain ⟨hit, hw, hr⟩ := bind_eq_ok.1 hr
        exact bind_eq_ok.2 ⟨hit, hst.walkUndo hv hu hw, hr⟩

end reads

theorem Heads.getForRelation {txs : ConcurrentTxStatus} {snapshot : Snapshot}
    {v : Version Nat Bytes}
    (hH : h.Heads (rel, row) v) (hv : txs.isTxVisible v.tx snapshot none = true) :
    h.getForRelation txs snapshot none rel row = .ok v.value := by
  obtain ⟨ptr, t, hd, hr, hrel, hend, rfl, -⟩ := hH
  rw [PageBackedHeap.getForRelation, show h.headForRelation rel row = some ptr from hd]
  refine bind_eq_ok.2 ⟨t, hr, ?_⟩
  have hv' : txs.isTxVisible t.beginTx snapshot none = true := hv
  rw [if_neg (not_not.2 hrel), visibility_of_end (.inl hend), if_pos hv']
  cases hdel : t.deleted <;> simp [TupleVersion.toVersion, hdel] <;> rfl

end PageBackedHeap

/-! ### The reopening -/

namespace Engine
variable {e : Engine} {ops : List Op} {rs : List WalRecord} {x : Nat}

/-- The records `rs` of the calls `ops` follow those of `e` in the log, and can be replayed. -/
structure Tail (e : Engine) (ops : List Op) (rs : List WalRecord) : Prop where
  same : rs.map WalRecord.op? = ops.map some
  lsn : ∀ r ∈ rs, e.heap.wal.reservedLsn ≤ r.lsn
  redo : e.heap.Redoable ops
  /-- The CSNs of the commits come in order. -/
  csns : ∃ n, (rs.filterMap WalRecord.commit?).map Prod.snd = range' e.txs.nextCsn n
  writers : ∀ key, ∀ v ∈ history e.heap.relId key ops, e.txs.nextTx ≤ v.tx
  commits : ∀ x, .appendCommit x ∈ ops → e.txs.nextTx ≤ x

theorem Tail.mem_commits (hT : Tail e ops rs) : (∃ c, (x, c) ∈ rs.filterMap WalRecord.commit?) ↔
    .appendCommit x ∈ ops := by
  have hop : ∀ r : WalRecord, (∃ c, r.commit? = some (x, c)) ↔ r.op? = some (.appendCommit x) := by
    rintro ⟨l, prev, tx, kind, payload⟩
    cases kind <;> cases payload <;> simp [WalRecord.commit?, WalRecord.op?]
  have hmem : some (.appendCommit x) ∈ rs.map WalRecord.op? ↔ .appendCommit x ∈ ops := by
    rw [hT.same]
    simp
  rw [← hmem, mem_map]
  simp only [mem_filterMap, ← hop]
  tauto

theorem committedIn_iff :
    committedIn rs x = true ↔ ∃ c, (x, c) ∈ rs.filterMap WalRecord.commit? := by
  simp only [committedIn, any_eq_true, Option.any_eq_true, decide_eq_true_eq, mem_filterMap]
  constructor
  · rintro ⟨r, hr, ⟨y, c⟩, hc, rfl⟩
    exact ⟨c, r, hr, hc⟩
  · rintro ⟨c, r, hr, hc⟩
    exact ⟨r, hr, (x, c), hc, rfl⟩

section
variable (hq : e.Quiet) {records : List WalRecord}
    (hrec : ∀ r ∈ records, ∀ x c, r.commit? = some (x, c) → e.HasCsn x c)
include hq hrec

theorem Quiet.lt_of_mem_commits {c : Nat} (htx : e.TxInv)
    (h : (x, c) ∈ records.filterMap WalRecord.commit?) :
    x < e.txs.nextTx := by
  obtain ⟨r, hr, hc⟩ := mem_filterMap.1 h
  exact htx.begun x c ((hrec r hr x c hc).resolve_right (hq.not_committing c))

variable (hT : Tail e ops rs)
include hT

theorem Tail.committedIn_eq (htx : e.TxInv) (hx : e.txs.nextTx ≤ x) :
    committedIn (records ++ rs) x = decide (.appendCommit x ∈ ops) := by
  rw [Bool.eq_iff_iff, decide_eq_true_eq, committedIn_iff, ← hT.mem_commits]
  refine exists_congr fun c => ?_
  rw [filterMap_append, mem_append]
  refine ⟨fun h => h.resolve_left fun hold => ?_, .inr⟩
  exact absurd (hq.lt_of_mem_commits hrec htx hold) (Nat.not_lt.2 hx)

variable (hcsn : e.CsnInv)
include hcsn

theorem Tail.isTxVisible_old (generation : Nat) (hx : x < e.txs.nextTx) :
    let txs := recoverCommits (records ++ rs) (.restore (e.txs.txStatusCheckpoint generation))
    txs.isTxVisible x txs.snapshot none = e.txs.isTxVisible x e.txs.snapshot none := by
  refine hq.isTxVisible_recovered hcsn _ ?_ generation
  intro r hr c hc
  rcases mem_append.1 hr with hr | hr
  · exact hrec r hr x c hc
  · have := hT.commits x (hT.mem_commits.1 ⟨c, mem_filterMap.2 ⟨r, hr, hc⟩⟩)
    omega

theorem Tail.isTxVisible_new (htx : e.TxInv) (generation : Nat) (hx : .appendCommit x ∈ ops) :
    let txs := recoverCommits (records ++ rs) (.restore (e.txs.txStatusCheckpoint generation))
    txs.isTxVisible x txs.snapshot none = true := by
  intro txs
  obtain ⟨c₀, hc₀⟩ := hT.mem_commits.2 hx
  have hnew := hT.commits x hx
  obtain ⟨c, hst⟩ : ∃ c, txs.state x = .committed c :=
    ConcurrentTxStatus.exists_committed_recovered
      (.inl ⟨(x, c₀), by rw [filterMap_append]; exact mem_append_right _ hc₀, rfl⟩)
  refine isTxVisible_none.2 ⟨c, hst, le_publishedCsn_of_log fun k hlt hle => ?_⟩
  -- the commit is in the tail, where the CSNs go on from the table's
  have hmem : (x, c) ∈ rs.filterMap WalRecord.commit? := by
    rcases ConcurrentTxStatus.committed_recovered hst with h | h
    · rw [filterMap_append, mem_append] at h
      refine h.resolve_left fun hold => ?_
      exact absurd (hq.lt_of_mem_commits hrec htx hold) (Nat.not_lt.2 hnew)
    · rw [ConcurrentTxStatus.state_restore] at h
      cases hb : e.txs.state x with
      | committed c' => exact absurd (htx.begun x c' hb) (Nat.not_lt.2 hnew)
      | inProgress => rw [hb] at h; cases h
      | aborted => rw [hb] at h; cases h
  obtain ⟨n, hn⟩ := hT.csns
  have hc := mem_range'_1.1 (hn ▸ mem_map_of_mem (f := Prod.snd) hmem)
  have hpub := hq.published_eq hcsn
  have hres := ConcurrentTxStatus.publishedCsn_le_restore (t := e.txs) generation
  obtain ⟨p, hp, hpk⟩ :=
    mem_map.1 (hn.symm ▸ mem_range'_1.2 (show e.txs.nextCsn ≤ k ∧ k < e.txs.nextCsn + n by
    dsimp only at hc
    omega))
  exact ⟨p, by rw [filterMap_append]; exact mem_append_right _ hp, hpk⟩

end
end Engine

namespace Database
variable {cfg : Config} {db db' : Database} {ops : List Op} {rs : List WalRecord}

/-- What a running database keeps besides `DbInv`. -/
structure Sound (cfg : Config) (db : Database) : Prop extends DbInv cfg db where
  size : db.engine.heap.store.pageSize = cfg.pageSize
  chains : db.engine.ChainsOk
  stamps : db.engine.heap.Stamped db.engine.txs.nextTx
  /-- The log is durable up to its end at most, and so are the barriers that commits wait for. -/
  durable : db.engine.heap.wal.durableLsn ≤ db.engine.heap.wal.reservedLsn
  barrier : ∀ x t c l, db.engine.txns.lookup x = some t → t.phase = .committing c l →
    l ≤ db.engine.heap.wal.reservedLsn
  ends : ∀ r ∈ db.engine.heap.wal.records, r.endLsn ≤ db.engine.heap.wal.reservedLsn
  sorted : db.engine.heap.wal.records.Pairwise fun r r' => r.endLsn ≤ r'.lsn

/-- The files `d` are those of a checkpoint of `db`. -/
structure Left (cfg : Config) (db : Database) (d : Disk) : Prop where
  base : ∃ g, d.baseStatus = .ok (.restore (db.engine.txs.txStatusCheckpoint g),
    db.engine.heap.wal.reservedLsn)
  control : d.control.isSome
  fetch : ∀ q, (Store.openFile cfg.pageSize d.file d.pageCount).fetch q =
    db.engine.heap.store.fetch q
  count : d.pageCount + 1 = db.engine.heap.store.nextPageId
  commits : ∀ r ∈ d.records, ∀ x c, r.commit? = some (x, c) → db.engine.HasCsn x c
  lsn : ∀ r ∈ d.records, r.lsn < db.engine.heap.wal.reservedLsn

theorem Sound.left (hI : Sound cfg db) (hc : db.checkpoint = .ok db') : Left cfg db db'.disk := by
  have hdur := hI.durable
  simp only [checkpoint, bind_eq_ok, pure_eq_ok, Prod.exists] at hc
  obtain ⟨d, wal, hf, rfl⟩ := hc
  obtain ⟨hlog, hres, hfail, hd⟩ := Logged.of_flushUntil hf
  rw [max_eq_right hdur] at hd
  have hrecs : ∀ r ∈ (wal.pruneSegmentsBelowCheckpointLsn d).records,
      r ∈ db.engine.heap.wal.records :=
    fun r hr => mem_records_checkpoint hlog hr
  refine ⟨⟨db.nextGeneration, ?_⟩, rfl, hI.live.fetch_openFile hd.ge cfg.pageSize,
    hI.live.pageCount_flushed hd.ge,
    fun r hr => hI.commits hfail r (hrecs r hr), fun r hr => hI.lsn r (hrecs r hr)⟩
  simp [disk, Disk.baseStatus, ConcurrentTxStatus.txStatusCheckpoint, hd]

theorem opened {g : PageBackedHeap} (d : Disk) (hL : g.LiveHeap) (hrel : g.relId = cfg.relId)
    (hsize : g.store.pageSize = cfg.pageSize)
    (hfetch : ∀ q, (Store.openFile cfg.pageSize d.file d.pageCount).fetch q = g.store.fetch q)
    (hcount : d.pageCount + 1 = g.store.nextPageId) : g.Opened (d.openHeap cfg) := by
  refine ⟨hL, ⟨⟨fun q p hq => ?_, ?_, rfl, nodup_nil, fun q p hq => ?_, by
    simp [Disk.openHeap, PageBackedHeap.new],
    ?_, ?_, ?_⟩, rfl, ?_⟩, hfetch, hrel.symm, hsize.symm, hcount, hcount, fun _ => rfl,
      fun _ _ => rfl⟩
  · rw [show (d.openHeap cfg).store.nextPageId = _ from hcount]
    exact hL.wf.ids q p ((hfetch q).symm.trans hq)
  · show 1 ≤ d.pageCount + 1
    omega
  · have hok := hL.wf.page q p ((hfetch q).symm.trans hq)
    rw [hsize, hrel] at hok
    exact hok
  · intro i q hq; cases hq
  · intro i q hq; cases hq
  · intro i q hq; cases hq
  · intro q f hq; cases hq

/-- A row that the replay leaves alone reads as it did at the checkpoint, through the version that a
scan of the pages meets first. -/
theorem Sound.read_bare {h : PageBackedHeap} {txs : ConcurrentTxStatus} {rel row : Nat}
    (hI : Sound cfg db) (hF : db.engine.FirstVersionsRead)
    (ht : ∀ ptr t, db.engine.heap.readTuple ptr = .ok t → h.readTuple ptr = .ok t)
    (hu : ∀ ptr u, db.engine.heap.readUndo ptr = .ok u → h.readUndo ptr = .ok u)
    (hhead : h.headForRelation rel row = db.engine.heap.firstVersion rel row)
    (hv : ∀ x < db.engine.txs.nextTx, txs.isTxVisible x txs.snapshot none =
      db.engine.txs.isTxVisible x db.engine.txs.snapshot none) :
    h.getForRelation txs txs.snapshot none rel row = db.engine.readFresh rel row := by
  cases hfirst : db.engine.heap.firstVersion rel row with
  | none =>
    have hnone : (db.engine.heap.firstVersion rel row).isSome = _ := hI.live.firstVersion_isSome
    rw [hfirst, Option.isSome_none, eq_comm, Option.isSome_eq_false_iff,
      Option.isNone_iff_eq_none] at hnone
    simp only [PageBackedHeap.getForRelation, Engine.readFresh, hhead, hfirst, hnone]
  | some ptr =>
    obtain ⟨l, hchain, -⟩ := hI.chains rel row
    have hshown : db.engine.readFresh rel row = .ok _ := PageBackedHeap.getForRelation_chain hchain
    have hthrough := hF (rel, row) ((hI.firstVersion_isSome rel row).2 (by rw [hfirst]; rfl))
    rw [hfirst] at hthrough
    dsimp only at hthrough
    rw [hshown] at hthrough ⊢
    refine PageBackedHeap.Stamped.getForRelation
      (h := db.engine.heap.setRelationHead rel row ptr) hI.stamps hv ht hu ?_
      (Option.some.inj hthrough)
    rw [hhead, hfirst, PageBackedHeap.headForRelation_setRelationHead, if_pos rfl]

/-- A reopening of the files that a checkpoint leaves, with further records in the log, reads every
row as the transactions left it that committed in these records, and else as it read at the
checkpoint. -/
theorem Sound.reopen_redo {d : Disk} (hI : Sound cfg db) (hq : db.engine.Quiet)
    (hF : db.engine.FirstVersionsRead)
    (hd : Left cfg db d) (hT : db.engine.Tail ops rs) :
    ∃ db', Disk.openWithRecovery { d with records := d.records ++ rs } cfg = .ok db' ∧
      ∀ rel row, db'.engine.readFresh rel row = effects cfg.relId db.engine.readFresh ops rel
        row := by
  obtain ⟨gen, hbase⟩ := hd.base
  have hO : db.engine.heap.Opened (Disk.openHeap { d with records := d.records ++ rs } cfg) :=
    opened _ hI.live hI.relId hI.size hd.fetch hd.count
  have hcom : ∀ {x}, db.engine.txs.nextTx ≤ x →
      committedIn (d.records ++ rs) x = decide (.appendCommit x ∈ ops) :=
    fun hx => hT.committedIn_eq hq hd.commits hI.tx hx
  obtain ⟨h, hrep, hD⟩ := hT.redo.recoverHeap hO hT.same hT.lsn
    fun x hx => (hcom (hT.commits x hx)).trans (decide_eq_true hx)
  have hpages := hD.beyond.loadable hO
  obtain ⟨h', hl, hs, hdir⟩ := PageBackedHeap.loadPages_ok fun pid hpid => (hpages pid hpid).1
  have hload : Disk.loadDirectories { d with records := d.records ++ rs } h = .ok h' := by
    rw [Disk.loadDirectories, if_pos hd.control]
    show (PageBackedHeap.loadPages _ h >>= _) = _
    rw [hl]
    exact PageBackedHeap.loadReusable_ok fun pid hpid => (hpages pid hpid).1.of_same hs
  generalize htxs :
    recoverCommits (d.records ++ rs) (.restore (db.engine.txs.txStatusCheckpoint gen)) = txs
  refine ⟨⟨⟨h', txs, ∅, ∅⟩, d.control, d.txStatus⟩, ?_, fun rel row => ?_⟩
  · simp only [Disk.openWithRecovery, bind_eq_ok, pure_eq_ok]
    refine ⟨_, hbase, h, ?_, h', hload, by rw [← htxs]⟩
    rw [recoverHeap_append, recoverHeap_below hd.lsn]
    exact hrep
  · have hfind : (history db.engine.heap.relId (rel, row) ops).find?
        (committedIn (d.records ++ rs) ·.tx) =
        (history cfg.relId (rel, row) ops).find? fun v => .appendCommit v.tx ∈ ops := by
      rw [hI.relId, ← head?_filter, ← head?_filter]
      exact congrArg head?
        (filter_congr fun v hv => hcom (hT.writers (rel, row) v (hI.relId.symm ▸ hv)))
    show h'.getForRelation txs txs.snapshot none rel row = _
    unfold effects
    rw [← hfind]
    have hhead := hdir rel row
    cases hv : (history db.engine.heap.relId (rel, row) ops).find?
      (committedIn (d.records ++ rs) ·.tx) with
    | some v =>
      obtain ⟨ptr, t, hptr, hread, hrest⟩ := hD.head (rel, row) v hv
      refine PageBackedHeap.Heads.getForRelation ⟨ptr, t, ?_, ?_, hrest⟩ ?_
      · exact hhead.trans (by rw [hptr]; rfl)
      · rw [PageBackedHeap.readTuple, hs.store]
        exact hread
      · rw [← htxs]
        refine hT.isTxVisible_new hq hd.commits hI.csn hI.tx gen ?_
        rw [hfind] at hv
        simpa using find?_some hv
    | none =>
      rw [hD.bare (rel, row) hv, Option.none_or, hD.beyond.firstVersion_eq hO] at hhead
      refine hI.read_bare hF (fun p t ht => ?_) (fun p u hu => ?_) hhead fun x hx => ?_
      · rw [PageBackedHeap.readTuple, hs.store]
        refine hD.beyond.grows.tuple p t ?_
        rw [PageBackedHeap.readTuple, hO.fetch]
        exact ht
      · rw [PageBackedHeap.readUndo, hs.store]
        refine hD.beyond.grows.undo p u ?_
        rw [PageBackedHeap.readUndo, hO.fetch]
        exact hu
      · rw [← htxs]
        exact hT.isTxVisible_old hq hd.commits hI.csn gen hx

end Database
end RedlineDb
