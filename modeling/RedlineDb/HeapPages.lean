import RedlineDb.HeapChain

/-!
# Pages and directory heads

What holds of the pages of a running heap besides their form: page LSNs are within the log, every
page allocated is there, and a row's directory entry points at its last tuple on that page. A
reopening that scans the pages relies on these.
-/

namespace RedlineDb.PageBackedHeap
open Lib
variable {h h' : PageBackedHeap}

structure PagesOk (h : PageBackedHeap) (n : Nat) : Prop where
  active : ∀ q p, h.store.fetch q = .ok p → p.state = .active
  lsn : ∀ q p, h.store.fetch q = .ok p → p.pageLsn ≤ n
  all : ∀ q, 1 ≤ q → q < h.store.nextPageId → ∃ p, h.store.fetch q = .ok p
  count : h.store.pageCount < h.store.nextPageId
  file : ∀ q p, h.store.file q = some p → q ≤ h.store.pageCount

structure HeadsOk (h : PageBackedHeap) : Prop where
  norm : ∀ (q : Nat) (p : Page) (k : Nat) (t : TupleVersion), h.store.fetch q = .ok p →
    p.cells[k]? = some (.tuple t) → h.normRel t.relId = t.relId
  last : ∀ (q : Nat) (p : Page) (k : Nat) (t : TupleVersion), h.store.fetch q = .ok p →
    p.cells[k]? = some (.tuple t) →
    ∃ ptr, h.headForRelation t.relId t.rowId = some ptr ∧ (ptr.pageId = q → k ≤ ptr.slot)
  head : ∀ rel row ptr, h.headForRelation rel row = some ptr →
    ∃ p t, h.store.fetch ptr.pageId = .ok p ∧
    p.kind = .heap ∧ p.generation = ptr.generation ∧ p.cells[ptr.slot]? = some (.tuple t) ∧
      t.relId = rel ∧ t.rowId = row

section Put
variable {tx lsn pid slot gen n : Nat} {kind : PageKind} {c : Cell} {wp : Option WalPayload}

theorem Put.page_mono_all (hw : HeapWf h) (hP : Put h kind c pid slot gen h') {q : Nat} {p : Page}
    (hf : h.store.fetch q = .ok p) :
    ∃ p', h'.store.fetch q = .ok p' ∧ p'.generation = p.generation ∧ p'.kind = p.kind ∧
      p.cells <+: p'.cells :=
  hP.page_mono hw.toLaneWf hf (by simp [hw.noReuse])

theorem Put.pagesOk (hw : HeapWf h) (hP : Put h kind c pid slot gen h')
    (hst : Stored h tx lsn wp pid h')
    (hok : PagesOk h n) (hlog : ∀ m w, logCell h.wal tx lsn wp = .ok (m, w) → m ≤ n) :
    PagesOk h' n := by
  obtain ⟨m, hm, pn, hpn, hlsn⟩ := hst.log
  have hpn : h'.store.fetch pid = .ok pn := Store.fetch_eq_ok.2 (.inl ⟨_, hpn, rfl⟩)
  refine ⟨?_, ?_, ?_, ?_, ?_⟩
  · intro q p hq
    by_cases hqp : q = pid
    · subst hqp
      exact hst.active (hok.active q) p hq
    · rw [hP.other q hqp] at hq
      exact hok.active q p hq
  · intro q p hq
    by_cases hqp : q = pid
    · subst hqp
      cases hpn.symm.trans hq
      rw [hlsn]
      exact hlog m _ hm
    · rw [hP.other q hqp] at hq
      exact hok.lsn q p hq
  · intro q h1 hq
    by_cases hqp : q = pid
    · subst hqp; exact ⟨pn, hpn⟩
    · rw [hP.other q hqp]
      -- the only new page is the one appended to
      have := hst.alloc
      have := hP.pid_le hw
      exact hok.all q h1 (by omega)
  · rw [hst.file.2]
    exact hok.count.trans_le hP.ids.2.2
  · rw [hst.file.1, hst.file.2]
    exact hok.file

theorem Put.headsOk_undo {u : UndoRecord} (hw : HeapWf h)
    (hP : Put h kind (.undo u) pid slot gen h') (hH : HeadsOk h) :
    HeadsOk h' := by
  have hdir : ∀ rel row, h'.headForRelation rel row = h.headForRelation rel row := by
    intro rel row
    rw [hP.frame]
    rfl
  have hnorm : ∀ rel, h'.normRel rel = h.normRel rel := by
    intro rel
    rw [hP.frame]
    rfl
  refine ⟨?_, ?_, ?_⟩
  · intro q p k t hq hk
    rw [hnorm]
    rcases hP.cell_cases hq hk with ⟨p0, hp0, hk0, -⟩ | ⟨-, -, hc⟩
    · exact hH.norm q p0 k t hp0 hk0
    · cases hc
  · intro q p k t hq hk
    rw [hdir]
    rcases hP.cell_cases hq hk with ⟨p0, hp0, hk0, -⟩ | ⟨-, -, hc⟩
    · exact hH.last q p0 k t hp0 hk0
    · cases hc
  · intro rel row ptr hptr
    rw [hdir] at hptr
    obtain ⟨p, t, h1, h2, h3, h4, h5⟩ := hH.head rel row ptr hptr
    obtain ⟨p', h6, h7, h8, h9⟩ := hP.page_mono_all hw h1
    exact ⟨p', t, h6, h8.trans h2, h7.trans h3, getElem?_of_prefix h9 h4, h5⟩

theorem Put.headsOk_tuple {t : TupleVersion} {lane : Nat} {l : AppendLane} (hw : HeapWf h)
    (hP : Put h .heap (.tuple t) pid slot gen h') (hH : HeadsOk h)
    (hn : h.normRel t.relId = t.relId) :
    HeadsOk (((h'.setLane lane l).setHead t.rowId ⟨pid, slot, gen⟩).setRelationHead t.relId t.rowId
      ⟨pid, slot, gen⟩) := by
  have hdir : ∀ rel row,
      (((h'.setLane lane l).setHead t.rowId ⟨pid, slot, gen⟩).setRelationHead t.relId t.rowId
      ⟨pid, slot, gen⟩).headForRelation rel row =
        if (rel, row) = (t.relId, t.rowId) then some ⟨pid, slot, gen⟩
          else h.headForRelation rel row := by
    intro rel row
    simp only [headForRelation, setRelationHead, setHead, setLane]
    split
    · next hk => rw [hk, AList.lookup_insert]
    · next hk => rw [AList.lookup_insert_ne hk, (hP.keeps hw.toLaneWf).dir]
  have hnorm : ∀ rel, h'.normRel rel = h.normRel rel := by
    intro rel
    rw [hP.frame]
    rfl
  refine ⟨?_, ?_, ?_⟩
  · intro q p k t' hq hk
    show h'.normRel t'.relId = t'.relId
    rw [hnorm]
    rcases hP.cell_cases hq hk with ⟨p0, hp0, hk0, -⟩ | ⟨-, -, hc⟩
    · exact hH.norm q p0 k t' hp0 hk0
    · cases hc; exact hn
  · intro q p k t' hq hk
    rw [hdir]
    rcases hP.cell_cases hq hk with ⟨p0, hp0, hk0, -⟩ | ⟨rfl, rfl, hc⟩
    · split
      · refine ⟨_, rfl, ?_⟩
        rintro rfl
        -- an earlier cell of the page has a lower slot
        obtain ⟨_, old, _, _, _, _, _, rfl, ⟨p1, hp1, _, rfl, _⟩ | ⟨rfl, _⟩ | ⟨_, _, hr⟩⟩ := hP.page
        · rw [hp0] at hp1
          cases hp1
          exact (List.getElem?_eq_some_iff.1 hk0).1.le
        · have := (hw.ids _ p0 hp0).2
          exact absurd this (lt_irrefl _)
        · simp [hw.noReuse] at hr
      · exact hH.last q p0 k t' hp0 hk0
    · cases hc
      rw [if_pos rfl]
      exact ⟨_, rfl, fun _ => le_rfl⟩
  · intro rel row ptr hptr
    rw [hdir] at hptr
    split at hptr
    · next hk =>
      cases hptr
      cases hk
      obtain ⟨p', old, hp', hk', hg', -, hcells, hlen, -⟩ := hP.page
      refine ⟨p', t, hp', hk', hg', ?_, rfl, rfl⟩
      rw [hcells, ← hlen]
      simp
    · obtain ⟨p, t', h1, h2, h3, h4, h5⟩ := hH.head rel row ptr hptr
      obtain ⟨p', h6, h7, h8, h9⟩ := hP.page_mono_all hw h1
      exact ⟨p', t', h6, h8.trans h2, h7.trans h3, getElem?_of_prefix h9 h4, h5⟩

end Put

/-! ### The write calls -/

structure LiveHeap (h : PageBackedHeap) : Prop where
  wf : HeapWf h
  pages : PagesOk h h.wal.reservedLsn
  heads : HeadsOk h

variable {lsn m n rel row tx : Nat} {txs : ConcurrentTxStatus} {snapshot : Snapshot}

theorem PagesOk.mono (hP : PagesOk h n) (hnm : n ≤ m) : PagesOk h m :=
  { hP with lsn := fun q p hq => (hP.lsn q p hq).trans hnm }

theorem PagesOk.of_store (hP : PagesOk h n) (hs : h'.store = h.store) : PagesOk h' n := by
  refine ⟨?_, ?_, ?_, ?_, ?_⟩ <;> rw [hs]
  · exact hP.active
  · exact hP.lsn
  · exact hP.all
  · exact hP.count
  · exact hP.file

theorem normRel_normRel (rel : Nat) : h.normRel (h.normRel rel) = h.normRel rel := by
  by_cases hr : rel = 0 <;> simp [normRel, hr]

variable {payload : WalPayload}

theorem logCell_some {w w' : WalCoordinator} (hl : lsn ≠ 0)
    (hc : logCell w tx lsn (some payload) = .ok (m, w')) : m = w'.reservedLsn ∧
    w.reservedLsn + 1 ≤ w'.reservedLsn := by
  simp only [logCell, if_pos hl, bind_eq_ok, pure_eq_ok, Prod.mk.injEq, Prod.exists] at hc
  obtain ⟨a, w1, ha, rfl, rfl⟩ := hc
  obtain ⟨h1, h2, rfl⟩ := WalCoordinator.append_ok ha
  refine ⟨rfl, ?_⟩
  show w.reservedLsn + 1 ≤ a.endLsn
  unfold walHeaderLen at h2
  omega

theorem LiveHeap.appendTuple {t : TupleVersion} {ptr : TuplePtr}
    (ha : h.appendTuple tx row t lsn (some payload) = .ok (ptr, h')) (hw : HeapWf h)
    (hP : PagesOk h n)
    (hH : HeadsOk h) (hlsn : lsn ≠ 0) (hn : n ≤ h.wal.reservedLsn + 1) (hrel : t.relId = rel)
    (hrow : t.rowId = row)
    (hnorm : h.normRel rel = rel) :
    LiveHeap ((h'.setHead row ptr).setRelationHead rel row ptr) := by
  have hg := appendTuple_grows hw ha
  obtain ⟨-, -, -, h1, hput, hst, rfl⟩ := appendTuple_put hw.toLaneWf ha
  subst hrel hrow
  obtain ⟨m, hm, -⟩ := hst.log
  obtain ⟨hm1, hm2⟩ := logCell_some hlsn hm
  refine ⟨hg.setHeads.wf, ?_, hput.headsOk_tuple hw hH hnorm⟩
  refine (hput.pagesOk hw hst (hP.mono (m := h1.wal.reservedLsn) (by omega)) ?_).of_store rfl
  intro m' w' hm'
  rw [hm] at hm'
  cases hm'
  exact hm1.le

section
variable (hL : LiveHeap h)
include hL

theorem LiveHeap.insertForRelation {payload : Bytes} (hlsn : lsn ≠ 0)
    (hi : h.insertForRelation tx rel row payload lsn = .ok h') : LiveHeap h' := by
  simp only [PageBackedHeap.insertForRelation, insertRecoveredAt, if_pos hlsn, bind_eq_ok,
    pure_eq_ok,
    Prod.exists] at hi
  obtain ⟨ptr, h2, ha, rfl⟩ := hi
  have hw := hL.wf
  exact LiveHeap.appendTuple (n := h.wal.reservedLsn) ha
    { hw with } (hL.pages.of_store rfl)
    ⟨hL.heads.norm, hL.heads.last, hL.heads.head⟩ hlsn (Nat.le_succ _) rfl rfl (normRel_normRel rel)

variable {next current : TupleVersion}

theorem LiveHeap.appendVersion {kind : UndoKind}
    (ha : h.appendVersion kind tx rel row next current 1 (some payload) = .ok h')
    (hrel : next.relId = rel) (hrow : next.rowId = row) (hnorm : h.normRel rel = rel) :
    LiveHeap h' := by
  simp only [PageBackedHeap.appendVersion, bind_eq_ok, pure_eq_ok, Prod.exists] at ha
  obtain ⟨undoPtr, h2, hundo, ptr, h3, htup, rfl⟩ := ha
  have hg1 := appendUndo_grows hL.wf rfl hundo
  obtain ⟨-, -, -, h1, pid, slot, gen, hput, hst, rfl⟩ := appendUndo_put hL.wf.toLaneWf rfl hundo
  have hwal : h1.wal = h.wal := by
    obtain ⟨m, hm, -⟩ := hst.log
    simp only [logCell, Except.ok.injEq, Prod.mk.injEq] at hm
    exact hm.2.symm
  have hP1 : PagesOk h1 (h.wal.reservedLsn + 1) := by
    refine hput.pagesOk hL.wf hst (hL.pages.mono (Nat.le_succ _)) ?_
    intro m w hm
    simp only [logCell, Except.ok.injEq, Prod.mk.injEq] at hm
    omega
  have hH1 := hput.headsOk_undo hL.wf hL.heads
  refine LiveHeap.appendTuple (n := h.wal.reservedLsn + 1) htup hg1.wf (hP1.of_store rfl)
    ⟨hH1.norm, hH1.last, hH1.head⟩ (by decide) ?_ hrel hrow ?_
  · show h.wal.reservedLsn + 1 ≤ h1.wal.reservedLsn + 1
    rw [hwal]
  · show h1.normRel rel = rel
    rw [hput.frame]
    exact hnorm

theorem LiveHeap.updateForRelation {payload : Bytes}
    (hu : h.updateForRelation tx snapshot txs rel row payload 1 = .ok h') :
    LiveHeap h' := by
  simp only [PageBackedHeap.updateForRelation, appendUpdateVersion, bind_eq_ok,
    if_pos Nat.one_ne_zero] at hu
  obtain ⟨_, -, _, -, ha⟩ := hu
  exact hL.appendVersion ha rfl rfl (normRel_normRel rel)

theorem LiveHeap.deleteForRelation (hd : h.deleteForRelation tx snapshot txs rel row 1 = .ok h') :
    LiveHeap h' := by
  simp only [PageBackedHeap.deleteForRelation, appendDeleteVersion, bind_eq_ok] at hd
  obtain ⟨_, -, ha⟩ := hd
  exact hL.appendVersion ha rfl rfl (normRel_normRel rel)

theorem LiveHeap.setWal {wal : WalCoordinator} (hle : h.wal.reservedLsn ≤ wal.reservedLsn) :
    LiveHeap { h with wal } := by
  have hw := hL.wf
  exact ⟨{ hw with },
    (hL.pages.mono hle).of_store rfl, hL.heads.norm, hL.heads.last, hL.heads.head⟩

end

/-! ### The log records of the write calls -/

theorem logCell_append {w w' : WalCoordinator}
    (hc : logCell w tx 1 (some payload) = .ok (m, w')) : ∃ a, w.append .pageDelta tx payload =
    .ok (a, w') := by
  simp only [logCell, if_pos Nat.one_ne_zero, bind_eq_ok, pure_eq_ok, Prod.mk.injEq,
    Prod.exists] at hc
  obtain ⟨a, w1, ha, -, rfl⟩ := hc
  exact ⟨a, ha⟩

theorem insertForRelation_wal {payload : Bytes} (hw : HeapWf h)
    (hi : h.insertForRelation tx rel row payload 1 = .ok h') :
    ∃ a, h.wal.append .pageDelta tx (.heapInsert tx (h.normRel rel) row payload) =
      .ok (a, h'.wal) := by
  simp only [PageBackedHeap.insertForRelation, insertRecoveredAt, if_pos Nat.one_ne_zero,
    bind_eq_ok,
    pure_eq_ok, Prod.exists] at hi
  obtain ⟨ptr, h2, ha, rfl⟩ := hi
  have hw0 : HeapWf { h with nextRow := advanceRowPast (advanceRowPast h.nextRow row) row } :=
    { hw with }
  obtain ⟨-, -, -, h1, -, hst, rfl⟩ := appendTuple_put hw0.toLaneWf ha
  obtain ⟨m, hm, -⟩ := hst.log
  exact logCell_append hm

theorem appendVersion_wal {kind : UndoKind}
    (hw : HeapWf h) (ha : h.appendVersion kind tx rel row next current 1 (some payload) = .ok h') :
    ∃ a, h.wal.append .pageDelta tx payload = .ok (a, h'.wal) := by
  simp only [PageBackedHeap.appendVersion, bind_eq_ok, pure_eq_ok, Prod.exists] at ha
  obtain ⟨undoPtr, h2, hundo, ptr, h3, htup, rfl⟩ := ha
  obtain ⟨hw1, -, -, h1, pid, slot, gen, -, hst1, rfl⟩ := appendUndo_put hw.toLaneWf rfl hundo
  obtain ⟨-, -, -, h4, -, hst2, rfl⟩ := appendTuple_put hw1.1 htup
  have hwal : h1.wal = h.wal := by
    obtain ⟨m, hm, -⟩ := hst1.log
    simp only [logCell, Except.ok.injEq, Prod.mk.injEq] at hm
    exact hm.2.symm
  obtain ⟨m, hm, -⟩ := hst2.log
  change logCell h1.wal _ _ _ = _ at hm
  rw [hwal] at hm
  exact logCell_append hm

theorem updateForRelation_wal {payload : Bytes}
    (hw : HeapWf h) (hu : h.updateForRelation tx snapshot txs rel row payload 1 = .ok h') :
    ∃ a, h.wal.append .pageDelta tx (.heapUpdate tx (h.normRel rel) row payload) =
      .ok (a, h'.wal) := by
  simp only [PageBackedHeap.updateForRelation, appendUpdateVersion, bind_eq_ok,
    if_pos Nat.one_ne_zero] at hu
  obtain ⟨_, -, _, -, ha⟩ := hu
  exact appendVersion_wal hw ha

theorem deleteForRelation_wal (hw : HeapWf h)
    (hd : h.deleteForRelation tx snapshot txs rel row 1 = .ok h') :
    ∃ a, h.wal.append .pageDelta tx (.heapDelete tx (h.normRel rel) row) = .ok (a, h'.wal) := by
  simp only [PageBackedHeap.deleteForRelation, appendDeleteVersion, bind_eq_ok] at hd
  obtain ⟨_, -, ha⟩ := hd
  exact appendVersion_wal hw ha

end RedlineDb.PageBackedHeap
