import RedlineDb.DirectoryLoad
import RedlineDb.EngineLog
import RedlineDb.Frontier
import RedlineDb.Flush
import RedlineDb.TxRecovery

/-!
# Reading after a checkpoint and a reopening

A checkpoint writes back every dirty page and the table of committed transactions; a reopening reads
the table, finds nothing to replay and rebuilds the row directory. The scan takes the pages from the
lowest on and keeps the first version it meets, so the directory comes out as it was when each row's
newest version lies on the lowest page that holds a version of the row; later pages only hold newer
ones otherwise.
-/

namespace RedlineDb
open Lib PageBackedHeap ConcurrentTxStatus

/-! ### Reading the same pages -/

namespace PageBackedHeap
variable {h h' : PageBackedHeap} {txs txs' : ConcurrentTxStatus} {snap snap' : Snapshot}

theorem getForRelation_congr {rel row : Nat}
    (hd : h'.headForRelation rel row = h.headForRelation rel row)
    (hf : ∀ q, h'.store.fetch q = h.store.fetch q)
    (hv : ∀ x, txs'.isTxVisible x snap' none = txs.isTxVisible x snap none) :
    h'.getForRelation txs' snap' none rel row = h.getForRelation txs snap none rel row := by
  have hvis : ∀ t : TupleVersion, t.visibility txs' snap' none = t.visibility txs snap none := by
    intro t
    simp only [TupleVersion.visibility, hv]
  have htup : ∀ ptr, h'.readTuple ptr = h.readTuple ptr := by
    intro ptr
    simp only [readTuple, hf]
  have hundo : ∀ ptr, h'.readUndo ptr = h.readUndo ptr := by
    intro ptr
    simp only [readUndo, hf]
  have hwalk : ∀ fuel cursor, h'.walkUndo txs' snap' none fuel cursor =
      h.walkUndo txs snap none fuel cursor := by
    intro fuel
    induction fuel with
    | zero => intro cursor; rfl
    | succ fuel ih =>
      intro cursor
      simp only [walkUndo, hundo, hvis, ih]
  simp only [getForRelation, getFromUndo, hd, htup, hvis, hwalk]

end PageBackedHeap

namespace Engine
variable {e : Engine} {x : Nat}

def Quiet (e : Engine) : Prop := ∀ t ∈ e.txns.entries, t.2.phase = .closed

instance (e : Engine) : Decidable e.Quiet := inferInstanceAs (Decidable (∀ _ ∈ _, _))

theorem Quiet.closed (hq : e.Quiet) {t : Txn} (ht : e.txns.lookup x = some t) : t.phase = .closed :=
  hq ⟨x, t⟩ (AList.mem_lookup_iff.1 ht)

theorem Quiet.not_committing (hq : e.Quiet) (c : Nat) : ¬ e.Committing x c := by
  rintro ⟨t, l, ht, hp⟩
  rw [hq.closed ht] at hp
  cases hp

/-- With no transaction open the frontier has caught up. -/
theorem Quiet.published_eq (hq : e.Quiet) (hc : CsnInv e) :
    e.txs.publishedCsn + 1 = e.txs.nextCsn := by
  refine hc.frontier.published_eq (List.eq_nil_iff_forall_not_mem.2 ?_)
  intro c hm
  obtain ⟨y, hy⟩ := (hc.pending c).1 hm
  exact hq.not_committing c hy

/-- A new snapshot then sees all that committed. -/
theorem Quiet.isTxVisible (hq : e.Quiet) (hc : CsnInv e) :
    e.txs.isTxVisible x e.txs.snapshot none = true ↔ ∃ c, e.txs.state x = .committed c := by
  have hpub := hq.published_eq hc
  rw [isTxVisible_none]
  refine exists_congr fun c => ?_
  refine ⟨fun h => h.1, fun h => ⟨h, ?_⟩⟩
  have := hc.lt x c (.inl h)
  show c ≤ e.txs.publishedCsn
  omega

end Engine

/-! ### The database along a run -/

namespace Database
variable {cfg : Config} {db db' : Database}

structure DbInv (cfg : Config) (db : Database) : Prop where
  tx : db.engine.TxInv
  csn : db.engine.CsnInv
  live : db.engine.heap.LiveHeap
  relId : db.engine.heap.relId = cfg.relId
  lsn : ∀ r ∈ db.engine.heap.wal.records, r.lsn < db.engine.heap.wal.reservedLsn
  /-- A commit record is that of a transaction with its CSN; a failed commit leaves one behind, and
  no checkpoint after it. -/
  commits : db.engine.heap.wal.failure = false → ∀ r ∈ db.engine.heap.wal.records, ∀ x c,
    r.commit? = some (x, c) → db.engine.HasCsn x c

theorem dbInv_create (cfg : Config) : DbInv cfg (create cfg) :=
  ⟨Engine.txInv_create _ _ _ _ _, Engine.csnInv_create _ _ _ _ _,
    Engine.liveHeap_create _ _ _ _ _, rfl,
    by simp [create, Engine.create, PageBackedHeap.new, WalCoordinator.create],
    by simp [create, Engine.create, PageBackedHeap.new, WalCoordinator.create]⟩

theorem commit_of_recordOf {e e' : Engine} {op : Op} {r : WalRecord} {x c : Nat}
    (hs : e.step op = .ok e')
    (hr : e.RecordOf op r) (hc : r.commit? = some (x, c)) : e'.HasCsn x c := by
  unfold WalRecord.commit? at hc
  split at hc
  case h_2 => cases hc
  case h_1 tx csn hkind hpay =>
    cases hc
    cases op with
    | appendCommit tx =>
      obtain ⟨-, -, h2⟩ := hr
      rw [hpay] at h2
      cases h2
      obtain ⟨t, a, wal, -, -, -, rfl⟩ := Engine.appendCommit_ok hs
      refine .inr ⟨{ t with phase := .committing e.txs.nextCsn a.endLsn }, a.endLsn, ?_, rfl⟩
      rw [Engine.setTxn_lookup, if_pos rfl]
    | insertForRelation => obtain ⟨-, -, h2⟩ := hr; rw [hpay] at h2; cases h2
    | updateForRelation => obtain ⟨-, -, h2⟩ := hr; rw [hpay] at h2; cases h2
    | deleteForRelation => obtain ⟨-, -, h2⟩ := hr; rw [hpay] at h2; cases h2
    | begin => cases hr
    | getForRelation => cases hr
    | lockRowForRelation => cases hr
    | finishCommit => cases hr
    | failCommit => cases hr
    | rollback => cases hr

theorem DbInv.call {op : Op} {e' : Engine} (hI : DbInv cfg db) (hs : db.engine.step op = .ok e') :
    DbInv cfg { db with engine := e' } := by
  obtain ⟨rs, hlog, hrec, -⟩ := Engine.step_logged hI.live.wf hs
  have hlive := Engine.step_liveHeap hI.live hs
  refine ⟨(Engine.step_tx hI.tx hs).1, (Engine.step_csn hI.tx hI.csn hs).inv, hlive, ?_, ?_, ?_⟩
  · exact (Engine.step_heap hI.live.wf hs).1.relId.trans hI.relId
  · intro r hr
    rw [hlog.records] at hr
    rcases List.mem_append.1 hr with hr | hr
    · exact (hI.lsn r hr).trans_le hlog.reserved
    · refine lt_of_lt_of_le ?_ (hlog.lsn r hr).2
      show r.lsn < r.lsn + (walHeaderLen + r.payload.encodedLen)
      unfold walHeaderLen
      omega
  · intro hfail r hr x c hc
    rw [hlog.records] at hr
    rcases List.mem_append.1 hr with hr | hr
    · have hfail0 : db.engine.heap.wal.failure = false := by
        by_contra h
        have hfail' : e'.heap.wal.failure = true := hlog.failed (by simpa using h)
        rw [hfail'] at hfail
        cases hfail
      rcases Engine.step_hasCsn hI.tx hs (hI.commits hfail0 r hr x c hc) with h | ⟨h, -⟩
      · exact h
      · rw [h] at hfail
        cases hfail
    · exact commit_of_recordOf hs (hrec r hr) hc

theorem checkpoint_ok (hc : db.checkpoint = .ok db') :
    db.engine.heap.wal.failure = false ∧ ∃ d wal, db.engine.heap.wal.reservedLsn ≤ d ∧
      Logged db.engine.heap.wal [] wal ∧ wal.reservedLsn = db.engine.heap.wal.reservedLsn ∧ db' = {
        engine := { db.engine with
          heap := { db.engine.heap with
            store := db.engine.heap.store.flushDirtyBatches d defaultCheckpointBatchPages
            wal := wal.pruneSegmentsBelowCheckpointLsn d } }
        control := some ⟨db.nextGeneration, d,
          (db.engine.heap.store.flushDirtyBatches d defaultCheckpointBatchPages).pageCount⟩
        txStatus := fun g =>
          if g = db.nextGeneration then some (db.engine.txs.txStatusCheckpoint db.nextGeneration)
            else db.txStatus g } := by
  simp only [checkpoint, WalCoordinator.flushAll, bind_eq_ok, pure_eq_ok, Prod.exists] at hc
  obtain ⟨d, wal, hf, rfl⟩ := hc
  obtain ⟨hlog, hres, hfail, hd⟩ := Logged.of_flushUntil hf
  exact ⟨hfail, d, wal, by rw [hd]; exact le_max_right _ _, hlog, hres, rfl⟩

theorem mem_records_checkpoint {wal : WalCoordinator} {w : WalCoordinator} {d : Nat} {r : WalRecord}
    (hlog : Logged w [] wal) (hr : r ∈ (wal.pruneSegmentsBelowCheckpointLsn d).records) :
    r ∈ w.records := by
  have hr' := (List.mem_filter.1 hr).1
  rw [hlog.records, List.append_nil] at hr'
  exact hr'

theorem DbInv.checkpoint (hI : DbInv cfg db) (hc : db.checkpoint = .ok db') : DbInv cfg db' := by
  obtain ⟨hfail, d, wal, hd, hlog, hres, rfl⟩ := checkpoint_ok hc
  obtain ⟨qs, hF, -⟩ :=
    Store.flushDirtyBatches_flushed hI.live.frameIds d defaultCheckpointBatchPages
  generalize db.engine.heap.store.flushDirtyBatches d defaultCheckpointBatchPages = s at hF
  have hlive := hI.live.flushed hF
  refine ⟨?_, ?_, hlive.setWal hres.symm.le, hI.relId, ?_, ?_⟩
  · exact hI.tx.setHeap _
  · exact { hI.csn with }
  · intro r hr
    exact (hI.lsn r (mem_records_checkpoint hlog hr)).trans_le hres.symm.le
  · intro _ r hr x c hrc
    exact hI.commits hfail r (mem_records_checkpoint hlog hr) x c hrc

theorem DbInv.step {op : DbOp} (hI : DbInv cfg db) (hs : db.step op = .ok db') : DbInv cfg db' := by
  cases op with
  | call op =>
    simp only [Database.step, bind_eq_ok, pure_eq_ok] at hs
    obtain ⟨e', hs, rfl⟩ := hs
    exact hI.call hs
  | checkpoint => exact hI.checkpoint hs

theorem DbInv.of_run {ops : List DbOp} {P : Database → DbOp → Prop}
    (hr : Run Database.step P (create cfg) ops db) :
    DbInv cfg db :=
  hr.invariant (I := fun _ db => DbInv cfg db) (dbInv_create cfg) fun _ _ _ _ hI _ hs => hI.step hs

end Database

theorem recoverHeap_below {committed : Nat → Bool} {lsn : Nat} {rs : List WalRecord}
    {h : PageBackedHeap}
    (hl : ∀ r ∈ rs, r.lsn < lsn) : recoverHeap committed lsn rs h = .ok h := by
  induction rs with
  | nil => rfl
  | cons r rs ih =>
    show (recoverHeapRecord committed lsn h r >>= _) = _
    rw [recoverHeapRecord, if_pos (hl r (by simp))]
    exact ih fun r' hr' => hl r' (by simp [hr'])

namespace Engine

def readFresh (e : Engine) (rel row : Nat) : Except Error (Option Bytes) :=
  e.heap.getForRelation e.txs e.txs.snapshot none rel row

theorem Quiet.isTxVisible_recovered {e : Engine} {x : Nat} (hq : e.Quiet) (hc : CsnInv e)
    (records : List WalRecord)
    (hrec : ∀ r ∈ records, ∀ c, r.commit? = some (x, c) → e.HasCsn x c) (generation : Nat) :
    let txs := recoverCommits records (.restore (e.txs.txStatusCheckpoint generation))
    txs.isTxVisible x txs.snapshot none = e.txs.isTxVisible x e.txs.snapshot none := by
  intro txs
  have hstate : txs.state x = (restore (e.txs.txStatusCheckpoint generation)).state x := by
    refine state_recoverCommits ?_
    intro r hr c hrc
    rcases hrec r hr c hrc with h | h
    · rw [state_restore, h]
    · exact absurd h (hq.not_committing c)
  have hpub : e.txs.publishedCsn ≤ txs.publishedCsn :=
    (publishedCsn_le_restore generation).trans publishedCsn_le_recovered
  rw [Bool.eq_iff_iff, hq.isTxVisible hc, isTxVisible_none, hstate, state_restore]
  constructor
  · rintro ⟨c, h, -⟩
    cases hst : e.txs.state x with
    | committed c' => exact ⟨c', rfl⟩
    | inProgress => rw [hst] at h; cases h
    | aborted => rw [hst] at h; cases h
  · rintro ⟨c, h⟩
    obtain ⟨c', h', hle⟩ := isTxVisible_none.1 ((hq.isTxVisible hc).2 ⟨c, h⟩)
    rw [h] at h' ⊢
    cases h'
    exact ⟨c, rfl, hle.trans hpub⟩

/-- A chain entered at the version a page scan meets first, on the lowest page with a version of the
row, reads as the one entered at the row's head. -/
def FirstVersionsRead (e : Engine) : Prop :=
  ∀ k ∈ e.heap.relationRowDir.keys,
    (e.heap.firstVersion k.1 k.2).map (fun ptr =>
      { e with heap := e.heap.setRelationHead k.1 k.2 ptr }.readFresh k.1 k.2) =
        some (e.readFresh k.1 k.2)

instance (e : Engine) : Decidable e.FirstVersionsRead := inferInstanceAs (Decidable (∀ _ ∈ _, _))

end Engine

namespace Database
variable {cfg : Config} {db db' : Database}

theorem loadDirectories_ok (d : Disk) {h : PageBackedHeap} (h0 : PageBackedHeap) (hL : h.LiveHeap)
    (hctl : d.control.isSome)
    (hrel : h0.relId = h.relId) (hfetch : ∀ q, h0.store.fetch q = h.store.fetch q)
    (hcount : h0.store.pageCount + 1 = h.store.nextPageId)
    (hno : ∀ rel row, h0.headForRelation rel row = none) :
    ∃ h', d.loadDirectories h0 = .ok h' ∧ (∀ q, h'.store.fetch q = h.store.fetch q) ∧
      ∀ rel row, h'.headForRelation rel row = h.firstVersion rel row := by
  have hload : ∀ pid ∈ scanPages h0.store.pageCount, h0.Loadable pid := by
    intro pid hpid
    rw [scanPages, List.mem_range'_1] at hpid
    obtain ⟨p, hp, hr, ha, ht, hu⟩ := hL.loadable hpid.1 (by omega)
    refine ⟨p, (hfetch pid).trans hp, hr.trans hrel.symm, ha, ?_, hu⟩
    intro hk k hlt
    obtain ⟨t, hc, hn⟩ := ht hk k hlt
    exact ⟨t, hc, by unfold normRel at hn ⊢; rw [hrel]; exact hn⟩
  obtain ⟨h', hl, hs, hd⟩ := loadPages_ok hload
  refine ⟨h', ?_, ?_, ?_⟩
  · unfold Disk.loadDirectories
    rw [if_pos hctl]
    show (loadPages _ h0 >>= _) = _
    rw [hl]
    exact loadReusable_ok fun pid hpid => (hload pid hpid).of_same hs
  · intro q
    rw [hs.store, hfetch]
  · intro rel row
    rw [hd, hno, Option.none_or, firstVersion, ← hcount, Nat.add_sub_cancel]
    congr 1
    funext pid
    unfold versionOn
    rw [hfetch]

/-- A reopening after a checkpoint succeeds; every row reads as before it through the version a page
scan meets first. -/
theorem DbInv.reopen (hI : DbInv cfg db) (hq : db.engine.Quiet) (hc : db.checkpoint = .ok db') :
    ∃ db2, db'.disk.openWithRecovery cfg = .ok db2 ∧ ∀ rel row, db2.engine.readFresh rel row =
      match db.engine.heap.firstVersion rel row with
      | none => .ok none
      | some ptr => { db.engine with heap := db.engine.heap.setRelationHead rel row ptr }.readFresh
          rel row := by
  obtain ⟨hfail, d, wal, hd, hlog, hres, rfl⟩ := checkpoint_ok hc
  have hrecs : ∀ r ∈ (wal.pruneSegmentsBelowCheckpointLsn d).records,
      r ∈ db.engine.heap.wal.records :=
    fun r hr => mem_records_checkpoint hlog hr
  have hfile := hI.live.fetch_openFile hd cfg.pageSize (b := defaultCheckpointBatchPages)
  have hcount := hI.live.pageCount_flushed hd (b := defaultCheckpointBatchPages)
  generalize db.engine.heap.store.flushDirtyBatches d defaultCheckpointBatchPages =
    s at hfile hcount ⊢
  generalize wal.pruneSegmentsBelowCheckpointLsn d = pruned at hrecs ⊢
  generalize hdisk : disk _ = disk'
  have hctl : disk'.control.isSome := by rw [← hdisk]; rfl
  obtain ⟨h', hload, hfetch, hdir⟩ :=
    loadDirectories_ok disk' (disk'.openHeap cfg) hI.live hctl hI.relId.symm
    (by rw [← hdisk]; exact hfile) (by rw [← hdisk]; exact hcount) (fun _ _ => rfl)
  have hbase : disk'.baseStatus =
      .ok (.restore (db.engine.txs.txStatusCheckpoint db.nextGeneration), d) := by
    rw [← hdisk]
    simp [disk, Disk.baseStatus, txStatusCheckpoint]
  have hvis : ∀ x, _ = _ := fun x => hq.isTxVisible_recovered (x := x) hI.csn disk'.records
    (by rw [← hdisk]; exact fun r hr => hI.commits hfail r (hrecs r hr) x) db.nextGeneration
  have hreplay : recoverHeap (committedIn disk'.records) d disk'.records (disk'.openHeap cfg) =
      .ok (disk'.openHeap cfg) := by
    refine recoverHeap_below ?_
    rw [← hdisk]
    exact fun r hr => (hI.lsn r (hrecs r hr)).trans_le hd
  obtain ⟨db2, hopen, hheap, htxs⟩ : ∃ db2, disk'.openWithRecovery cfg = .ok db2 ∧
      db2.engine.heap = h' ∧
      db2.engine.txs = recoverCommits disk'.records
        (.restore (db.engine.txs.txStatusCheckpoint db.nextGeneration)) := by
    refine ⟨{ engine := ⟨h', _, ∅, ∅⟩, control := disk'.control, txStatus := disk'.txStatus }, ?_,
      rfl, rfl⟩
    simp only [Disk.openWithRecovery, bind_eq_ok, pure_eq_ok]
    exact ⟨_, hbase, _, hreplay, h', hload, rfl⟩
  refine ⟨db2, hopen, ?_⟩
  intro rel row
  unfold Engine.readFresh
  rw [hheap, htxs]
  cases hfirst : db.engine.heap.firstVersion rel row with
  | none =>
    unfold getForRelation
    rw [hdir, hfirst]
  | some ptr =>
    refine getForRelation_congr ?_ hfetch hvis
    rw [hdir, hfirst, headForRelation_setRelationHead, if_pos rfl]

theorem DbInv.firstVersion_isSome (hI : DbInv cfg db) (rel row : Nat) :
    (rel, row) ∈ db.engine.heap.relationRowDir.keys ↔
    (db.engine.heap.firstVersion rel row).isSome := by
  rw [hI.live.firstVersion_isSome, ← AList.mem_keys]
  exact AList.lookup_isSome.symm

theorem DbInv.reopen_reads (hI : DbInv cfg db) (hq : db.engine.Quiet)
    (hF : db.engine.FirstVersionsRead)
    (hc : db.checkpoint = .ok db') : ∃ db2, db'.disk.openWithRecovery cfg = .ok db2 ∧
      ∀ rel row, db2.engine.readFresh rel row = db.engine.readFresh rel row := by
  obtain ⟨db2, hopen, hread⟩ := hI.reopen hq hc
  refine ⟨db2, hopen, ?_⟩
  intro rel row
  rw [hread]
  cases hfirst : db.engine.heap.firstVersion rel row with
  | none =>
    have hnone : (db.engine.heap.firstVersion rel row).isSome = _ := hI.live.firstVersion_isSome
    rw [hfirst, Option.isSome_none, eq_comm, Option.isSome_eq_false_iff,
      Option.isNone_iff_eq_none] at hnone
    unfold Engine.readFresh getForRelation
    rw [hnone]
  | some ptr =>
    have h1 := hF (rel, row) ((hI.firstVersion_isSome rel row).2 (by rw [hfirst]; rfl))
    rw [hfirst] at h1
    exact Option.some.inj h1

/-- After any run, with no transaction open, a checkpoint and a reopening keep what a new snapshot
reads of every row exactly when every row reads the same through the version a page scan meets
first. -/
theorem reopened_reads_iff {ops : List DbOp}
    (hr : Run Database.step (fun _ _ => True) (create cfg) ops db)
    (hq : db.engine.Quiet) (hc : db.checkpoint = .ok db') :
    (∃ db2, db'.disk.openWithRecovery cfg = .ok db2 ∧
      ∀ rel row, db2.engine.readFresh rel row = db.engine.readFresh rel row) ↔
        db.engine.FirstVersionsRead := by
  have hI := DbInv.of_run hr
  refine ⟨?_, fun hF => hI.reopen_reads hq hF hc⟩
  rintro ⟨db2', hopen', hsame⟩ ⟨rel, row⟩ hk
  obtain ⟨db2, hopen, hread⟩ := hI.reopen hq hc
  rw [hopen] at hopen'
  cases hopen'
  obtain ⟨ptr, hptr⟩ := Option.isSome_iff_exists.1 ((hI.firstVersion_isSome rel row).1 hk)
  have h1 := hread rel row
  rw [hsame, hptr] at h1
  rw [hptr, h1]
  rfl

def small (pageSize : PageSize) : Config := ⟨1, 1, pageSize, 4096, 4096⟩

def traceUpdated : List DbOp :=
  [.call (.begin .snapshot), .call (.insertForRelation 1 1 1 [1]),
    .call (.insertForRelation 1 7 2 [5]),
   .call (.appendCommit 1), .call (.finishCommit 1), .checkpoint, .call (.begin .snapshot),
   .call (.updateForRelation 2 1 1 [2]), .call (.deleteForRelation 2 7 2), .call (.appendCommit 2),
   .call (.finishCommit 2)]

def keepsReads (db : Database) : Bool :=
  decide db.engine.Quiet && db.checkpoint.isOk && decide db.engine.FirstVersionsRead

theorem reopened_reads_iff_traceUpdated :
    ∃ db db' db2, Run Database.step (fun _ _ => True) (create (small ⟨512, by decide, by decide⟩))
      traceUpdated db ∧
      db.checkpoint = .ok db' ∧ db'.disk.openWithRecovery (small ⟨512, by decide, by decide⟩) =
        .ok db2 ∧
      ∀ rel row, db2.engine.readFresh rel row = db.engine.readFresh rel row := by
  obtain ⟨db, hrun, hq⟩ :
      ∃ db, Run Database.step (fun _ _ => True) (create (small ⟨512, by decide, by decide⟩))
      traceUpdated db ∧ keepsReads db = true := by decide
  simp only [keepsReads, Bool.and_eq_true, decide_eq_true_eq] at hq
  obtain ⟨⟨hquiet, hok⟩, hF⟩ := hq
  cases hc : db.checkpoint with
  | error e => rw [hc] at hok; cases hok
  | ok db' =>
    obtain ⟨db2, hopen, hread⟩ := (reopened_reads_iff hrun hquiet hc).2 hF
    exact ⟨db, db', db2, hrun, hc, hopen, hread⟩

def traceTwoPages : List DbOp :=
  [.call (.begin .snapshot), .call (.insertForRelation 1 1 1 [1]), .call (.appendCommit 1),
    .call (.finishCommit 1),
   .call (.begin .snapshot), .call (.updateForRelation 2 1 1 [2]), .call (.appendCommit 2),
     .call (.finishCommit 2)]

def losesUpdate (db : Database) : Bool :=
  decide db.engine.Quiet && db.checkpoint.isOk &&
    decide (db.engine.readFresh 1 1 = .ok (some [2])) &&
    decide ((db.engine.heap.firstVersion 1 1).map (fun ptr =>
      { db.engine with heap := db.engine.heap.setRelationHead 1 1 ptr }.readFresh 1 1) =
        some (.ok (some [1])))

/-- The update is committed and read before the checkpoint; after the reopening the row reads as
inserted. -/
theorem reopened_reads_old :
    ∃ db db' db2, Run Database.step (fun _ _ => True) (create (small ⟨190, by decide, by decide⟩))
      traceTwoPages db ∧
      db.engine.Quiet ∧ db.checkpoint = .ok db' ∧
      db'.disk.openWithRecovery (small ⟨190, by decide, by decide⟩) = .ok db2 ∧
      db.engine.readFresh 1 1 = .ok (some [2]) ∧ db2.engine.readFresh 1 1 = .ok (some [1]) := by
  obtain ⟨db, hrun, hq⟩ :
      ∃ db, Run Database.step (fun _ _ => True) (create (small ⟨190, by decide, by decide⟩))
      traceTwoPages db ∧ losesUpdate db = true := by decide
  simp only [losesUpdate, Bool.and_eq_true, decide_eq_true_eq, Option.map_eq_some_iff] at hq
  obtain ⟨⟨⟨hquiet, hok⟩, hnew⟩, ptr, hfirst, hold⟩ := hq
  cases hc : db.checkpoint with
  | error e => rw [hc] at hok; cases hok
  | ok db' =>
    obtain ⟨db2, hopen, hread⟩ := (DbInv.of_run hrun).reopen hquiet hc
    refine ⟨db, db', db2, hrun, hquiet, hc, hopen, hnew, ?_⟩
    rw [hread, hfirst]
    exact hold

end Database
end RedlineDb
