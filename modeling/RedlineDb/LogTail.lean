import RedlineDb.CommitCheckpoint
import RedlineDb.Redo

/-!
# The log since a checkpoint

`Sound` is what a running database keeps, step by step. `Since e0 calls tail e` follows the calls
since a state `e0` in which no transaction was open: their records can be replayed over the pages of
`e0`, provided that an update or delete meets no version of its row whose undo record does not fit a
page.
-/

namespace RedlineDb
open Lib List PageBackedHeap

/-! ### Calls leave the files alone -/

namespace PageBackedHeap
variable {h h' : PageBackedHeap} {lsn n rel row tx : Nat} {wp : Option WalPayload}
    {t next current : TupleVersion}

/-- The page size and the page file. -/
def onDisk (h : PageBackedHeap) : PageSize × (Nat → Option Page) × Nat :=
  (h.store.pageSize, h.store.file, h.store.pageCount)

theorem Put.onDisk {kind : PageKind} {c : Cell} {pid slot gen : Nat}
    (hP : Put h kind c pid slot gen h')
    (hst : Stored h tx lsn wp pid h') : h'.onDisk = h.onDisk := by
  unfold PageBackedHeap.onDisk
  rw [hP.size, hst.file.1, hst.file.2]

theorem Put.stamped {kind : PageKind} {c : Cell} {pid slot gen : Nat}
    (hP : Put h kind c pid slot gen h')
    (hst : h.Stamped n) (hc : ∀ x ∈ c.stamps, x < n) : h'.Stamped n := by
  intro q p hp c' hc' x hx
  obtain ⟨k, hk⟩ := getElem?_of_mem hc'
  rcases hP.cell_cases hp hk with ⟨p0, hp0, hk0, -⟩ | ⟨-, -, rfl⟩
  · exact hst q p0 hp0 c' (mem_of_getElem? hk0) x hx
  · exact hc x hx

theorem appendTuple_pages {ptr : TuplePtr} (hw : LaneWf h)
    (ha : h.appendTuple tx row t lsn wp = .ok (ptr, h')) :
    h'.onDisk = h.onDisk ∧ (h.Stamped n → t.beginTx < n → t.endTx < n → h'.Stamped n) ∧
      h.TupleFits t.payload := by
  obtain ⟨-, -, -, h1, hP, hst, rfl⟩ := appendTuple_put hw ha
  refine ⟨hP.onDisk hst, fun hs h1 h2 => hP.stamped hs (by simp [Cell.stamps, h1, h2]), ?_⟩
  simp only [appendTuple, appendCell, bind_eq_ok, ensureCellSize, require_eq_ok, Prod.exists] at ha
  obtain ⟨-, -, -, -, ⟨-, hsize, -⟩, -⟩ := ha
  exact hsize

theorem insertForRelation_pages {payload : Bytes} (hw : HeapWf h)
    (hi : h.insertForRelation tx rel row payload lsn = .ok h') :
    h'.onDisk = h.onDisk ∧ (h.Stamped n → tx < n → h'.Stamped n) ∧ h.TupleFits payload := by
  simp only [insertForRelation, insertRecoveredAt, bind_eq_ok, pure_eq_ok, Prod.exists] at hi
  obtain ⟨ptr, h2, ha, rfl⟩ := hi
  have hw0 : HeapWf { h with nextRow := advanceRowPast (advanceRowPast h.nextRow row) row } :=
    { hw with }
  obtain ⟨hdisk, hst, hfits⟩ := appendTuple_pages hw0.toLaneWf ha
  exact ⟨hdisk, fun hs htx => hst hs htx (Nat.zero_lt_of_lt htx), hfits⟩

theorem appendVersion_pages {kind : UndoKind} (hw : HeapWf h)
    (ha : h.appendVersion kind tx rel row next current lsn wp = .ok h') : h'.onDisk = h.onDisk ∧
      (h.Stamped n → next.beginTx < n → next.endTx < n → current.beginTx < n → tx < n →
        h'.Stamped n) ∧
      h.TupleFits next.payload := by
  simp only [appendVersion, bind_eq_ok, pure_eq_ok, Prod.exists] at ha
  obtain ⟨undoPtr, h2, hundo, ptr, h3, htup, rfl⟩ := ha
  have hw2 := (appendUndo_grows hw rfl hundo).wf
  obtain ⟨-, -, -, h1, pid, slot, gen, hP, hst, rfl⟩ := appendUndo_put hw.toLaneWf rfl hundo
  obtain ⟨hdisk, hst2, hfits⟩ := appendTuple_pages (n := n) hw2.toLaneWf htup
  refine ⟨hdisk.trans (hP.onDisk hst), fun hs h1 h2 h3 h4 => hst2 ?_ h1 h2, ?_⟩
  · exact hP.stamped hs (by simp [Cell.stamps, h3, h4])
  · unfold TupleFits at hfits ⊢
    rw [← hP.size]
    exact hfits

end PageBackedHeap

namespace Engine
variable {e e0 e' : Engine} {op : Op} {calls : List Op} {tail : List WalRecord} {tx rel row x : Nat}

theorem Replaced.pages {value : Option Bytes} (hi : TxInv e) (hw : HeapWf e.heap) (hch : ChainsOk e)
    (hs : e.Replaced tx rel row value e') : e'.heap.onDisk = e.heap.onDisk ∧
      (e.heap.Stamped e.txs.nextTx → e'.heap.Stamped e.txs.nextTx) ∧
      ∀ payload, value = some payload → e.heap.TupleFits payload := by
  obtain ⟨t, e1, current, heap, hlock, hcur, ⟨kind, next, lsn, wp, hrel, rfl, hend, hvalue, ha⟩,
      rfl⟩ := hs
  obtain ⟨t0, h0, -⟩ := (lockRowForRelation_touch hlock).snapshot
  obtain ⟨l, hchain, -, hbegun⟩ := hch (e.heap.normRel rel) row
  obtain ⟨a, b, rfl, -⟩ := visibleTupleForWrite_ok hchain hcur
  obtain ⟨hdisk, hst, hfits⟩ := appendVersion_pages (n := e.txs.nextTx) hw ha
  refine ⟨hdisk, fun hs => hst hs (hi.lt h0) ?_ (hbegun current (by simp)) (hi.lt h0), ?_⟩
  · rw [hend]
    exact hi.next
  · rintro payload rfl
    split at hvalue
    · cases hvalue
    · exact Option.some.inj hvalue ▸ hfits

theorem step_pages (hi : TxInv e) (hw : HeapWf e.heap) (hch : ChainsOk e)
    (hs : e.step op = .ok e') :
    e'.heap.onDisk = e.heap.onDisk ∧
      (e.heap.Stamped e.txs.nextTx → e'.heap.Stamped e'.txs.nextTx) := by
  have hle := (step_tx hi hs).2.next
  have hmono : (e.heap.Stamped e.txs.nextTx → e'.heap.Stamped e.txs.nextTx) →
      e.heap.Stamped e.txs.nextTx → e'.heap.Stamped e'.txs.nextTx :=
    fun h hs q p hp c hc x hx => (h hs q p hp c hc x hx).trans_le hle
  rcases step_heap_cases hs with ⟨-, wal, hwal⟩ | ⟨tx, rel, row, payload, rfl, hins⟩ |
    ⟨tx, rel, row, payload, _, _, rfl, -⟩ | ⟨tx, rel, row, _, _, rfl, -⟩
  · rw [hwal]
    exact ⟨rfl, fun h q p hp c hc x hx => (h q p hp c hc x hx).trans_le hle⟩
  · obtain ⟨t, e1, hT, -⟩ := insertForRelation_eq_ok hs
    obtain ⟨t0, h0, -⟩ := hT.snapshot
    obtain ⟨hdisk, hst, -⟩ := insertForRelation_pages hw hins
    exact ⟨hdisk, hmono fun h => hst h (hi.lt h0)⟩
  · obtain ⟨hdisk, hst, -⟩ := (Replaced.of_update hs).pages hi hw hch
    exact ⟨hdisk, hmono hst⟩
  · obtain ⟨hdisk, hst, -⟩ := (Replaced.of_delete hs).pages hi hw hch
    exact ⟨hdisk, hmono hst⟩

/-! ### The log, record by record -/

theorem RecordOf.op? {r : WalRecord} (hr : RecordOf e op r) : r.op? = op.logged e.heap.relId := by
  cases op <;> first | exact hr.elim |
    (obtain ⟨-, hk, hp⟩ := hr; unfold WalRecord.op?; rw [hk, hp]; rfl)

theorem RecordOf.commit? {r : WalRecord} (hr : RecordOf e op r) :
    r.commit? = if op = .appendCommit r.txId then some (r.txId, e.txs.nextCsn) else none := by
  cases op <;> first | exact hr.elim |
    (obtain ⟨ht, hk, hp⟩ := hr; unfold WalRecord.commit?; rw [hk, hp]; simp [ht])

/-- Only a commit takes a CSN. -/
theorem step_nextCsn (hs : e.step op = .ok e') :
    (∃ tx, op = .appendCommit tx ∧ e'.txs.nextCsn = e.txs.nextCsn + 1 ∧
      e'.Committing tx e.txs.nextCsn) ∨
      (∀ tx, op ≠ .appendCommit tx) ∧ e'.txs.nextCsn = e.txs.nextCsn := by
  cases stepped hs with
  | begin hb => exact .inr ⟨nofun, (begin_ok hb).2.2.2.2.2.1⟩
  | get hT | lock hT | insert hT | update hT | delete hT => exact .inr ⟨nofun, by rw [hT.txs]⟩
  | @appendCommit tx _ h =>
    obtain ⟨t, a, wal, ht, -, -, rfl⟩ := appendCommit_ok h
    exact .inl ⟨tx, rfl, rfl, _, a.endLsn, (setTxn_lookup ..).trans (if_pos rfl), rfl⟩
  | finishCommit h =>
    obtain ⟨t, csn, endLsn, d, wal, -, -, -, rfl⟩ := finishCommit_ok h
    exact .inr ⟨nofun, ConcurrentTxStatus.nextCsn_completeCsn _ _⟩
  | failCommit h =>
    obtain ⟨t, csn, endLsn, -, -, rfl⟩ := failCommit_ok h
    exact .inr ⟨nofun, ConcurrentTxStatus.nextCsn_skipCsn _ _⟩
  | rollback h =>
    obtain ⟨t, -, -, rfl⟩ := rollback_ok h
    exact .inr ⟨nofun, rfl⟩

theorem step_has {c : Nat} (hi : TxInv e) (hc : CsnInv e) (hs : e.step op = .ok e')
    (h : e'.HasCsn x c) :
    e.HasCsn x c ∨ op = .appendCommit x := by
  obtain ⟨hc', hhas⟩ := step_csn hi hc hs
  refine (hhas x c h).imp_right fun hle => ?_
  have hlt := hc'.lt x c h
  rcases step_nextCsn hs with ⟨tx, rfl, hn, htx⟩ | ⟨-, hn⟩
  · rw [hc'.unique x tx c h (.inr (by rwa [show c = e.txs.nextCsn by omega]))]
  · omega

/-- One step logs the record of its call, if the call has one, and its CSN is the next. -/
theorem step_tail (hw : HeapWf e.heap) (hs : e.step op = .ok e') :
    ∃ rs, Logged e.heap.wal rs e'.heap.wal ∧
    rs.map WalRecord.op? = (op.logged e.heap.relId).toList.map some ∧
      ∃ n, e'.txs.nextCsn = e.txs.nextCsn + n ∧
      (rs.filterMap WalRecord.commit?).map Prod.snd = range' e.txs.nextCsn n := by
  obtain ⟨rs, hlog, hrec, hlen⟩ := step_logged hw hs
  refine ⟨rs, hlog, ?_, ?_⟩
  · cases hop : op.logged e.heap.relId with
    | none =>
      rw [hop] at hlen
      rw [length_eq_zero_iff.1 hlen]
      rfl
    | some op' =>
      rw [hop] at hlen
      obtain ⟨r, rfl⟩ := length_eq_one_iff.1 hlen
      simp [(hrec r (by simp)).op?, hop]
  · rcases step_nextCsn hs with ⟨tx, rfl, hn, -⟩ | ⟨hno, hn⟩
    · refine ⟨1, hn, ?_⟩
      obtain ⟨r, rfl⟩ := length_eq_one_iff.1 hlen
      have hr := hrec r (by simp)
      simp [hr.commit?, hr.1]
    · refine ⟨0, hn, ?_⟩
      rw [filterMap_eq_nil_iff.2 fun r hr => (hrec r hr).commit?.trans (if_neg (hno _))]
      rfl

/-! ### What the calls of a step leave in the rows -/

/-- A version in a chain was there before the step or is the one that its call wrote. -/
theorem step_chain {l' : List TupleVersion} (hw : HeapWf e.heap) (hch : ChainsOk e)
    (hs : e.step op = .ok e') (hl' : RowChain e'.heap rel row l') {t : TupleVersion} (ht : t ∈ l') :
    (∃ v, op.write? e.heap.relId = some ((rel, row), v) ∧ v.tx = t.beginTx) ∨
      ∃ l, RowChain e.heap rel row l ∧ ∃ t0 ∈ l, t0.beginTx = t.beginTx := by
  obtain ⟨hg, hd⟩ := step_heap hw hs
  obtain ⟨l, hl, -⟩ := hch rel row
  by_cases hno : ∀ w, op.write? e.heap.relId = some w → w.1 ≠ (rel, row)
  · rw [← (hl.grows hg (hd (rel, row) hno)).det hl'] at ht
    exact .inr ⟨l, hl, t, ht, rfl⟩
  push Not at hno
  obtain ⟨⟨_, v⟩, hv, rfl⟩ := hno
  have hrep : ∀ {tx rel' value}, e.Replaced tx rel' row value e' → e.heap.normRel rel' = rel →
      v.tx = tx →
      (∃ v, op.write? e.heap.relId = some ((rel, row), v) ∧ v.tx = t.beginTx) ∨
        ∃ l, RowChain e.heap rel row l ∧ ∃ t0 ∈ l, t0.beginTx = t.beginTx := by
    rintro _ rel' value ⟨t1, e1, current, heap, -, hcur, hR, rfl⟩ rfl rfl
    obtain ⟨a, b, rfl, -⟩ := visibleTupleForWrite_ok hl hcur
    obtain ⟨next, undoPtr, hnext, -, -, hW⟩ := hR.wrote hw (hl.suffix rfl)
    rw [← hW.chain.det hl'] at ht
    rcases mem_cons.1 ht with rfl | ht
    · exact .inl ⟨v, hv, hnext.symm⟩
    · rcases mem_cons.1 ht with rfl | ht
      · exact .inr ⟨_, hl, current, by simp, rfl⟩
      · exact .inr ⟨_, hl, t, by simp [ht], rfl⟩
  cases op with
  | insertForRelation tx rel' row' payload =>
    cases hv
    obtain ⟨t1, e1, -, -, heap, hins, rfl⟩ := insertForRelation_eq_ok hs
    rw [← (insertForRelation_ok hw hins).chain.det hl'] at ht
    rw [mem_singleton.1 ht]
    exact .inl ⟨_, rfl, rfl⟩
  | updateForRelation => cases hv; exact hrep (.of_update hs) rfl rfl
  | deleteForRelation => cases hv; exact hrep (.of_delete hs) rfl rfl
  | _ => cases hv

/-- Who writes or commits is open. -/
theorem step_owner (hs : e.step op = .ok e')
    (hx : (∃ w, op.write? e.heap.relId = some w ∧ w.2.tx = x) ∨ op = .appendCommit x) :
    ∃ t, e.txns.lookup x = some t ∧ t.phase ≠ .closed := by
  have hopen : ∀ {tx t}, e.txns.lookup tx = some t → t.isOpen → ∃ t, e.txns.lookup tx = some t ∧
      t.phase ≠ .closed :=
    fun ht ho => ⟨_, ht, by rw [isOpen_iff.1 ho]; nofun⟩
  cases stepped hs with
  | insert hT | update hT | delete hT =>
    obtain ⟨t0, h0, ho, -⟩ := hT.snapshot
    rcases hx with ⟨w, hw, rfl⟩ | hx
    · cases hw
      exact hopen h0 ho
    · cases hx
  | appendCommit h =>
    obtain ⟨t, a, wal, ht, ho, -⟩ := appendCommit_ok h
    rcases hx with ⟨w, hw, -⟩ | hx
    · cases hw
    · cases hx
      exact hopen ht ho
  | _ => rcases hx with ⟨w, hw, -⟩ | hx <;> [cases hw; cases hx]

end Engine

/-! ### What a running database keeps -/

namespace Database
variable {cfg : Config} {db db' : Database}
open Engine

theorem sound_create (cfg : Config) : Sound cfg (create cfg) where
  toDbInv := dbInv_create cfg
  size := rfl
  chains := chainsOk_create _ _ _ _ _
  stamps q p hp := absurd hp fetch_create
  durable := le_rfl
  barrier x t c l ht := by cases ht
  ends r hr := by cases hr
  sorted := .nil

theorem Sound.call {op : Op} {e' : Engine} (hI : Sound cfg db) (hs : db.engine.step op = .ok e') :
    Sound cfg { db with engine := e' } := by
  obtain ⟨rs, hlog, -, hlen⟩ := step_logged hI.live.wf hs
  obtain ⟨rs', hC⟩ := step_commitStep hI.tx hI.live.wf hs
  obtain ⟨hdisk, hstamp⟩ := step_pages hI.tx hI.live.wf hI.chains hs
  have hbar : ∀ x c l, db.engine.CommittingAt x c l → l ≤ e'.heap.wal.reservedLsn :=
    fun x c l ⟨t, ht, hp⟩ => (hI.barrier x t c l ht hp).trans hlog.reserved
  refine ⟨hI.toDbInv.call hs, ?_, hI.chains.step hI.tx hI.live.wf hs, hstamp hI.stamps, ?_,
    ?_, ?_, ?_⟩
  · exact (congrArg Prod.fst hdisk).trans hI.size
  · exact hC.bounded _ (hI.durable.trans hlog.reserved) hbar le_rfl
  · intro x t c l ht hp
    rcases hC.committing x c l ⟨t, ht, hp⟩ with h | ⟨-, rfl, -⟩
    · exact hbar x c l h
    · exact le_rfl
  · intro r hr
    rw [hlog.records, mem_append] at hr
    exact hr.elim (fun hr => (hI.ends r hr).trans hlog.reserved) fun hr => (hlog.lsn r hr).2
  · have hone : rs.Pairwise fun r r' => r.endLsn ≤ r'.lsn := by
      have hle : rs.length ≤ 1 := hlen ▸ Option.length_toList_le
      rcases Nat.le_one_iff_eq_zero_or_eq_one.1 hle with h | h
      · rw [length_eq_zero_iff.1 h]
        exact .nil
      · obtain ⟨r, hr⟩ := length_eq_one_iff.1 h
        rw [hr]
        exact pairwise_singleton ..
    show e'.heap.wal.records.Pairwise _
    rw [hlog.records]
    exact pairwise_append.2
      ⟨hI.sorted, hone, fun r hr r' hr' => (hI.ends r hr).trans (hlog.lsn r' hr').1⟩

theorem Sound.checkpoint (hI : Sound cfg db) (hc : db.checkpoint = .ok db') : Sound cfg db' := by
  have hI' := hI.toDbInv.checkpoint hc
  simp only [Database.checkpoint, WalCoordinator.flushAll, bind_eq_ok, pure_eq_ok,
    Prod.exists] at hc
  obtain ⟨d, wal, hf, rfl⟩ := hc
  have hdur := durableLsn_flushUntil hf
  obtain ⟨hlog, hres, -, hd⟩ := Logged.of_flushUntil hf
  have hfetch := hI.live.fetch_flushed (d := d) (b := defaultCheckpointBatchPages)
      (by rw [hd]; exact le_max_right _ _)
  obtain ⟨qs, hF, -⟩ :=
    Store.flushDirtyBatches_flushed hI.live.frameIds d defaultCheckpointBatchPages
  generalize db.engine.heap.store.flushDirtyBatches d defaultCheckpointBatchPages =
    s at hF hfetch hI' ⊢
  have hrecs : (wal.pruneSegmentsBelowCheckpointLsn d).records.Sublist
      db.engine.heap.wal.records := by
    rw [← append_nil db.engine.heap.wal.records, ← hlog.records]
    exact filter_sublist
  refine ⟨hI', hF.size.trans hI.size, ?_, ?_, ?_, ?_, ?_, hI.sorted.sublist hrecs⟩
  · intro rel row
    obtain ⟨l, hl, hrest⟩ := hI.chains rel row
    have hg : Grows db.engine.heap
        { db.engine.heap with store := s, wal := wal.pruneSegmentsBelowCheckpointLsn d } := by
      refine ⟨hI'.live.wf, fun ptr t ht => ?_, fun ptr u hu => ?_, rfl⟩
      · rw [readTuple, hfetch]
        exact ht
      · rw [readUndo, hfetch]
        exact hu
    exact ⟨l, hl.grows hg rfl, hrest⟩
  · exact fun q p hp => hI.stamps q p ((hfetch q).symm.trans hp)
  · show wal.durableLsn ≤ wal.reservedLsn
    rw [hdur, hres]
    exact max_le hI.durable le_rfl
  · exact fun x t c l ht hp => (hI.barrier x t c l ht hp).trans hres.symm.le
  · exact fun r hr => (hI.ends r (hrecs.subset hr)).trans hres.symm.le

end Database

/-! ### Calls as the log has them -/

theorem Op.write?_logged (relId : Nat) (op : Op) :
    (op.logged relId).bind (Op.write? relId) = op.write? relId := by
  have hnorm : ∀ rel,
      (if (if rel = 0 then relId else rel) = 0 then relId else if rel = 0 then relId else rel) =
      if rel = 0 then relId else rel := by
    intro rel
    split_ifs <;> simp_all
  cases op <;> simp [Op.logged, Op.write?, hnorm]

theorem history_logged (relId : Nat) (key : Nat × Nat) (calls : List Op) :
    history relId key (calls.filterMap (Op.logged relId)) = history relId key calls := by
  unfold history
  rw [← filterMap_reverse, filterMap_filterMap]
  refine filterMap_congr fun op _ => ?_
  rw [← Op.write?_logged relId op]
  cases op.logged relId <;> rfl

theorem mem_history_snoc {relId : Nat} {key : Nat × Nat} {calls : List Op} {op : Op}
    {v : Version Nat Bytes} :
    v ∈ history relId key (calls ++ [op]) ↔ op.write? relId = some (key, v) ∨
      v ∈ history relId key calls := by
  rw [history_snoc, mem_append, Option.mem_toList, Option.bind_eq_some_iff]
  refine or_congr ⟨?_, fun h => ⟨_, h, if_pos rfl⟩⟩ Iff.rfl
  rintro ⟨⟨k, u⟩, hop, hv⟩
  split at hv
  · next hk =>
    cases hv
    exact hk ▸ hop
  · cases hv

theorem mem_logged {relId x : Nat} {calls : List Op} :
    .appendCommit x ∈ calls.filterMap (Op.logged relId) ↔ .appendCommit x ∈ calls := by
  have hop : ∀ op : Op, op.logged relId = some (.appendCommit x) ↔ op = .appendCommit x := by
    intro op
    cases op <;> simp [Op.logged]
  simp [hop]

theorem effects_logged (relId : Nat) (shown : Nat → Nat → Except Error (Option Bytes))
    (calls : List Op) :
    effects relId shown (calls.filterMap (Op.logged relId)) = effects relId shown calls := by
  funext rel row
  unfold effects
  simp only [history_logged, mem_logged]

/-! ### The calls since a checkpoint -/

namespace Engine
variable {e e0 e' : Engine} {op : Op} {calls : List Op} {tail : List WalRecord} {tx rel row : Nat}

/-- An update or delete meets no version of its row on the pages whose undo record would not fit a
page. -/
def KeepsRoom (e : Engine) : Op → Prop
  | .updateForRelation _ rel row _ | .deleteForRelation _ rel row =>
    ∀ t ∈ e.heap.heapTuples, (t.relId, t.rowId) = (e.heap.normRel rel, row) →
      e.heap.RoomFor t.payload
  | _ => True

instance (e : Engine) : (op : Op) → Decidable (e.KeepsRoom op)
  | .updateForRelation .. | .deleteForRelation .. => inferInstanceAs (Decidable (∀ _ ∈ _, _))
  | .begin _ | .getForRelation .. | .lockRowForRelation .. | .insertForRelation .. | .appendCommit _
  | .finishCommit _ | .failCommit _ | .rollback _ => inferInstanceAs (Decidable True)

/-- `e` came from `e0`, with no transaction open there, by `calls`, which have logged `tail`. -/
structure Since (e0 : Engine) (calls : List Op) (tail : List WalRecord) (e : Engine) : Prop where
  relId : e.heap.relId = e0.heap.relId
  size : e.heap.store.pageSize = e0.heap.store.pageSize
  redo : e0.Tail (calls.filterMap (Op.logged e0.heap.relId)) tail
  /-- A log that ends early is that of fewer calls. -/
  early : ∀ rs, rs <+: tail → ∃ cs, cs <+: calls ∧
    e0.Tail (cs.filterMap (Op.logged e0.heap.relId)) rs
  csns : ∃ n, e.txs.nextCsn = e0.txs.nextCsn + n ∧
    (tail.filterMap WalRecord.commit?).map Prod.snd = range' e0.txs.nextCsn n
  lsn : e0.heap.wal.reservedLsn ≤ e.heap.wal.reservedLsn
  next : e0.txs.nextTx ≤ e.txs.nextTx
  begun : ∀ x t, e.txns.lookup x = some t → t.phase ≠ .closed → e0.txs.nextTx ≤ x
  has : ∀ x c, e.HasCsn x c → e0.HasCsn x c ∨ .appendCommit x ∈ calls
  /-- A row that `e0` does not have is the work of `calls`. -/
  rows : ∀ rel row, e0.heap.headForRelation rel row = none → ∀ l, RowChain e.heap rel row l →
    ∀ t ∈ l,
    ∃ v ∈ history e0.heap.relId (rel, row) calls, v.tx = t.beginTx
  kept : ∀ t ∈ e0.heap.heapTuples, t ∈ e.heap.heapTuples
  written : ∀ key, ∀ v ∈ history e0.heap.relId key calls, ∃ t ∈ e.heap.heapTuples,
    writeOf t = (key, v)

/-- A checkpoint in `e0` changes nothing that matters here. -/
theorem Since.nil {heap : PageBackedHeap} (hq : e0.Quiet) (hrel : heap.relId = e0.heap.relId)
    (hsize : heap.store.pageSize = e0.heap.store.pageSize)
    (hlsn : e0.heap.wal.reservedLsn ≤ heap.wal.reservedLsn)
    (hhead : ∀ rel row, heap.headForRelation rel row = e0.heap.headForRelation rel row)
    (htup : heap.heapTuples = e0.heap.heapTuples) : Since e0 [] [] { e0 with heap } := by
  have hT : e0.Tail [] [] := ⟨rfl, by simp, .nil, ⟨0, rfl⟩, by simp [history], by simp⟩
  refine ⟨hrel, hsize, hT, ?_, ⟨0, rfl, rfl⟩, hlsn, le_rfl, ?_, fun _ _ => .inl, ?_,
    fun t ht => htup.symm ▸ ht, by simp [history]⟩
  · rintro rs hrs
    rw [prefix_nil.1 hrs]
    exact ⟨[], prefix_rfl, hT⟩
  · exact fun x t ht hp => absurd (hq.closed ht) hp
  · intro rel row hnone l hl t ht
    rw [hl.det (.none ((hhead rel row).trans hnone))] at ht
    cases ht

section
variable (hS : Since e0 calls tail e) (hi0 : TxInv e0) (hL0 : e0.heap.LiveHeap) (hch : ChainsOk e)
include hS hi0 hL0 hch

theorem Since.replaceable {value : Option Bytes} (hs : e.Replaced tx rel row value e')
    (hroom : ∀ t ∈ e.heap.heapTuples, (t.relId, t.rowId) = (e.heap.normRel rel, row) →
      e.heap.RoomFor t.payload) :
    e0.heap.Replaceable (calls.filterMap (Op.logged e0.heap.relId)) tx
      (e.heap.normRel rel, row) := by
  have hroom0 : ∀ t ∈ e.heap.heapTuples, (t.relId, t.rowId) = (e.heap.normRel rel, row) →
      e0.heap.RoomFor t.payload := by
    intro t ht hk
    have := hroom t ht hk
    unfold RoomFor at this ⊢
    rwa [← hS.size]
  unfold Replaceable
  rw [history_logged]
  refine ⟨?_, fun t ht => hroom0 t (hS.kept t ht), fun v hv => ?_⟩
  · cases hhead : e0.heap.headForRelation (e.heap.normRel rel) row with
    | some ptr =>
      left
      rw [hL0.firstVersion_isSome, hhead]
      rfl
    | none =>
      right
      obtain ⟨t, e1, current, heap, hlock, hcur, -⟩ := hs
      obtain ⟨l, hl, -⟩ := hch (e.heap.normRel rel) row
      obtain ⟨a, b, rfl, hvis, -⟩ := visibleTupleForWrite_ok hl hcur
      obtain ⟨v, hv, hvtx⟩ := hS.rows _ _ hhead _ hl current (by simp)
      refine ⟨v, hv, ?_⟩
      rw [mem_logged]
      have hnew : e0.txs.nextTx ≤ v.tx := hS.redo.writers _ v (by rwa [history_logged])
      rcases isTxVisible_some.1 (beginTx_visible hvis).1 with h | ⟨c, h, -⟩
      · exact .inl (hvtx.trans h)
      · have hT := lockRowForRelation_touch hlock
        rw [hT.state, ← hvtx] at h
        refine .inr ((hS.has v.tx c (.inl h)).resolve_left ?_)
        rintro (h0 | ⟨t, l, h0, -⟩)
        · exact absurd (hi0.begun _ _ h0) (Nat.not_lt.2 hnew)
        · exact absurd (hi0.lt h0) (Nat.not_lt.2 hnew)
  · obtain ⟨t, ht, hw⟩ := hS.written _ v hv
    obtain ⟨hk, rfl⟩ := Prod.mk.inj hw
    have hle : (t.toVersion.value.getD []).length ≤ t.payload.length := by
      cases hd : t.deleted <;> simp [TupleVersion.toVersion, hd]
    have := hroom0 t ht hk
    unfold RoomFor at this ⊢
    omega

theorem Since.follows {op' : Op} (hi : TxInv e) (hw : HeapWf e.heap) (hs : e.step op = .ok e')
    (hroom : e.KeepsRoom op)
    (hop : op.logged e0.heap.relId = some op') :
    e0.heap.Follows (calls.filterMap (Op.logged e0.heap.relId)) op' := by
  have hfits : ∀ {payload}, e.heap.TupleFits payload → e0.heap.TupleFits payload := by
    intro payload h
    unfold TupleFits at h ⊢
    rwa [← hS.size]
  have hnorm : ∀ rel, e.heap.normRel rel = if rel = 0 then e0.heap.relId else rel := by
    intro rel
    rw [← hS.relId]
    rfl
  have hnorm0 : ∀ rel, e0.heap.normRel (if rel = 0 then e0.heap.relId else rel) = if rel = 0 then
      e0.heap.relId else rel :=
    normRel_normRel
  cases op with
  | insertForRelation tx rel row payload =>
    cases hop
    obtain ⟨t, e1, -, -, heap, hins, rfl⟩ := insertForRelation_eq_ok hs
    exact ⟨hnorm0 rel, hfits (insertForRelation_pages (n := 0) hw hins).2.2⟩
  | updateForRelation tx rel row payload =>
    cases hop
    have hR := Replaced.of_update hs
    exact ⟨hnorm0 rel, hfits ((hR.pages hi hw hch).2.2 _ rfl),
      hnorm rel ▸ hS.replaceable hi0 hL0 hch hR hroom⟩
  | deleteForRelation tx rel row =>
    cases hop
    exact ⟨hnorm0 rel, hnorm rel ▸ hS.replaceable hi0 hL0 hch (.of_delete hs) hroom⟩
  | appendCommit tx =>
    cases hop
    trivial
  | _ => cases hop

theorem Since.tail_step {rs : List WalRecord} {n : Nat} (hi : TxInv e) (hw : HeapWf e.heap)
    (hs : e.step op = .ok e')
    (hroom : e.KeepsRoom op) (hlog : Logged e.heap.wal rs e'.heap.wal)
    (hrs : rs.map WalRecord.op? = (op.logged e.heap.relId).toList.map some)
    (hn : ((tail ++ rs).filterMap WalRecord.commit?).map Prod.snd = range' e0.txs.nextCsn n) :
    e0.Tail ((calls ++ [op]).filterMap (Op.logged e0.heap.relId)) (tail ++ rs) := by
  have hcalls : (calls ++ [op]).filterMap (Op.logged e0.heap.relId) =
      calls.filterMap (Op.logged e0.heap.relId) ++ (op.logged e0.heap.relId).toList := by
    rw [filterMap_append]
    cases hop : op.logged e0.heap.relId <;> simp [hop]
  have hnew : ∀ x, (∃ w, op.write? e.heap.relId = some w ∧ w.2.tx = x) ∨ op = .appendCommit x →
      e0.txs.nextTx ≤ x := by
    intro x hx
    obtain ⟨t, ht, hp⟩ := step_owner hs hx
    exact hS.begun x t ht hp
  refine ⟨?_, ?_, ?_, ⟨n, hn⟩, ?_, ?_⟩
  · rw [hcalls, map_append, map_append, hS.redo.same, hrs, hS.relId]
  · intro r hr
    exact (mem_append.1 hr).elim (hS.redo.lsn r) fun hr => hS.lsn.trans (hlog.lsn r hr).1
  · rw [hcalls]
    cases hop : op.logged e0.heap.relId with
    | none => simpa using hS.redo.redo
    | some op' => exact hS.redo.redo.snoc (hS.follows hi0 hL0 hch hi hw hs hroom hop)
  · intro key v hv
    rw [history_logged, mem_history_snoc] at hv
    rcases hv with hv | hv
    · exact hnew v.tx (.inl ⟨_, hS.relId ▸ hv, rfl⟩)
    · exact hS.redo.writers key v (by rwa [history_logged])
  · intro x hx
    rw [mem_logged, mem_append, mem_singleton] at hx
    exact hx.elim (fun hx => hS.redo.commits x (mem_logged.2 hx)) fun hx => hnew x (.inr hx.symm)

/-- One call more. -/
theorem Since.step (hi : TxInv e) (hc : CsnInv e) (hw : HeapWf e.heap) (hs : e.step op = .ok e')
    (hroom : e.KeepsRoom op) :
    ∃ rs, e'.heap.wal.records = e.heap.wal.records ++ rs ∧
      Since e0 (calls ++ [op]) (tail ++ rs) e' := by
  obtain ⟨rs, hlog, hrs, k, hk, hcsn⟩ := step_tail hw hs
  obtain ⟨n, hn, hcsns⟩ := hS.csns
  have hall : ((tail ++ rs).filterMap WalRecord.commit?).map Prod.snd = range' e0.txs.nextCsn
      (n + k) := by
    rw [filterMap_append, map_append, hcsns, hcsn, hn, range'_append_1]
  have hT := hS.tail_step hi0 hL0 hch hi hw hs hroom hlog hrs hall
  obtain ⟨hg, -⟩ := step_heap hw hs
  obtain ⟨-, hle⟩ := step_tx hi hs
  obtain ⟨tx, t, st, hM, -⟩ := step_moved hi hs
  obtain ⟨ts, hgain, hwrite, -⟩ := step_gains hw hs
  have hmem : ∀ t, t ∈ e'.heap.heapTuples ↔ t ∈ ts ∨ t ∈ e.heap.heapTuples := by
    intro t
    rw [hgain.tuples.mem_iff, mem_append]
  refine ⟨rs, hlog.records, hg.relId.trans hS.relId, ?_, hT, ?_, ⟨n + k, by omega, hall⟩,
    hS.lsn.trans hlog.reserved,
    hS.next.trans hle.next, ?_, ?_, ?_, fun t ht => (hmem t).2 (.inr (hS.kept t ht)), ?_⟩
  · exact (congrArg Prod.fst (step_pages hi hw hch hs).1).trans hS.size
  · intro rs' hpre
    -- a step logs one record at most, so a shorter log is one that there was before
    have hold : rs' <+: tail → ∃ cs, cs <+: calls ++ [op] ∧
        e0.Tail (cs.filterMap (Op.logged e0.heap.relId)) rs' := by
      intro h
      obtain ⟨cs, hcs, hTcs⟩ := hS.early rs' h
      exact ⟨cs, hcs.trans (prefix_append ..), hTcs⟩
    rcases rs with _ | ⟨r, _ | ⟨r', rs⟩⟩
    · exact hold (by simpa using hpre)
    · rcases prefix_concat_iff.1 hpre with rfl | h
      · exact ⟨calls ++ [op], prefix_rfl, hT⟩
      · exact hold h
    · cases hop : op.logged e.heap.relId <;> simp [hop] at hrs
  · intro x t' ht' hp
    rw [hM.lookup] at ht'
    split at ht'
    · next hx =>
      rcases hM.was with ⟨h, -⟩ | ⟨t0, h0, hp0, -⟩
      · rw [hx, h]
        exact hS.next
      · exact hS.begun x t0 (hx ▸ h0) hp0
    · exact hS.begun x t' ht' hp
  · intro x c hx
    rw [mem_append, mem_singleton]
    rcases step_has hi hc hs hx with h | h
    · exact (hS.has x c h).imp_right .inl
    · exact .inr (.inr h.symm)
  · intro rel row hhead l hl t ht
    rcases step_chain hw hch hs hl ht with ⟨v, hv, hvtx⟩ | ⟨l0, hl0, t0, ht0, heq⟩
    · exact ⟨v, mem_history_snoc.2 (.inl (hS.relId ▸ hv)), hvtx⟩
    · obtain ⟨v, hv, hvtx⟩ := hS.rows rel row hhead l0 hl0 t0 ht0
      exact ⟨v, mem_history_snoc.2 (.inr hv), hvtx.trans heq⟩
  · intro key v hv
    rcases mem_history_snoc.1 hv with hv | hv
    · have hin : (key, v) ∈ ts.map writeOf := by
        rw [hwrite, hS.relId, hv]
        simp
      obtain ⟨t, ht, hwt⟩ := mem_map.1 hin
      exact ⟨t, (hmem t).2 (.inl ht), hwt⟩
    · obtain ⟨t, ht, hwt⟩ := hS.written key v hv
      exact ⟨t, (hmem t).2 (.inr ht), hwt⟩

end
end Engine

namespace Database
variable {cfg : Config} {db db' : Database}

theorem Sound.since (hI : Sound cfg db) (hq : db.engine.Quiet) (hc : db.checkpoint = .ok db') :
    Engine.Since db.engine [] [] db'.engine := by
  obtain ⟨-, d, wal, hd, -, hres, rfl⟩ := checkpoint_ok hc
  have hfetch := hI.live.fetch_flushed hd (b := defaultCheckpointBatchPages)
  obtain ⟨qs, hF, -⟩ :=
    Store.flushDirtyBatches_flushed hI.live.frameIds d defaultCheckpointBatchPages
  generalize db.engine.heap.store.flushDirtyBatches d defaultCheckpointBatchPages = s at hF hfetch
  refine .nil hq rfl hF.size hres.symm.le (fun _ _ => rfl) ?_
  simp only [heapTuples, hF.next]
  refine congrArg (flatMap · _) (funext fun pid => ?_)
  simp only [pageTuples, hfetch]

end Database
end RedlineDb
