import RedlineDb.HeapPages
import RedlineDb.SnapshotReads

/-!
# What one engine step does to log and pages

`Logged w rs w'`: the records `rs` were appended to the log. Every step logs at most one record, the
one of its call (`RecordOf`), and keeps pages, heads and chains in order.
-/

namespace RedlineDb
open Lib PageBackedHeap

structure Logged (w : WalCoordinator) (rs : List WalRecord) (w' : WalCoordinator) : Prop where
  records : w'.records = w.records ++ rs
  reserved : w.reservedLsn ≤ w'.reservedLsn
  lsn : ∀ r ∈ rs, w.reservedLsn ≤ r.lsn ∧ r.endLsn ≤ w'.reservedLsn
  segment : w'.segmentBytes = w.segmentBytes
  failed : w.failure = true → w'.failure = true

theorem Logged.refl (w : WalCoordinator) : Logged w [] w :=
  ⟨by simp, le_rfl, by simp, rfl, id⟩

variable {w w' : WalCoordinator}

theorem Logged.of_append {kind : WalRecordKind} {tx : Nat} {payload : WalPayload} {a : WalAppend}
    (ha : w.append kind tx payload = .ok (a, w')) :
    Logged w [⟨a.startLsn, w.prevLsn, tx, kind, payload⟩] w' := by
  obtain ⟨h1, h2, rfl⟩ := WalCoordinator.append_ok ha
  refine ⟨rfl, by show w.reservedLsn ≤ a.endLsn; omega, ?_, rfl, id⟩
  intro r hr
  rw [List.mem_singleton.1 hr]
  exact ⟨h1, h2.symm.le⟩

theorem Logged.of_flushUntil {target d : Nat} (hf : w.flushUntil target = .ok (d, w')) :
    Logged w [] w' ∧ w'.reservedLsn = w.reservedLsn ∧ w.failure = false ∧
      d = max w.durableLsn target := by
  simp only [WalCoordinator.flushUntil, bind_eq_ok, require_eq_ok, pure_eq_ok, Prod.mk.injEq] at hf
  obtain ⟨-, hno, rfl, rfl⟩ := hf
  exact ⟨⟨by simp, le_rfl, by simp, rfl, id⟩, rfl, by simpa using hno, rfl⟩

theorem durableLsn_flushUntil {target d : Nat} (hf : w.flushUntil target = .ok (d, w')) :
    w'.durableLsn = max w.durableLsn target := by
  simp only [WalCoordinator.flushUntil, bind_eq_ok, pure_eq_ok, Prod.mk.injEq] at hf
  obtain ⟨-, -, -, rfl⟩ := hf
  rfl

/-- A call as the log has it: relation `0` is the heap's own. -/
def Op.logged (relId : Nat) : Op → Option Op
  | .insertForRelation tx rel row payload =>
      some (.insertForRelation tx (if rel = 0 then relId else rel) row payload)
  | .updateForRelation tx rel row payload =>
      some (.updateForRelation tx (if rel = 0 then relId else rel) row payload)
  | .deleteForRelation tx rel row =>
      some (.deleteForRelation tx (if rel = 0 then relId else rel) row)
  | .appendCommit tx => some (.appendCommit tx)
  | _ => none

namespace Engine
variable {e e' : Engine} {op : Op}

def RecordOf (e : Engine) : Op → WalRecord → Prop
  | .insertForRelation tx rel row payload, r =>
    r.txId = tx ∧ r.kind = .pageDelta ∧ r.payload = .heapInsert tx (e.heap.normRel rel) row payload
  | .updateForRelation tx rel row payload, r =>
    r.txId = tx ∧ r.kind = .pageDelta ∧ r.payload = .heapUpdate tx (e.heap.normRel rel) row payload
  | .deleteForRelation tx rel row, r =>
    r.txId = tx ∧ r.kind = .pageDelta ∧ r.payload = .heapDelete tx (e.heap.normRel rel) row
  | .appendCommit tx, r => r.txId = tx ∧ r.kind = .commit ∧ r.payload = .commit tx e.txs.nextCsn
  | _, _ => False

theorem step_logged (hw : HeapWf e.heap) (hs : e.step op = .ok e') :
    ∃ rs, Logged e.heap.wal rs e'.heap.wal ∧ (∀ r ∈ rs, RecordOf e op r) ∧
      rs.length = (op.logged e.heap.relId).toList.length := by
  have hnone : op.logged e.heap.relId = none → e'.heap.wal = e.heap.wal →
      ∃ rs, Logged e.heap.wal rs e'.heap.wal ∧
      (∀ r ∈ rs, RecordOf e op r) ∧ rs.length = (op.logged e.heap.relId).toList.length := by
    intro hop heq
    rw [heq, hop]
    exact ⟨[], .refl _, by simp, rfl⟩
  have hone : ∀ {kind tx payload a op'}, e.heap.wal.append kind tx payload = .ok (a, e'.heap.wal) →
      RecordOf e op ⟨a.startLsn, e.heap.wal.prevLsn, tx, kind, payload⟩ →
        op.logged e.heap.relId = some op' →
      ∃ rs, Logged e.heap.wal rs e'.heap.wal ∧ (∀ r ∈ rs, RecordOf e op r) ∧
        rs.length = (op.logged e.heap.relId).toList.length := by
    intro kind tx payload a op' ha hr hop
    exact ⟨_, .of_append ha, fun r h => List.mem_singleton.1 h ▸ hr, by rw [hop]; rfl⟩
  cases stepped hs with
  | begin hb => exact hnone rfl (by rw [(begin_ok hb).1])
  | get hT | lock hT => exact hnone rfl (by rw [hT.heap])
  | insert _ hins =>
    obtain ⟨a, ha⟩ := insertForRelation_wal hw hins
    exact hone ha ⟨rfl, rfl, rfl⟩ rfl
  | update _ hup =>
    obtain ⟨a, ha⟩ := updateForRelation_wal hw hup
    exact hone ha ⟨rfl, rfl, rfl⟩ rfl
  | delete _ hdel =>
    obtain ⟨a, ha⟩ := deleteForRelation_wal hw hdel
    exact hone ha ⟨rfl, rfl, rfl⟩ rfl
  | appendCommit h =>
    obtain ⟨t, a, wal, -, -, ha, rfl⟩ := appendCommit_ok h
    exact hone ha ⟨rfl, rfl, rfl⟩ rfl
  | finishCommit h =>
    obtain ⟨t, csn, endLsn, d, wal, -, -, hf, rfl⟩ := finishCommit_ok h
    exact ⟨[], (Logged.of_flushUntil hf).1, by simp, rfl⟩
  | failCommit h =>
    obtain ⟨t, csn, endLsn, -, -, rfl⟩ := failCommit_ok h
    exact ⟨[], ⟨by simp [closeTxn, setTxn], le_rfl, by simp, rfl, fun _ => rfl⟩, by simp, rfl⟩
  | rollback h =>
    obtain ⟨t, -, -, rfl⟩ := rollback_ok h
    exact hnone rfl rfl

theorem step_liveHeap (hL : LiveHeap e.heap) (hs : e.step op = .ok e') : LiveHeap e'.heap := by
  obtain ⟨rs, hlog, -⟩ := step_logged hL.wf hs
  rcases step_heap_cases hs with ⟨-, wal, hwal⟩ | ⟨_, _, _, _, -, hins⟩ |
    ⟨_, _, _, _, _, _, -, hup⟩ | ⟨_, _, _, _, _, -, hdel⟩
  · rw [hwal] at hlog ⊢
    exact hL.setWal hlog.reserved
  · exact hL.insertForRelation Nat.one_ne_zero hins
  · exact hL.updateForRelation hup
  · exact hL.deleteForRelation hdel

theorem liveHeap_create (relId lanes : Nat) (pageSize : PageSize)
    (segmentBytes walBufferBytes : Nat) :
    LiveHeap (create relId lanes pageSize segmentBytes walBufferBytes).heap := by
  have hw := heapWf_create relId lanes pageSize segmentBytes walBufferBytes
  refine ⟨hw, ⟨?_, ?_, ?_, zero_lt_one, ?_⟩, ⟨?_, ?_, ?_⟩⟩
  · intro q p hq; exact absurd hq fetch_create
  · intro q p hq; exact absurd hq fetch_create
  · intro q h1 hq
    exact absurd (h1.trans_lt hq) (lt_irrefl 1)
  · intro q p hq; cases hq
  · intro q p k t hq; exact absurd hq fetch_create
  · intro q p k t hq; exact absurd hq fetch_create
  · intro rel row ptr hptr; cases hptr

end Engine
end RedlineDb
