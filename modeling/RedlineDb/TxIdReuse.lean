import RedlineDb.CsnFrontier
import RedlineDb.LogRestart

/-!
# Transaction ids across restarts

A version or a log record is attributed to its transaction by id alone, so what an uncommitted
transaction left behind stays invisible only while nobody commits under its id. `begin_txn` counts
up, and a reopening sets the counter behind the ids it finds committed and behind the checkpoint's
counter; the ids of transactions that did not commit are not looked at. The machine is that of
`LogRestart`.
-/

namespace RedlineDb
open Lib LogServer ConcurrentTxStatus List

def WalRecord.txIds (r : WalRecord) : List Nat := r.txId :: r.payload.txId?.toList

namespace LogServer

def occurring (s : LogServer) (records : List WalRecord) : List Nat :=
  records.flatMap WalRecord.txIds ++ s.pages

/-- At a reopening every id that survives is below the checkpoint's counter or below the id of a
transaction found committed, and no commit record survives whose transaction was aborted. -/
def CleanRestart (s : LogServer) : LogServerAction → Prop
  | .restart keep =>
    (∀ x ∈ s.occurring (s.wal.records.take keep), x < s.savedStatus.nextTx ∨
      ∃ e ∈ s.savedStatus.entries ++ (s.wal.records.take keep).filterMap WalRecord.commit?,
        x ≤ e.1) ∧
    ∀ e ∈ (s.wal.records.take keep).filterMap WalRecord.commit?, s.txs.state e.1 ≠ .aborted
  | _ => True

variable {s s' : LogServer} {a : LogServerAction} {tx x k job : Nat} {recs : List WalRecord}
    {t : ConcurrentTxStatus}

theorem mem_occurring : x ∈ s.occurring recs ↔ (∃ r ∈ recs, x ∈ r.txIds) ∨ x ∈ s.pages := by
  rw [occurring, mem_append, mem_flatMap]

theorem mem_txIds_of_commit {r : WalRecord} (hc : r.commit? = some (x, k)) : x ∈ r.txIds := by
  obtain ⟨lsn, prevLsn, txId, kind, payload⟩ := r
  unfold WalRecord.commit? at hc
  split at hc
  · next hp =>
    cases hc
    have hp' : payload = .commit x k := hp
    rw [WalRecord.txIds, hp']
    exact mem_cons_of_mem _ (mem_singleton_self _)
  · cases hc

/-! ### What one step does -/

def Known (s : LogServer) (x : Nat) : Prop := ∃ k, s.txs.state x = .committed k

structure OwnRun (s : LogServer) : Prop where
  ids : ∀ x ∈ s.occurring s.wal.records, x < s.txs.nextTx
  begun : ∀ x, s.phases x ≠ .idle ∨ Known s x → x < s.txs.nextTx
  live : ∀ x, s.phases x = .active ∨ (∃ k, s.phases x = .committing k) → s.txs.state x = .inProgress
  unlogged : ∀ x, s.phases x = .active → ∀ r ∈ s.wal.records, ∀ k, r.commit? ≠ some (x, k)

structure Moves (s s' : LogServer) (tx : Nat) : Prop where
  other : ∀ x, x ≠ tx → s'.txs.state x = s.txs.state x ∧ s'.phases x = s.phases x
  was : s.phases tx ≠ .idle ∨ tx = s.txs.nextTx
  lt : s'.phases tx ≠ .idle ∨ Known s' tx → tx < s'.txs.nextTx
  nextTx : s.txs.nextTx ≤ s'.txs.nextTx
  ids : ∀ x ∈ s'.occurring s'.wal.records, x ∈ s.occurring s.wal.records ∨ x = tx ∧
    tx < s'.txs.nextTx
  commits : ∀ r ∈ s'.wal.records, ∀ x k, r.commit? = some (x, k) → x = tx ∨ r ∈ s.wal.records
  live : s'.phases tx = .active ∨ (∃ k, s'.phases tx = .committing k) →
    s'.txs.state tx = .inProgress
  unlogged : s'.phases tx = .active → ∀ r ∈ s'.wal.records, ∀ k, r.commit? ≠ some (tx, k)
  known : Known s tx → Known s' tx

theorem Moves.known_of (h : Moves s s' tx) (hx : Known s x) : Known s' x := by
  by_cases he : x = tx
  · subst he
    exact h.known hx
  · obtain ⟨k, hk⟩ := hx
    exact ⟨k, (h.other x he).1.trans hk⟩

section
variable (h : OwnRun s)
include h

theorem OwnRun.moves (hm : Moves s s' tx) : OwnRun s' := by
  constructor
  case ids =>
    intro x hx
    rcases hm.ids x hx with hx | ⟨rfl, hlt⟩
    · exact (h.ids x hx).trans_le hm.nextTx
    · exact hlt
  case begun =>
    intro x hx
    by_cases he : x = tx
    · subst he
      exact hm.lt hx
    · unfold Known at hx
      rw [(hm.other x he).1, (hm.other x he).2] at hx
      exact (h.begun x hx).trans_le hm.nextTx
  case live =>
    intro x hx
    by_cases he : x = tx
    · subst he
      exact hm.live hx
    · rw [(hm.other x he).2] at hx
      rw [(hm.other x he).1]
      exact h.live x hx
  case unlogged =>
    intro x hx r hr k hc
    by_cases he : x = tx
    · subst he
      exact hm.unlogged hx r hr k hc
    · rw [(hm.other x he).2] at hx
      exact h.unlogged x hx r ((hm.commits r hr x k hc).resolve_left he) k hc

theorem OwnRun.moves_of_sublog (htxs : s'.txs = s.txs) (hphases : s'.phases = s.phases)
    (hpages : s'.pages = s.pages) (hrecs : ∀ r ∈ s'.wal.records, r ∈ s.wal.records) :
    Moves s s' s.txs.nextTx := by
  constructor
  case other =>
    intro x _
    rw [htxs, hphases]
    exact ⟨rfl, rfl⟩
  case was => exact .inr rfl
  case lt =>
    intro hp
    unfold Known at hp
    rw [hphases, htxs] at hp
    rw [htxs]
    exact h.begun _ hp
  case nextTx => rw [htxs]
  case ids =>
    intro x hx
    rw [mem_occurring, hpages] at hx
    refine .inl (mem_occurring.2 (hx.imp ?_ id))
    rintro ⟨r, hr, hm⟩
    exact ⟨r, hrecs r hr, hm⟩
  case commits => exact fun r hr _ _ _ => .inr (hrecs r hr)
  case live =>
    rw [hphases, htxs]
    exact h.live _
  case unlogged =>
    rw [hphases]
    exact fun hp r hr => h.unlogged _ hp r (hrecs r hr)
  case known =>
    unfold Known
    rw [htxs]
    exact id

def Appends (s s' : LogServer) (tx : Nat) : Prop :=
  ∀ r ∈ s'.wal.records, r ∈ s.wal.records ∨ (∀ x ∈ r.txIds, x = tx) ∧
    (s'.phases tx = .active → ∀ x k, r.commit? ≠ some (x, k))

theorem OwnRun.moves_live (hp : s.phases tx = .active ∨ ∃ k, s.phases tx = .committing k)
    (hback : s'.phases tx = .active → s.phases tx = .active)
    (hother : ∀ x, x ≠ tx → s'.txs.state x = s.txs.state x ∧ s'.phases x = s.phases x)
    (hnext : s'.txs.nextTx = s.txs.nextTx) (hpages : s'.pages = s.pages) (hrecs : Appends s s' tx)
    (hlive : s'.phases tx = .active ∨ (∃ k, s'.phases tx = .committing k) →
      s'.txs.state tx = .inProgress) :
    Moves s s' tx := by
  have hne : s.phases tx ≠ .idle := by
    rcases hp with hp | ⟨k, hp⟩
    · rw [hp]
      exact CommitPhase.noConfusion
    · rw [hp]
      exact CommitPhase.noConfusion
  have hlt : tx < s'.txs.nextTx := hnext ▸ h.begun tx (.inl hne)
  constructor
  case other => exact hother
  case was => exact .inl hne
  case lt => exact fun _ => hlt
  case nextTx => exact hnext.symm.le
  case ids =>
    intro x hx
    rw [mem_occurring, hpages] at hx
    rcases hx with ⟨r, hr, hm⟩ | hx
    · rcases hrecs r hr with hr | ⟨hr, -⟩
      · exact .inl (mem_occurring.2 (.inl ⟨r, hr, hm⟩))
      · exact .inr ⟨hr x hm, hlt⟩
    · exact .inl (mem_occurring.2 (.inr hx))
  case commits =>
    intro r hr x k hc
    rcases hrecs r hr with hr | ⟨hr, -⟩
    · exact .inr hr
    · exact .inl (hr x (mem_txIds_of_commit hc))
  case live => exact hlive
  case unlogged =>
    intro ha r hr k hc
    rcases hrecs r hr with hr | ⟨-, hr⟩
    · exact h.unlogged tx (hback ha) r hr k hc
    · exact hr ha tx k hc
  case known =>
    rintro ⟨k, hk⟩
    rw [h.live tx hp] at hk
    cases hk

theorem OwnRun.begin :
    Moves s ({ s with txs := s.txs.begin.2 }.setPhase s.txs.nextTx .active) s.txs.nextTx := by
  have hself : (s.txs.begin.2).state s.txs.nextTx = .inProgress := by simp
  constructor
  case other =>
    intro x hx
    rw [phases_setPhase, if_neg hx]
    refine ⟨?_, rfl⟩
    show (s.txs.begin.2).state x = _
    simp [hx]
  case was => exact .inr rfl
  case lt => exact fun _ => Nat.lt_succ_self _
  case nextTx => exact Nat.le_succ _
  case ids => exact fun x hx => .inl hx
  case commits => exact fun r hr _ _ _ => .inr hr
  case live => exact fun _ => hself
  case unlogged =>
    -- an id that is handed out does not occur yet
    intro _ r hr k hc
    exact absurd (h.ids _ (mem_occurring.2 (.inl ⟨r, hr, mem_txIds_of_commit hc⟩))) (lt_irrefl _)
  case known => exact fun hk => absurd (h.begun _ (.inr hk)) (lt_irrefl _)

variable {txs : ConcurrentTxStatus}

theorem OwnRun.moves_end (hp : s.phases tx = .active ∨ ∃ k, s.phases tx = .committing k)
    (hother : ∀ x, x ≠ tx → txs.state x = s.txs.state x) (hnext : txs.nextTx = s.txs.nextTx) :
    Moves s ({ s with txs }.setPhase tx .closed) tx := by
  have hclosed : ({ s with txs }.setPhase tx .closed).phases tx = .closed := by
    rw [phases_setPhase, if_pos rfl]
  refine h.moves_live hp ?_ ?_ hnext rfl (fun r hr => .inl hr) ?_
  · rw [hclosed]
    exact nofun
  · intro x hx
    rw [phases_setPhase, if_neg hx]
    exact ⟨hother x hx, rfl⟩
  · rw [hclosed]
    rintro (hc | ⟨k, hc⟩)
    · cases hc
    · cases hc

theorem OwnRun.endAborted (hp : s.phases tx = .active ∨ ∃ k, s.phases tx = .committing k)
    (hst : ∀ x, txs.state x = s.txs.state x) (hnext : txs.nextTx = s.txs.nextTx) :
    Moves s ({ s with txs }.endAborted tx) tx := by
  refine h.moves_end hp (fun x hx => ?_) hnext
  rw [state_abort, if_neg hx, hst]

omit h in
theorem appends_of_append {kind : WalRecordKind} {payload : WalPayload} {a : WalAppend}
    {wal : WalCoordinator}
    (ha : s.wal.append kind tx payload = .ok (a, wal)) (hw : s'.wal = wal)
    (hpay : payload.txId?.getD tx = tx)
    (hc : s'.phases tx = .active → kind ≠ .commit) : Appends s s' tx := by
  obtain ⟨-, -, hwal⟩ := WalCoordinator.append_ok ha
  intro r hr
  rw [hw, hwal, mem_append, mem_singleton] at hr
  refine hr.imp id ?_
  rintro rfl
  constructor
  · intro x hx
    rw [WalRecord.txIds, mem_cons, Option.mem_toList] at hx
    rcases hx with rfl | hx
    · rfl
    · have hx' : payload.txId? = some x := hx
      rw [hx'] at hpay
      exact hpay
  · intro hact x k hcommit
    rw [WalRecord.commit?_eq_none (hc hact)] at hcommit
    cases hcommit

theorem OwnRun.appendCommit (hp : s.phases tx = .active) :
    Moves s (s.appendCommit tx) tx ∧ (s.appendCommit tx).files = s.files ∧
      (s.appendCommit tx).jobs = s.jobs := by
  unfold LogServer.appendCommit
  split
  · exact ⟨h.endAborted (.inl hp) (fun _ => rfl) rfl, rfl, rfl⟩
  · split
    · exact ⟨h.endAborted (.inl hp) (fun _ => rfl) rfl, rfl, rfl⟩
    · next r a wal ha =>
      have hcom : ({ s with wal, txs := s.txs.reserveCommitCsn.2 }.setPhase tx
          (.committing s.txs.nextCsn)).phases tx =
          .committing s.txs.nextCsn := by rw [phases_setPhase, if_pos rfl]
      refine ⟨h.moves_live (.inl hp) (fun _ => hp) ?_ rfl rfl (appends_of_append ha rfl rfl ?_)
        fun _ => h.live tx (.inl hp),
        rfl, rfl⟩
      · intro x hx
        rw [phases_setPhase, if_neg hx]
        exact ⟨rfl, rfl⟩
      · rw [hcom]
        exact nofun

theorem OwnRun.checkpointStep (hs : s.checkpointStep job = .ok s') : Moves s s' s.txs.nextTx := by
  unfold LogServer.checkpointStep at hs
  split at hs
  · cases hs
    exact h.moves_of_sublog rfl rfl rfl fun _ hr => hr
  · simp only [bind_eq_ok, pure_eq_ok, WalCoordinator.flushUntil] at hs
    obtain ⟨⟨d, wal⟩, ⟨-, -, hw⟩, rfl⟩ := hs
    cases hw
    exact h.moves_of_sublog rfl rfl rfl fun _ hr => hr
  · cases hs
    exact h.moves_of_sublog rfl rfl rfl fun _ hr => hr
  · split at hs
    · cases hs
    · cases hs
      exact h.moves_of_sublog rfl rfl rfl fun _ hr => hr
  · split at hs
    · cases hs
      exact h.moves_of_sublog rfl rfl rfl fun _ hr => hr
    · cases hs
      exact h.moves_of_sublog rfl rfl rfl fun _ hr => hr
  · cases hs
    exact h.moves_of_sublog rfl rfl rfl fun _ hr => hr
  · cases hs
    exact h.moves_of_sublog rfl rfl rfl fun _ hr => (mem_filter.1 hr).1

/-- Every step but a reopening moves one transaction, and only those of checkpoints touch their
files. -/
theorem OwnRun.step (ha : ∀ keep, a ≠ .restart keep) (hs : s.step a = .ok s') :
    ∃ tx, Moves s s' tx ∧
      (s'.files = s.files ∧ s'.jobs = s.jobs ∨ ∃ job, s.checkpointStep job = .ok s') := by
  cases a with
  | begin =>
    cases hs
    exact ⟨_, h.begin, .inl ⟨rfl, rfl⟩⟩
  | log tx kind payload =>
    simp only [step, bind_eq_ok, require_eq_ok, pure_eq_ok] at hs
    obtain ⟨_, ⟨hp, hkind, hpay⟩, ⟨a, wal⟩, ha, rfl⟩ := hs
    exact ⟨tx, h.moves_live (.inl hp) (fun _ => hp) (fun _ _ => ⟨rfl, rfl⟩) rfl rfl
      (appends_of_append ha rfl hpay fun _ => hkind) (h.live tx), .inl ⟨rfl, rfl⟩⟩
  | writePage tx page =>
    obtain ⟨hp, rfl⟩ := guarded_eq_ok.1 hs
    have hlt := h.begun tx (.inl hp)
    refine ⟨tx, ⟨fun _ _ => ⟨rfl, rfl⟩, .inl hp, fun _ => hlt, le_rfl, ?_,
      fun r hr _ _ _ => .inr hr, h.live tx,
      h.unlogged tx, id⟩, .inl ⟨rfl, rfl⟩⟩
    intro x hx
    rw [mem_occurring] at hx ⊢
    rcases hx with hx | hx
    · exact .inl (.inl hx)
    · rcases mem_cons.1 hx with rfl | hx
      · exact .inr ⟨rfl, hlt⟩
      · exact .inl (.inr hx)
  | appendCommit tx =>
    obtain ⟨hp, rfl⟩ := guarded_eq_ok.1 hs
    exact ⟨tx, (h.appendCommit hp).imp_right .inl⟩
  | publish tx csn =>
    obtain ⟨hp, rfl⟩ := guarded_eq_ok.1 hs
    refine ⟨tx, h.moves_end (.inr ⟨csn, hp⟩) (fun x hx => ?_) (nextTx_completeCsn ..),
      .inl ⟨rfl, rfl⟩⟩
    simp [hx]
  | cancel tx csn =>
    obtain ⟨⟨hp, -⟩, rfl⟩ := guarded_eq_ok.1 hs
    refine ⟨tx, h.endAborted (.inr ⟨csn, hp⟩) (fun x => ?_) (nextTx_skipCsn ..), .inl ⟨rfl, rfl⟩⟩
    simp [cancelReservedCsn, state]
  | rollback tx =>
    obtain ⟨hp, rfl⟩ := guarded_eq_ok.1 hs
    exact ⟨tx, h.endAborted (.inl hp) (fun _ => rfl) rfl, .inl ⟨rfl, rfl⟩⟩
  | writeLog lsn =>
    simp only [step, bind_eq_ok, require_eq_ok, pure_eq_ok, WalCoordinator.flushUntil] at hs
    obtain ⟨_, -, ⟨d, wal⟩, ⟨-, -, hw⟩, rfl⟩ := hs
    cases hw
    exact ⟨_, h.moves_of_sublog rfl rfl rfl fun _ hr => hr, .inl ⟨rfl, rfl⟩⟩
  | failLog =>
    cases hs
    exact ⟨_, h.moves_of_sublog rfl rfl rfl fun _ hr => hr, .inl ⟨rfl, rfl⟩⟩
  | checkpoint job => exact ⟨_, h.checkpointStep hs, .inr ⟨job, hs⟩⟩
  | restart keep => exact absurd rfl (ha keep)

end

/-! ### The files of checkpoints -/

def knownFacts (s : LogServer) : CheckpointFiles.Facts where
  lsn _ := True
  read _ status _ := ∀ e ∈ status.entries, Known s e.1
  written _ status := ∀ e ∈ status.entries, Known s e.1

structure SavedOk (s : LogServer) : Prop where
  saved : ∀ e ∈ s.savedStatus.entries, Known s e.1
  ok : s.files.Ok s.knownFacts s.jobs

theorem SavedOk.same (h : SavedOk s) (hf : s'.files = s.files) (hj : s'.jobs = s.jobs)
    (hk : ∀ x, Known s x → Known s' x) :
    SavedOk s' := by
  constructor
  · rw [savedStatus_eq (congrArg CheckpointFiles.saved hf)]
    exact fun e he => hk e.1 (h.saved e he)
  · rw [hf, hj]
    exact h.ok.mono (fun _ => id) (fun _ _ _ _ _ _ _ _ h e he => hk e.1 (h e he))
      fun _ _ _ h e he => hk e.1 (h e he)

theorem SavedOk.checkpointStep (h : SavedOk s) (hs : s.checkpointStep job = .ok s') :
    SavedOk s' := by
  unfold LogServer.checkpointStep at hs
  split at hs
  · cases hs
    exact ⟨h.saved, h.ok.setJob (by rintro q ⟨⟩; trivial)⟩
  · simp only [bind_eq_ok, pure_eq_ok] at hs
    obtain ⟨⟨d, wal⟩, -, rfl⟩ := hs
    exact ⟨h.saved, h.ok.setJob (by rintro q ⟨⟩; trivial)⟩
  · cases hs
    exact ⟨h.saved, h.ok.setJob (by rintro q ⟨⟩; trivial)⟩
  · split at hs
    · cases hs
    · next hh =>
      cases hs
      exact ⟨h.saved, h.ok.start hh trivial rfl (by rintro e ⟨⟩)⟩
  · next d n status shard hj =>
    split at hs
    · cases hs
      refine ⟨h.saved, h.ok.read hj rfl fun h1 e he => ?_⟩
      rcases mem_append.1 he with he | he
      · exact h1 e he
      · exact ⟨e.2, (Server.mem_shardStates.1 he).1⟩
    · cases hs
      obtain ⟨hok, hsaved⟩ :=
        h.ok.writeStatus hj
        { status with entries := status.entries.insertionSort (fun a b => a.1 ≤ b.1) }
        (Function.update_apply _ _ _) rfl fun h1 e he => h1 e ((mem_insertionSort _).1 he)
      refine ⟨?_, hok⟩
      show ∀ e ∈ (savedStatus { s with txStatus := _ }).entries, Known s e.1
      rw [savedStatus_eq hsaved]
      exact h.saved
  · next d n hj =>
    obtain ⟨st, hsaved, hw, hok⟩ := h.ok.writeControl hj s.knownFacts fun _ => id
    cases hs
    refine ⟨?_, hok hw⟩
    show ∀ e ∈ (savedStatus { s with control := _ }).entries, Known s e.1
    rw [savedStatus_eq hsaved]
    exact hw
  · next c hj =>
    cases hs
    exact ⟨h.saved, h.ok.finish hj fun _ => id⟩

variable {st : TxStatusCheckpoint}

theorem known_recovered : (∃ k, (recoverCommits recs (.restore st)).state x = .committed k) ↔
      ∃ e ∈ st.entries ++ recs.filterMap WalRecord.commit?, e.1 = x := by
  constructor
  · rintro ⟨k, hk⟩
    rcases committed_recovered hk with he | he
    · exact ⟨_, mem_append_right _ he, rfl⟩
    · rcases committed_recovered he with he | he
      · exact ⟨_, mem_append_left _ he, rfl⟩
      · cases he
  · rintro ⟨e, he, rfl⟩
    rcases mem_append.1 he with he | he
    · exact exists_committed_recovered (.inr (exists_committed_recovered (.inl ⟨e, he, rfl⟩)))
    · exact exists_committed_recovered (.inl ⟨e, he, rfl⟩)

theorem lt_nextTx_recovered
    (hx : x < st.nextTx ∨ ∃ e ∈ st.entries ++ recs.filterMap WalRecord.commit?, x ≤ e.1) :
    x < (recoverCommits recs (.restore st)).nextTx := by
  obtain ⟨⟨h1, h2⟩, -⟩ := counters_recovered (.restore st) (recs.filterMap WalRecord.commit?) 0
  obtain ⟨⟨-, h3⟩, -⟩ := counters_recovered .new st.entries 0
  rcases hx with hx | ⟨e, he, hle⟩
  · refine hx.trans_le (le_trans ?_ h1)
    exact (le_max_left _ _).trans (le_max_right _ _)
  · refine hle.trans_lt ?_
    rcases mem_append.1 he with he | he
    · exact (h3 e he).trans_le ((le_max_left _ _).trans h1)
    · exact h2 e he

variable {keep : Nat}

theorem SavedOk.restart_eq (h : SavedOk s) (hs : s.restart keep = .ok s') :
    s'.wal.records = s.wal.records.take keep ∧ s'.pages = s.pages ∧ (∀ x, s'.phases x = .idle) ∧
      s'.txs = recoverCommits (s.wal.records.take keep) (.restore s.savedStatus) ∧
        s'.savedStatus = s.savedStatus ∧
      s'.files.Ok s'.knownFacts s'.jobs := by
  simp only [restart, recovered_eq h.ok, bind_eq_ok, pure_eq_ok] at hs
  obtain ⟨-, -, t, ht, rfl⟩ := hs
  exact ⟨rfl, rfl, fun _ => rfl, (Except.ok.inj ht).symm, rfl, .closed h.ok.file rfl⟩

theorem OwnRun.restart (h : SavedOk s) (hok : CleanRestart s (.restart keep))
    (hs : s.restart keep = .ok s') : OwnRun s' := by
  obtain ⟨hrec, hpages, hidle, htxs, -⟩ := h.restart_eq hs
  constructor
  case ids =>
    intro x hx
    rw [mem_occurring, hrec, hpages, ← mem_occurring] at hx
    rw [htxs]
    exact lt_nextTx_recovered (hok.1 x hx)
  case begun =>
    intro x hx
    unfold Known at hx
    rw [htxs] at hx ⊢
    rcases hx with hx | hx
    · exact absurd (hidle x) hx
    · obtain ⟨e, he, rfl⟩ := known_recovered.1 hx
      exact lt_nextTx_recovered (.inr ⟨e, he, le_rfl⟩)
  case live =>
    intro x hx
    rw [hidle] at hx
    rcases hx with hx | ⟨k, hx⟩
    · cases hx
    · cases hx
  case unlogged =>
    intro x hx
    rw [hidle] at hx
    cases hx

theorem SavedOk.restart (h : SavedOk s) (hs : s.restart keep = .ok s') : SavedOk s' := by
  obtain ⟨-, -, -, htxs, hsaved, hok⟩ := h.restart_eq hs
  refine ⟨fun e he => ?_, hok⟩
  rw [hsaved] at he
  unfold Known
  rw [htxs]
  exact known_recovered.2 ⟨e, mem_append_left _ he, rfl⟩

theorem ownRun_step (h : OwnRun s ∧ SavedOk s) (hok : CleanRestart s a) (hs : s.step a = .ok s') :
    OwnRun s' ∧ SavedOk s' := by
  by_cases hr : ∃ keep, a = .restart keep
  · obtain ⟨keep, rfl⟩ := hr
    exact ⟨OwnRun.restart h.2 hok hs, h.2.restart hs⟩
  · obtain ⟨tx, hm, ⟨hf, hjobs⟩ | ⟨job, hj⟩⟩ := h.1.step (fun keep he => hr ⟨keep, he⟩) hs
    · exact ⟨h.1.moves hm, h.2.same hf hjobs fun x => hm.known_of⟩
    · exact ⟨h.1.moves hm, h.2.checkpointStep hj⟩

theorem ownRun_of_run {segmentBytes walBufferBytes : Nat} {acts : List LogServerAction}
    (hrun : Run step CleanRestart (create segmentBytes walBufferBytes) acts s) : OwnRun s ∧
    SavedOk s := by
  refine hrun.invariant (I := fun _ s => OwnRun s ∧ SavedOk s) ?_ fun _ _ _ _ hI hok hs =>
    ownRun_step hI hok hs
  refine ⟨⟨fun x hx => absurd hx not_mem_nil, ?_, ?_, fun _ _ r hr => absurd hr not_mem_nil⟩,
    fun e he => absurd he not_mem_nil, nofun, fun _ => rfl, nofun⟩
  · rintro x (hx | ⟨k, hk⟩)
    · exact absurd rfl hx
    · exact TxState.noConfusion (hk : TxState.aborted = .committed k)
  · rintro x (hx | ⟨k, hx⟩)
    · exact CommitPhase.noConfusion (hx : CommitPhase.idle = _)
    · exact CommitPhase.noConfusion (hx : CommitPhase.idle = _)

/-! ### Leftovers of uncommitted transactions -/

def Survives (x : Nat) (s : LogServer) : LogServerAction → Prop
  | .restart keep => x ∈ s.occurring (s.wal.records.take keep)
  | _ => True

structure Leftover (s : LogServer) (x : Nat) : Prop where
  lt : x < s.txs.nextTx
  idle : s.phases x = .idle
  uncommitted : ¬ Known s x
  unlogged : ∀ r ∈ s.wal.records, ∀ k, r.commit? ≠ some (x, k)

theorem Leftover.moves (h : Leftover s x) (hm : Moves s s' tx) : Leftover s' x := by
  have hne : x ≠ tx := by
    rintro rfl
    rcases hm.was with hp | he
    · exact hp h.idle
    · exact h.lt.ne he
  obtain ⟨hstate, hphase⟩ := hm.other x hne
  refine ⟨h.lt.trans_le hm.nextTx, hphase.trans h.idle, ?_, ?_⟩
  · unfold Known
    rw [hstate]
    exact h.uncommitted
  · intro r hr k hc
    exact h.unlogged r ((hm.commits r hr x k hc).resolve_left hne) k hc

theorem leftover_restart (hsaved : SavedOk s) (hok : CleanRestart s (.restart keep))
    (hs : s.restart keep = .ok s') (hx : x ∈ s.occurring (s.wal.records.take keep))
    (hunknown : ¬ Known s x)
    (hlog : ∀ r ∈ s.wal.records.take keep, ∀ k, r.commit? ≠ some (x, k)) : Leftover s' x := by
  obtain ⟨hrec, -, hidle, htxs, -⟩ := hsaved.restart_eq hs
  refine ⟨?_, hidle x, ?_, ?_⟩
  · rw [htxs]
    exact lt_nextTx_recovered (hok.1 x hx)
  · unfold Known
    rw [htxs, known_recovered]
    rintro ⟨⟨y, k⟩, he, rfl⟩
    rcases mem_append.1 he with he | he
    · exact hunknown (hsaved.saved _ he)
    · obtain ⟨r, hr, hc⟩ := mem_filterMap.1 he
      exact hlog r hr k hc
  · rw [hrec]
    exact hlog

theorem Leftover.step (h : Leftover s x) (hinv : OwnRun s ∧ SavedOk s) (hok : CleanRestart s a)
    (hx : Survives x s a)
    (hs : s.step a = .ok s') : Leftover s' x := by
  by_cases hr : ∃ keep, a = .restart keep
  · obtain ⟨keep, rfl⟩ := hr
    exact leftover_restart hinv.2 hok hs hx h.uncommitted fun r hr =>
      h.unlogged r (mem_of_mem_take hr)
  · obtain ⟨tx, hm, -⟩ := hinv.1.step (fun keep he => hr ⟨keep, he⟩) hs
    exact h.moves hm

/-- The transaction `x` of this run has not committed: it is under way without a commit record, or
it has ended aborted. -/
def Uncommitted (s : LogServer) (x : Nat) : Prop :=
  s.phases x = .active ∨ s.phases x = .closed ∧ s.txs.state x = .aborted

/-- When every reopening finds only ids below the counters it restores, and no commit record of a
cancelled commit, an id that is handed out occurs nowhere; and a transaction that had not committed
when its run ended is never committed or replayed as committed in a later run, as long as something
of it is left. -/
theorem uncommitted_stays_invisible {segmentBytes walBufferBytes : Nat}
    {acts : List LogServerAction}
    (hrun : Run step CleanRestart (create segmentBytes walBufferBytes) acts s) :
    s.txs.nextTx ∉ s.occurring s.wal.records ∧ ∀ x keep later s', Uncommitted s x →
      Run step (fun s a => CleanRestart s a ∧ Survives x s a) s (.restart keep :: later) s' →
      s'.phases x = .idle ∧ (∀ snapshot, s'.txs.isTxVisible x snapshot none = false) ∧
        ∀ r ∈ s'.wal.records, ∀ k, r.commit? ≠ some (x, k) := by
  have hinv := ownRun_of_run hrun
  refine ⟨fun hx => absurd (hinv.1.ids _ hx) (lt_irrefl _), ?_⟩
  intro x keep later s' hx hlater
  obtain ⟨s₁, ⟨hok, hsurv⟩, hs, hrest⟩ := Run.cons_inv hlater
  have hunknown : ¬ Known s x := by
    rintro ⟨k, hk⟩
    rcases hx with hx | ⟨-, hx⟩
    · rw [hinv.1.live x (.inl hx)] at hk
      cases hk
    · rw [hx] at hk
      cases hk
  have hlog : ∀ r ∈ s.wal.records.take keep, ∀ k, r.commit? ≠ some (x, k) := by
    intro r hr k hc
    rcases hx with hx | ⟨-, hx⟩
    · exact hinv.1.unlogged x hx r (mem_of_mem_take hr) k hc
    · exact hok.2 (x, k) (mem_filterMap.2 ⟨r, hr, hc⟩) hx
  have hfirst : (OwnRun s₁ ∧ SavedOk s₁) ∧ Leftover s₁ x :=
    ⟨ownRun_step hinv hok hs, leftover_restart hinv.2 hok hs hsurv hunknown hlog⟩
  obtain ⟨-, hleft⟩ :=
    hrest.invariant (I := fun _ s => (OwnRun s ∧ SavedOk s) ∧ Leftover s x) hfirst
    fun _ _ _ _ hI hP hs => ⟨ownRun_step hI.1 hP.1 hs, hI.2.step hI.1 hP.1 hP.2 hs⟩
  refine ⟨hleft.idle, fun snapshot => ?_, hleft.unlogged⟩
  exact isTxVisible_eq_false nofun fun k hk => absurd ⟨k, hk⟩ hleft.uncommitted

instance (s : LogServer) (a : LogServerAction) : Decidable (CleanRestart s a) := by
  unfold CleanRestart
  split <;> infer_instance

instance (x : Nat) (s : LogServer) (a : LogServerAction) : Decidable (Survives x s a) := by
  unfold Survives
  split <;> infer_instance

instance (s : LogServer) (x : Nat) : Decidable (Uncommitted s x) :=
  inferInstanceAs (Decidable (_ ∨ _))

def traceInsert : List LogServerAction := [.begin, .log 1 .pageDelta (.heapInsert 1 7 1 [0])]

def traceNextId : List LogServerAction :=
  [.restart 2, .begin, .appendCommit 3, .publish 3 2, .restart 3]

theorem uncommitted_stays_invisible_nextId : ∃ s s',
    Run step CleanRestart (create 1000 1000)
      (traceInsert ++ [.begin, .appendCommit 2, .publish 2 1]) s ∧
      Uncommitted s 1 ∧ s'.txs.nextTx ∉ s'.occurring s'.wal.records ∧
      Run step (fun s a => CleanRestart s a ∧ Survives 1 s a) s traceNextId s' ∧
      (∃ csn, s'.txs.state 3 = .committed csn) ∧ ∀ snapshot, s'.txs.isTxVisible 1 snapshot none =
      false := by
  obtain ⟨s, hrun, hun, s', hlater, h3⟩ : ∃ s, Run step CleanRestart (create 1000 1000)
      (traceInsert ++ [.begin, .appendCommit 2, .publish 2 1]) s ∧ Uncommitted s 1 ∧
      ∃ s', Run step (fun s a => CleanRestart s a ∧ Survives 1 s a) s traceNextId s' ∧
        s'.txs.state 3 = .committed 2 := by decide +kernel
  have hall := hrun.append (hlater.mono fun _ _ h => h.1)
  exact ⟨s, s', hrun, hun, (uncommitted_stays_invisible hall).1, hlater, ⟨2, h3⟩,
    ((uncommitted_stays_invisible hrun).2 1 2 _ s' hun hlater).2.1⟩

def traceSameId : List LogServerAction :=
  [.restart 1, .begin, .appendCommit 1, .publish 1 1, .restart 2]

/-- The insert of a transaction that never committed is attributed to the committed owner of the
same id. -/
theorem uncommitted_insert_becomes_visible :
    ∃ s s' r, Run step (fun _ _ => True) (create 1000 1000) traceInsert s ∧
    Uncommitted s 1 ∧ r ∈ s.wal.records ∧ r.payload = .heapInsert 1 7 1 [0] ∧
    Run step (Survives 1) s traceSameId s' ∧ r ∈ s'.wal.records ∧
      s'.txs.isTxVisible 1 s'.txs.snapshot none = true := by
  obtain ⟨s, hrun, hun, hrecs, s', hlater, htake, hvis⟩ : ∃ s,
      Run step (fun _ _ => True) (create 1000 1000) traceInsert s ∧ Uncommitted s 1 ∧
      s.wal.records = [⟨0, 0, 1, .pageDelta, .heapInsert 1 7 1 [0]⟩] ∧
        ∃ s', Run step (Survives 1) s traceSameId s' ∧
        s'.wal.records.take 1 = [⟨0, 0, 1, .pageDelta, .heapInsert 1 7 1 [0]⟩] ∧
        s'.txs.isTxVisible 1 s'.txs.snapshot none = true := by decide +kernel
  refine ⟨s, s', _, hrun, hun, hrecs ▸ mem_singleton_self _, rfl, hlater, ?_, hvis⟩
  exact mem_of_mem_take (htake ▸ mem_singleton_self _)

end LogServer
end RedlineDb
