import RedlineDb.SqlSession

/-!
# Statement atomicity

Nothing that a statement which returned an error has written is ever committed, as long as every
INSERT into a view runs at most one statement (`SingleStep`): such an INSERT has no write
transaction of its own, so each statement of its trigger bodies commits alone, and an error between
two of them does not mark the session's transaction as failed.

Nor does a failed statement change what a new transaction reads, as long as it takes nothing out of
reach: a row that is deleted and inserted again gets a new chain, and the rollback does not bring
the old one back (`cut`).

`Progress` is what any statement does to the database, `Clean` what a failed one leaves behind.
-/

namespace RedlineDb.Exec
open Lib Kernel ConcurrentTxStatus List
variable {K V α : Type}

/-! ### Commits when each is one step -/

/-- No CSN is under way: all that were taken are published. -/
structure CsnOk (x : ConcurrentTxStatus) : Prop where
  completed : x.completed = []
  skipped : x.skipped = []
  published : x.publishedCsn + 1 = x.nextCsn
  committed : ∀ t csn, x.state t = .committed csn → csn ≤ x.publishedCsn

namespace CsnOk
variable {x : ConcurrentTxStatus} {t : Nat}

theorem new : CsnOk .new := ⟨rfl, rfl, rfl, by simp⟩

theorem settled {y : ConcurrentTxStatus} (h : CsnOk x) (hc : y.completed = []) (hs : y.skipped = [])
    (hpub : y.publishedCsn = x.nextCsn) (hnext : y.nextCsn = x.nextCsn + 1)
    (hstate : ∀ u csn, y.state u = .committed csn → csn = x.nextCsn ∨ x.state u = .committed csn) :
    CsnOk y := by
  refine ⟨hc, hs, by rw [hpub, hnext], fun u csn hu => ?_⟩
  have := h.published
  rcases hstate u csn hu with rfl | hu
  · exact hpub.ge
  · have := h.committed u csn hu
    omega

theorem commit (h : CsnOk x) :
    CsnOk (x.reserveCommitCsn.2.publishCommit t x.reserveCommitCsn.1) := by
  have hn := h.published
  refine h.settled ?_ ?_ ?_ ?_ fun u csn hu => ?_
  iterate 4
    simp [publishCommit, unregisterActive, setState, reserveCommitCsn, completeCsn,
      advancePublishedCsn, advanceLoop,
      h.completed, h.skipped, ← hn]
  · rw [state_publishCommit] at hu
    split at hu
    · cases hu
      exact .inl rfl
    · exact .inr hu

theorem cancel (h : CsnOk x) :
    CsnOk ((x.reserveCommitCsn.2.cancelReservedCsn x.reserveCommitCsn.1).abort t) := by
  have hn := h.published
  refine h.settled ?_ ?_ ?_ ?_ fun u csn hu => ?_
  iterate 4
    simp [ConcurrentTxStatus.abort, unregisterActive, setState, cancelReservedCsn, reserveCommitCsn,
      skipCsn,
      advancePublishedCsn, advanceLoop, h.completed, h.skipped, ← hn]
  · rw [state_abort] at hu
    split at hu
    · cases hu
    · exact .inr (by simpa [cancelReservedCsn] using hu)

theorem abort (h : CsnOk x) : CsnOk (x.abort t) := by
  refine ⟨h.completed, h.skipped, h.published, fun y csn hy => ?_⟩
  simp only [state_abort] at hy
  split at hy
  · cases hy
  · exact h.committed y csn hy

theorem begin (h : CsnOk x) : CsnOk x.begin.2 := by
  refine ⟨h.completed, h.skipped, h.published, fun y csn hy => ?_⟩
  simp only [state_begin] at hy
  split at hy
  · cases hy
  · exact h.committed y csn hy

theorem isTxVisible_iff (h : CsnOk x) (t : Nat) :
    x.isTxVisible t x.snapshot none = true ↔ ∃ csn, x.state t = .committed csn := by
  simp only [isTxVisible, reduceCtorEq, if_false]
  cases hst : x.state t with
  | inProgress => simp
  | aborted => simp
  | committed csn =>
    have hle : csn ≤ x.snapshot.visibleCsn := h.committed t csn hst
    simp [hle]

end CsnOk

namespace Kernel

/-- The writer has left a version or an index entry or marker. -/
def Wrote (κ : Kernel K V) (w : Writer) : Prop :=
  ∃ k, (∃ v ∈ κ.versions k, v.tx = w) ∨ ∃ e ∈ κ.entries k, e.createTx = w ∨ e.deleteTx = some w

def Known (κ : Kernel K V) : Prop := ∀ w, κ.Wrote w → w.tx < κ.txs.nextTx

/-- A transaction that begins now finds the same rows and index entries. -/
def SameCommitted (κ κ' : Kernel K V) : Prop :=
  ∀ k, κ'.committed k = κ.committed k ∧ κ'.committedEntries k = κ.committedEntries k

variable {κ κ' κ'' : Kernel K V} {w x : Writer} {t stmt : Nat}

theorem SameCommitted.refl : SameCommitted κ κ := fun _ => ⟨rfl, rfl⟩

theorem SameCommitted.trans (h : SameCommitted κ κ') (h' : SameCommitted κ' κ'') :
    SameCommitted κ κ'' :=
  fun k => ⟨(h' k).1.trans (h k).1, (h' k).2.trans (h k).2⟩

theorem SameCommitted.of_commits (hversions : κ'.versions = κ.versions)
    (hentries : κ'.entries = κ.entries)
    (h : ∀ w, κ.Wrote w → κ'.commits w = κ.commits w) : SameCommitted κ κ' := by
  refine fun k => ⟨?_, ?_⟩
  · rw [committed, committed, read, read, hversions]
    exact newest_congr fun v hv => h _ ⟨k, .inl ⟨v, hv, rfl⟩⟩
  · rw [committedEntries, committedEntries, hentries]
    refine countP_congr fun e he => ?_
    have hcreate := h _ ⟨k, .inr ⟨e, he, .inl rfl⟩⟩
    cases hd : e.deleteTx with
    | none => simp [IndexEntry.visible, hcreate, hd]
    | some d => simp [IndexEntry.visible, hcreate, hd, h _ ⟨k, .inr ⟨e, he, .inr hd⟩⟩]

theorem commits_inProgress (hcsn : CsnOk κ.txs) (hin : κ.txs.state w.tx = .inProgress) :
    κ.commits w = false := by
  rw [commits, ← Bool.not_eq_true, hcsn.isTxVisible_iff]
  simp [hin]

/-- Commits are one step each, so what is visible to a new transaction is what is committed. -/
theorem SameCommitted.of_states (hversions : κ'.versions = κ.versions)
    (hentries : κ'.entries = κ.entries)
    (hcsn : CsnOk κ.txs) (hcsn' : CsnOk κ'.txs)
    (h : ∀ w, κ.Wrote w → κ'.txs.state w.tx = κ.txs.state w.tx ∨
      κ'.txs.state w.tx = .aborted ∧ κ.txs.state w.tx = .inProgress) : SameCommitted κ κ' := by
  refine .of_commits hversions hentries fun w hw => ?_
  rw [commits, commits, Bool.eq_iff_iff, hcsn.isTxVisible_iff, hcsn'.isTxVisible_iff]
  rcases h w hw with h | ⟨h, h'⟩
  · rw [h]
  · simp [h, h']

/-! ### The end of a transaction -/

structure Ends (t : Nat) (κ κ' : Kernel K V) : Prop where
  versions : κ'.versions = κ.versions
  entries : κ'.entries = κ.entries
  cut : κ'.cut = κ.cut
  nextTx : κ'.txs.nextTx = κ.txs.nextTx
  states : ∀ x, x ≠ t → κ'.txs.state x = κ.txs.state x
  csn : CsnOk κ.txs → CsnOk κ'.txs

theorem Ends.wrote (h : Ends t κ κ') : κ'.Wrote w ↔ κ.Wrote w := by
  rw [Wrote, Wrote, h.versions, h.entries]

theorem Ends.same (h : Ends t κ κ') (hcsn : CsnOk κ.txs) (hin : κ.txs.state t = .inProgress)
    (haborted : κ'.txs.state t = .aborted) : SameCommitted κ κ' := by
  refine .of_states h.versions h.entries hcsn (h.csn hcsn) fun w _ => ?_
  by_cases hw : w.tx = t
  · rw [hw]
    exact .inr ⟨haborted, hin⟩
  · exact .inl (h.states _ hw)

theorem ends_rollback : Ends t κ (κ.rollback t) :=
  ⟨rfl, rfl, rfl, rfl, fun x hx => by simp [rollback, releaseLocks, hx], fun h => h.abort⟩

theorem ends_dropTxn : Ends t κ (κ.dropTxn t) :=
  ⟨rfl, rfl, rfl, rfl, fun x hx => by simp [dropTxn, hx], fun h => h.abort⟩

theorem ends_commit (κ : Kernel K V) (t : Nat) : Ends t κ (κ.commit t).2 := by
  have hpublish : Ends t κ ({ κ with
      txs := κ.txs.reserveCommitCsn.2.publishCommit t κ.txs.reserveCommitCsn.1
      outcomes := κ.outcomes.tail }.releaseLocks t) :=
    ⟨rfl, rfl, rfl, nextTx_completeCsn _ _, fun x hx => by simp [releaseLocks, hx],
      fun h => h.commit⟩
  unfold commit
  dsimp only
  split
  · exact hpublish
  · exact hpublish
  · exact ⟨rfl, rfl, rfl, nextTx_skipCsn _ _, fun x hx => by
      simp [releaseLocks, cancelReservedCsn, hx],
      fun h => h.cancel⟩

theorem state_rollback : (κ.rollback t).txs.state t = .aborted := by simp [rollback, releaseLocks]

theorem state_dropTxn : (κ.dropTxn t).txs.state t = .aborted := by simp [dropTxn]

theorem state_commit (h : (κ.commit t).1 ≠ .committed) (h' : (κ.commit t).1 ≠ .maybeCommitted) :
    (κ.commit t).2.txs.state t = .aborted := by
  cases ho : κ.outcomes.headD .committed with
  | committed => exact absurd (by simp only [commit, ho]) h
  | maybeCommitted => exact absurd (by simp only [commit, ho]) h'
  | rolledBack | failed e =>
    simp only [commit, ho, releaseLocks]
    exact (state_abort ..).trans (if_pos rfl)

/-! ### What row-level code does to the kernel -/

structure Adds (w : Writer) (κ κ' : Kernel K V) : Prop where
  txs : κ'.txs = κ.txs
  wrote : ∀ x, κ'.Wrote x → κ.Wrote x ∨ x = w
  cut : κ.cut <:+ κ'.cut
  same : κ.commits w = false → κ'.cut = κ.cut → SameCommitted κ κ'

theorem Adds.of_eq (htxs : κ'.txs = κ.txs) (hversions : κ'.versions = κ.versions)
    (hentries : κ'.entries = κ.entries)
    (hcut : κ'.cut = κ.cut) : Adds w κ κ' := by
  refine ⟨htxs, fun x hx => .inl ?_, hcut ▸ suffix_refl _, fun _ _ => .of_commits hversions hentries
    fun w _ => ?_⟩
  · rwa [Wrote, hversions, hentries] at hx
  · rw [commits, commits, htxs]

theorem Adds.refl : Adds w κ κ := .of_eq rfl rfl rfl rfl

theorem Adds.trans (h : Adds w κ κ') (h' : Adds w κ' κ'') : Adds w κ κ'' := by
  refine ⟨h'.txs.trans h.txs, fun x hx => (h'.wrote x hx).elim (h.wrote x) .inr, h.cut.trans h'.cut,
    fun hw hcut => ?_⟩
  have hcut' : κ'.cut = κ.cut := (h.cut.eq_of_length_le (hcut ▸ h'.cut.length_le)).symm
  have hw' : κ'.commits w = false := by rw [commits, h.txs]; exact hw
  exact (h.same hw hcut').trans (h'.same hw' (hcut.trans hcut'.symm))

theorem suffix_cutAt {k : K} {b : Bool} : κ.cut <:+ κ.cutAt k b := by
  unfold cutAt
  split
  · exact suffix_cons k κ.cut
  · exact suffix_refl _

theorem not_cut {k : K} {b : Bool} (h : κ.cutAt k b = κ.cut) : b = false := by
  cases b with
  | false => rfl
  | true => exact absurd (congrArg length h) (by simp [cutAt])

section
variable [LinearOrder K]

/-- The versions of one row are changed. -/
theorem Adds.of_versions {k : K} {l : List (Version V)} {keys cut : List K}
    (hl : ∀ v ∈ l, v ∈ κ.versions k ∨ v.tx = w)
    (hcut : κ.cut <:+ cut)
    (hsame : κ.commits w = false → cut = κ.cut →
      newest κ.commits l = newest κ.commits (κ.versions k)) :
    Adds w κ { κ with versions := Function.update κ.versions k l, keys, cut } := by
  refine ⟨rfl, ?_, hcut, fun hw hc k' => ⟨?_, rfl⟩⟩
  · rintro x ⟨k', ⟨v, hv, rfl⟩ | he⟩
    · by_cases hk : k' = k
      · subst hk
        exact (hl v (by simpa using hv)).imp_left fun hv => ⟨k', .inl ⟨v, hv, rfl⟩⟩
      · exact .inl ⟨k', .inl ⟨v, by simpa [hk] using hv, rfl⟩⟩
    · exact .inl ⟨k', .inr he⟩
  · show newest κ.commits (Function.update κ.versions k l k') = newest κ.commits (κ.versions k')
    by_cases hk : k' = k
    · rw [hk, Function.update_self, hsame hw hc]
    · rw [Function.update_of_ne hk]

/-- The index entries of one key are changed. -/
theorem Adds.of_entries {k : K} {l : List IndexEntry} {keys cut : List K}
    (hl : ∀ e ∈ l, ∀ x, e.createTx = x ∨ e.deleteTx = some x → κ.Wrote x ∨ x = w)
    (hcut : κ.cut <:+ cut)
    (hsame : κ.commits w = false → cut = κ.cut →
      l.countP (·.visible κ.commits) = (κ.entries k).countP (·.visible κ.commits)) :
    Adds w κ { κ with entries := Function.update κ.entries k l, keys, cut } := by
  refine ⟨rfl, ?_, hcut, fun hw hc k' => ⟨rfl, ?_⟩⟩
  · rintro x ⟨k', hv | ⟨e, he, hx⟩⟩
    · exact .inl ⟨k', .inl hv⟩
    · by_cases hk : k' = k
      · subst hk
        exact hl e (by simpa using he) x hx
      · exact .inl ⟨k', .inr ⟨e, by simpa [hk] using he, hx⟩⟩
  · show (Function.update κ.entries k l k').countP (·.visible κ.commits) = (κ.entries k').countP
        (·.visible κ.commits)
    by_cases hk : k' = k
    · rw [hk, Function.update_self, hsame hw hc]
    · rw [Function.update_of_ne hk]

theorem adds_write (k : K) (value : Option V) : Adds ⟨t, stmt⟩ κ (κ.write t stmt k value) := by
  refine .of_versions (fun v hv => ?_) (suffix_refl _) fun hw _ => ?_
  · exact (mem_cons.1 hv).symm.imp_right fun hv => by rw [hv]
  · rw [newest, hw]
    rfl

theorem adds_insert (k : K) (value : V) : Adds ⟨t, stmt⟩ κ (κ.insert t stmt k value) := by
  refine .of_versions (fun v hv => .inr ?_) suffix_cutAt fun hw hcut => ?_
  · rw [mem_singleton.1 hv]
  · -- there was no committed row to lose
    have hnone : κ.committed k = none := by simpa using not_cut hcut
    rw [newest, hw]
    exact hnone.symm

theorem adds_insertEntry (unique : Bool) (pos : Nat) (k : K) :
    Adds ⟨t, stmt⟩ κ (κ.insertEntry t stmt unique pos k).2 := by
  unfold insertEntry
  split
  · exact .refl
  · refine .of_entries (fun e he x hx => ?_) (suffix_refl _) fun hw _ => ?_
    · rcases mem_append.1 he with he | he
      · exact .inl ⟨k, .inr ⟨e, mem_of_mem_take he, hx⟩⟩
      · rcases mem_cons.1 he with rfl | he
        · exact .inr (by simpa [eq_comm] using hx)
        · exact .inl ⟨k, .inr ⟨e, mem_of_mem_drop he, hx⟩⟩
    · rw [countP_append, countP_cons_of_neg (by simp [IndexEntry.visible, hw]), ← countP_append,
        take_append_drop]

theorem adds_deleteEntry (k : K) : Adds ⟨t, stmt⟩ κ (κ.deleteEntry t stmt k) := by
  unfold deleteEntry
  split
  · exact .refl
  next e rest he =>
    split
    · exact .refl
    · refine .of_entries (fun e' he' x hx => ?_) suffix_cutAt fun hw hcut => ?_
      · rcases mem_cons.1 he' with rfl | he'
        · rcases hx with rfl | hx
          · exact .inl ⟨k, .inr ⟨e, he ▸ mem_cons_self, .inl rfl⟩⟩
          · exact .inr (Option.some.inj hx).symm
        · exact .inl ⟨k, .inr ⟨e', he ▸ mem_cons_of_mem _ he', hx⟩⟩
      · -- the marker that is replaced hid the entry from nobody who begins now
        have hold := not_cut hcut
        rw [he, countP_cons, countP_cons]
        simp [IndexEntry.visible, hw, hold]

theorem adds_lockFor (key : LockKey K) : Adds w κ (κ.lockFor t key).2 := by
  unfold lockFor
  split
  · exact .of_eq rfl rfl rfl rfl
  · split <;> exact .refl

theorem adds_modify (k : K) (value : Option V) : Adds ⟨t, stmt⟩ κ (κ.modify t stmt k value).2 := by
  have hlock : Adds ⟨t, stmt⟩ κ (κ.lockFor t (.row k)).2 := adds_lockFor _
  unfold modify
  split
  case h_1 e κ1 h => rw [h] at hlock; exact hlock
  case h_2 κ1 h =>
    rw [h] at hlock
    split
    · exact hlock
    · exact hlock.trans (adds_write k value)

end
end Kernel

section calls
variable [LinearOrder K]

theorem handle_adds (t stmt : Nat) (s : Kernel K V × Vars) (c : Call K V) :
    Adds ⟨t, stmt⟩ s.1 (handle t stmt s c).2.1 := by
  cases c with
  | lock k => exact adds_lockFor _
  | lockUnique k => exact adds_lockFor _
  | insert k v => exact adds_insert k v
  | update k v => exact adds_modify k (some v)
  | delete k => exact adds_modify k none
  | insertEntry unique pos k => exact adds_insertEntry unique pos k
  | deleteEntry k => exact adds_deleteEntry k
  | _ => exact .of_eq rfl rfl rfl rfl

theorem run_adds (t stmt : Nat) (f : RowProg K V α) (s : Kernel K V × Vars) :
    Adds ⟨t, stmt⟩ s.1 (f.run (handle t stmt) s).2.1 :=
  f.calls_true.run_invariant (I := fun s' => Adds ⟨t, stmt⟩ s.1 s'.1)
    (fun s' c _ h => h.trans (handle_adds t stmt s' c)) .refl

/-- Code that only reads changes nothing but the source of random numbers. -/
theorem run_reads {f : RowProg K V α} (hf : f.Calls Call.IsRead) (t stmt : Nat)
    (s : Kernel K V × Vars) :
    ∃ r, (f.run (handle t stmt) s).2 = ({ s.1 with random := r }, s.2) :=
  hf.run_invariant (I := fun s' : Kernel K V × Vars => ∃ r, s' = ({ s.1 with random := r }, s.2))
    (fun s' c hc h => by
      obtain ⟨r, rfl⟩ := h
      cases c with
      | random => exact ⟨_, rfl⟩
      | _ => first | exact ⟨r, rfl⟩ | exact hc.elim) ⟨s.1.random, rfl⟩

end calls

/-! ### Sessions -/

structure Session.Kept (s s' : Session K V) : Prop where
  journal : s'.journal = s.journal
  replaying : s'.replaying = s.replaying
  failed : s.failed = true → s'.failed = true
  tx : s.tx = none → s'.tx = none

namespace Session.Kept
variable {s s' s'' : Session K V}

theorem refl : Kept s s := ⟨rfl, rfl, id, id⟩

theorem trans (h : Kept s s') (h' : Kept s' s'') : Kept s s'' :=
  ⟨h'.journal.trans h.journal, h'.replaying.trans h.replaying, fun hf => h'.failed (h.failed hf),
    fun hn => h'.tx (h.tx hn)⟩

end Session.Kept

namespace Db

structure Only (c : Nat) (db db' : Db K V) : Prop where
  others : ∀ d, d ≠ c → db'.sessions d = db.sessions d
  stmt : db'.stmt = db.stmt
  failedStmts : db'.failedStmts = db.failedStmts

structure Progress (c : Nat) (db db' : Db K V) : Prop extends Only c db db' where
  session : (db.sessions c).Kept (db'.sessions c)
  nextTx : db.kernel.txs.nextTx ≤ db'.kernel.txs.nextTx
  csn : CsnOk db.kernel.txs → CsnOk db'.kernel.txs
  cut : db.kernel.cut <:+ db'.kernel.cut
  wrote : ∀ w, db'.kernel.Wrote w → db.kernel.Wrote w ∨ w.stmt = db.stmt ∧
    w.tx < db'.kernel.txs.nextTx
  states : ∀ x, x < db.kernel.txs.nextTx → (db.sessions c).tx ≠ some x →
    db'.kernel.txs.state x = db.kernel.txs.state x
  /-- The session keeps its transaction, or has lost it and the transaction is aborted. -/
  tx : (db'.sessions c).tx = (db.sessions c).tx ∧
      (∀ t, (db.sessions c).tx = some t → db'.kernel.txs.state t = db.kernel.txs.state t) ∨
    (db'.sessions c).tx = none ∧ ∀ t, (db.sessions c).tx = some t →
    db'.kernel.txs.state t = .aborted

def TxOk (c : Nat) (db : Db K V) : Prop :=
  ∀ t, (db.sessions c).tx = some t → t < db.kernel.txs.nextTx ∧ db.kernel.txs.state t = .inProgress

structure Sound (c : Nat) (db : Db K V) : Prop where
  known : db.kernel.Known
  tx : TxOk c db
  csn : CsnOk db.kernel.txs

/-- What a failed statement leaves behind: writes of aborted transactions, or of the session's
transaction, which then cannot be committed any more. -/
structure Clean (c : Nat) (db db' : Db K V) : Prop where
  sequences : db'.sequences = db.sequences
  wrote : ∀ w, db'.kernel.Wrote w → db.kernel.Wrote w ∨ db'.kernel.txs.state w.tx = .aborted ∨
    (db'.sessions c).tx = some w.tx ∧ (db'.sessions c).failed = true
  same : db'.kernel.cut = db.kernel.cut → SameCommitted db.kernel db'.kernel

variable {c : Nat} {db db' db'' : Db K V}

@[simp] theorem sessions_setSession_self (s : Session K V) :
    (db.setSession c s).sessions c = s := by
  simp [setSession]

theorem sessions_setSession_ne {d : Nat} (hd : d ≠ c) (s : Session K V) :
    (db.setSession c s).sessions d = db.sessions d := by
  simp [setSession, hd]

namespace Only

theorem refl : Only c db db := ⟨fun _ _ => rfl, rfl, rfl⟩

theorem trans (h : Only c db db') (h' : Only c db' db'') : Only c db db'' :=
  ⟨fun d hd => (h'.others d hd).trans (h.others d hd), h'.stmt.trans h.stmt,
    h'.failedStmts.trans h.failedStmts⟩

theorem setSession (h : Only c db db') (s : Session K V) : Only c db (db'.setSession c s) :=
  h.trans ⟨fun _ hd => sessions_setSession_ne hd s, rfl, rfl⟩

end Only

namespace Progress

theorem refl : Progress c db db :=
  ⟨.refl, .refl, le_rfl, id, suffix_refl _, fun _ => .inl, fun _ _ _ => rfl,
    .inl ⟨rfl, fun _ _ => rfl⟩⟩

theorem tx_some (h : Progress c db db') {x : Nat} (hx : (db'.sessions c).tx = some x) :
    (db.sessions c).tx = some x := by
  rcases h.tx with ⟨heq, _⟩ | ⟨hnone, _⟩
  · rwa [← heq]
  · simp [hnone] at hx

theorem tx_none (h : Progress c db db') (htx : (db.sessions c).tx = none) :
    (db'.sessions c).tx = none := by
  rcases h.tx with ⟨heq, _⟩ | ⟨hnone, _⟩
  · rw [heq, htx]
  · exact hnone

theorem sound (h : Progress c db db') (hok : Sound c db) : Sound c db' where
  known w hw := by
    rcases h.wrote w hw with hw | ⟨-, hlt⟩
    · exact (hok.known w hw).trans_le h.nextTx
    · exact hlt
  tx t ht := by
    rcases h.tx with ⟨heq, hstate⟩ | ⟨hnone, _⟩
    · rw [heq] at ht
      obtain ⟨hlt, hin⟩ := hok.tx t ht
      exact ⟨hlt.trans_le h.nextTx, by rw [hstate t ht, hin]⟩
    · rw [hnone] at ht
      cases ht
  csn := h.csn hok.csn

theorem trans (h : Progress c db db') (h' : Progress c db' db'') (hok : Sound c db) :
    Progress c db db'' where
  toOnly := h.toOnly.trans h'.toOnly
  session := h.session.trans h'.session
  nextTx := h.nextTx.trans h'.nextTx
  csn hc := h'.csn (h.csn hc)
  cut := h.cut.trans h'.cut
  wrote w hw := by
    rcases h'.wrote w hw with hw | ⟨hs, hlt⟩
    · exact (h.wrote w hw).imp_right fun hw => ⟨hw.1, hw.2.trans_le h'.nextTx⟩
    · exact .inr ⟨hs.trans h.stmt, hlt⟩
  states x hx hne := (h'.states x (hx.trans_le h.nextTx) (mt h.tx_some hne)).trans
    (h.states x hx hne)
  tx := by
    rcases h.tx with ⟨heq, hstate⟩ | ⟨hnone, hab⟩
    · rcases h'.tx with ⟨heq', hstate'⟩ | ⟨hnone', hab'⟩
      · exact .inl ⟨heq'.trans heq, fun t ht => (hstate' t (heq.trans ht)).trans (hstate t ht)⟩
      · exact .inr ⟨hnone', fun t ht => hab' t (heq.trans ht)⟩
    · refine .inr ⟨h'.tx_none hnone, fun t ht => ?_⟩
      rw [h'.states t ((hok.tx t ht).1.trans_le h.nextTx) (by simp [hnone]), hab t ht]

theorem cut_eq (h : Progress c db db') (h' : Progress c db' db'')
    (hcut : db''.kernel.cut = db.kernel.cut) :
    db'.kernel.cut = db.kernel.cut :=
  (h.cut.eq_of_length_le (hcut ▸ h'.cut.length_le)).symm

end Progress

theorem Clean.of_same (hsequences : db'.sequences = db.sequences)
    (hwrote : ∀ w, db'.kernel.Wrote w → db.kernel.Wrote w)
    (hsame : SameCommitted db.kernel db'.kernel) : Clean c db db' :=
  ⟨hsequences, fun w hw => .inl (hwrote w hw), fun _ => hsame⟩

theorem Clean.refl : Clean c db db := .of_same rfl (fun _ => id) .refl

theorem Clean.trans (h : Clean c db db') (h' : Clean c db' db'') (hp : Progress c db db')
    (hp' : Progress c db' db'')
    (hok : Sound c db') : Clean c db db'' := by
  refine ⟨h'.sequences.trans h.sequences, fun w hw => ?_, fun hcut => ?_⟩
  · rcases h'.wrote w hw with hw | hw
    · rcases h.wrote w hw with hold | haborted | ⟨htx, hfailed⟩
      · exact .inl hold
      · have hne : (db'.sessions c).tx ≠ some w.tx := by
          intro htx
          rw [(hok.tx _ htx).2] at haborted
          cases haborted
        exact .inr (.inl ((hp'.states _ (hok.known w hw) hne).trans haborted))
      · rcases hp'.tx with ⟨heq, _⟩ | ⟨_, hab⟩
        · exact .inr (.inr ⟨heq.trans htx, hp'.session.failed hfailed⟩)
        · exact .inr (.inl (hab _ htx))
    · exact .inr hw
  · have hcut' := hp.cut_eq hp' hcut
    exact (h.same hcut').trans (h'.same (hcut.trans hcut'.symm))

theorem progress_setSession {s : Session K V} (htx : s.tx = (db.sessions c).tx)
    (hkept : (db.sessions c).Kept s) :
    Progress c db (db.setSession c s) where
  toOnly := Only.refl.setSession s
  session := by rwa [sessions_setSession_self]
  nextTx := le_rfl
  csn := id
  cut := suffix_refl _
  wrote _ := .inl
  states _ _ _ := rfl
  tx := .inl ⟨by simpa using htx, fun _ _ => rfl⟩

structure Within (c t : Nat) (db db' : Db K V) : Prop extends Only c db db' where
  adds : Adds ⟨t, db.stmt⟩ db.kernel db'.kernel
  session : ∃ vars, db'.sessions c = { db.sessions c with vars }
  sequences : db'.sequences = db.sequences

namespace Within
variable {t : Nat}

theorem trans (h : Within c t db db') (h' : Within c t db' db'') : Within c t db db'' := by
  obtain ⟨vars, hs⟩ := h.session
  obtain ⟨vars', hs'⟩ := h'.session
  exact ⟨h.toOnly.trans h'.toOnly, h.adds.trans (h.stmt ▸ h'.adds), ⟨vars', by rw [hs', hs]⟩,
    h'.sequences.trans h.sequences⟩

theorem of_setVars (vars : Vars) : Within c t db (db.setVars c vars) :=
  ⟨Only.refl.setSession _, .refl, ⟨vars, sessions_setSession_self _⟩, rfl⟩

theorem of_runIn [LinearOrder K] (db : Db K V) (c t : Nat) (f : RowProg K V α) :
    Within c t db (db.runIn c t f).2 :=
  ⟨{ (Only.refl.setSession _) with }, run_adds t db.stmt f (db.kernel, (db.sessions c).vars),
    ⟨_, sessions_setSession_self _⟩, rfl⟩

theorem of_drainDeferred [LinearOrder K] (schema : Schema K V) (db : Db K V) (c t : Nat) :
    Within c t db (db.drainDeferred schema c t).2 := by
  unfold drainDeferred
  split
  · exact (of_setVars _).trans (of_runIn ..)
  · exact of_setVars _

section
variable (h : Within c t db db')
include h

theorem tx : (db'.sessions c).tx = (db.sessions c).tx := by
  obtain ⟨vars, hs⟩ := h.session
  rw [hs]

theorem replaying : (db'.sessions c).replaying = (db.sessions c).replaying := by
  obtain ⟨vars, hs⟩ := h.session
  rw [hs]

theorem kept {vars : Vars} {txSequences : Option (Nat → Option Nat)} :
    (db.sessions c).Kept { db'.sessions c with txSequences, vars } := by
  obtain ⟨vars1, hs⟩ := h.session
  rw [hs]
  exact ⟨rfl, rfl, id, id⟩

theorem progress (ht : (db.sessions c).tx = some t) (hok : Sound c db) : Progress c db db' where
  toOnly := h.toOnly
  session := h.kept
  nextTx := by rw [h.adds.txs]
  csn := by rw [h.adds.txs]; exact id
  cut := h.adds.cut
  wrote w hw := by
    refine (h.adds.wrote w hw).imp_right fun hw => ?_
    rw [hw, h.adds.txs]
    exact ⟨rfl, (hok.tx t ht).1⟩
  states x _ _ := by rw [h.adds.txs]
  tx := .inl ⟨h.tx, fun x _ => by rw [h.adds.txs]⟩

end
end Within

theorem same_begin {κ : Kernel K V} (hknown : κ.Known) (hcsn : CsnOk κ.txs)
    (isolation : Isolation) :
    SameCommitted κ (κ.begin isolation) :=
  .of_states rfl rfl hcsn hcsn.begin fun w hw =>
    .inl ((state_begin _ _).trans (if_neg (hknown w hw).ne))

/-! ### A transaction of its own, of a session that is in none: begun, used and ended -/

section
variable {isolation : Isolation} {κ : Kernel K V}
  (hadds : Adds ⟨db.kernel.nextTx, db.stmt⟩ (db.kernel.begin isolation) κ)
  (hends : Ends db.kernel.nextTx κ db'.kernel)
include hadds hends

theorem progress_attempt (honly : Only c db db') (htx : (db.sessions c).tx = none)
    (hkept : (db.sessions c).Kept (db'.sessions c)) : Progress c db db' := by
  have hnext : db'.kernel.txs.nextTx = db.kernel.txs.nextTx + 1 := by
    rw [hends.nextTx, hadds.txs]
    rfl
  refine ⟨honly, hkept, by omega, fun h => ?_, hends.cut ▸ hadds.cut, fun w hw => ?_,
    fun x hx _ => ?_,
    .inl ⟨(hkept.tx htx).trans htx.symm, fun x hx => by simp [htx] at hx⟩⟩
  · apply hends.csn
    rw [hadds.txs]
    exact h.begin
  · refine (hadds.wrote w (hends.wrote.1 hw)).imp_right ?_
    rintro rfl
    exact ⟨rfl, hnext ▸ Nat.lt_succ_self _⟩
  · have hne : x ≠ db.kernel.nextTx := hx.ne
    rw [hends.states x hne, hadds.txs]
    exact (state_begin _ _).trans (if_neg hne)

theorem clean_attempt (hok : Sound c db) (hsequences : db'.sequences = db.sequences)
    (haborted : db'.kernel.txs.state db.kernel.nextTx = .aborted) : Clean c db db' := by
  have hin : (db.kernel.begin isolation).txs.state db.kernel.nextTx = .inProgress :=
    (state_begin _ _).trans (if_pos rfl)
  refine ⟨hsequences, fun w hw => ?_, fun hcut => ?_⟩
  · refine (hadds.wrote w (hends.wrote.1 hw)).imp_right ?_
    rintro rfl
    exact .inl haborted
  · have hran := hadds.same (commits_inProgress hok.csn.begin hin) (hends.cut.symm.trans hcut)
    exact ((same_begin hok.known hok.csn isolation).trans hran).trans
      (hends.same (hadds.txs ▸ hok.csn.begin) (by rw [hadds.txs]; exact hin) haborted)

end

/-- An uncertain commit is not a failure. -/
structure Atomic (c : Nat) (db : Db K V) (out : Except Error α × Db K V) : Prop where
  progress : Progress c db out.2
  clean : ∀ e, out.1 = .error e → e ≠ .commitMaybeCommitted → Clean c db out.2

theorem Atomic.ok {value : α} (h : Progress c db db') : Atomic c db (.ok value, db') := ⟨h, nofun⟩

theorem Atomic.error {e : Error} (h : Progress c db db')
    (hc : e ≠ .commitMaybeCommitted → Clean c db db') :
    Atomic c db ((.error e, db') : Except Error α × Db K V) :=
  ⟨h, fun _ he => Except.error.inj he ▸ hc⟩

theorem Atomic.refused {e : Error} : Atomic c db ((.error e, db) : Except Error α × Db K V) :=
  .error .refl fun _ => .refl

theorem Atomic.after {out : Except Error α × Db K V} (ho : Atomic c db' out)
    (hp : Progress c db db')
    (hc : Clean c db db') (hok : Sound c db) : Atomic c db out :=
  ⟨hp.trans ho.progress hok, fun e he hne => hc.trans (ho.clean e he hne) hp ho.progress
    (hp.sound hok)⟩

/-! ### `with_write_tx` -/

section write
variable (schema : Schema K V) {before : Vars} {db1 : Db K V} {value : α}

section attempt
variable (hok : Sound c db) (htx : (db.sessions c).tx = none)
  (h : Within c db.kernel.nextTx (db.begin .readCommitted) db1)
include hok htx h

theorem abandon_attempt (e : Error) :
    Atomic c db ((.error e, db1.abandon c db.kernel.nextTx before) : Except Error α × Db K V) := by
  have hends : Ends db.kernel.nextTx db1.kernel (db1.abandon c db.kernel.nextTx before).kernel :=
    ends_rollback
  have hkept : (db.sessions c).Kept ((db1.abandon c db.kernel.nextTx before).sessions c) := by
    simp only [abandon, sessions_setSession_self]
    exact h.kept
  exact .error (progress_attempt h.adds hends { (h.toOnly.setSession _) with } htx hkept)
    fun _ => clean_attempt h.adds hends hok h.sequences state_rollback

theorem commitAttempt_atomic : Atomic c db (db1.commitAttempt c db.kernel.nextTx before value) := by
  have hends := ends_commit db1.kernel db.kernel.nextTx
  have haborted : (db1.kernel.commit db.kernel.nextTx).1 ≠ .committed →
    (db1.kernel.commit db.kernel.nextTx).1 ≠ .maybeCommitted → _ := state_commit
  unfold commitAttempt
  split
  case h_1 κ hc =>
    rw [hc] at hends
    refine .ok (progress_attempt h.adds hends { (h.toOnly.setSession _) with } htx ?_)
    rw [sessions_setSession_self]
    exact h.kept
  case h_2 outcome κ hout hc =>
    rw [hc] at hends haborted
    refine .error (progress_attempt h.adds hends { (h.toOnly.setSession _) with } htx ?_) fun he =>
      clean_attempt h.adds hends hok h.sequences (haborted hout ?_)
    · rw [sessions_setSession_self]
      exact h.kept
    · rintro rfl
      exact he rfl

theorem finishAttempt_atomic [LinearOrder K] :
    Atomic c db (db1.finishAttempt schema c db.kernel.nextTx before value) := by
  have hdrain := h.trans (Within.of_drainDeferred schema db1 c db.kernel.nextTx)
  unfold finishAttempt
  split
  case h_1 e db2 hd => rw [hd] at hdrain; exact abandon_attempt hok htx hdrain e
  case h_2 db2 hd => rw [hd] at hdrain; exact commitAttempt_atomic hok htx hdrain

end attempt

variable [LinearOrder K]

/-- `with_write_tx` outside a transaction: by induction on the retries left. -/
theorem autocommitLoop_atomic (before : Vars) (f : RowProg K V α) (retries : Nat) (hok : Sound c db)
    (htx : (db.sessions c).tx = none) :
    Atomic c db (autocommitLoop schema c before f retries db) := by
  induction retries generalizing db with
  | zero =>
    have hrun := Within.of_runIn (db.begin .readCommitted) c db.kernel.nextTx f
    rw [autocommitLoop]
    dsimp only
    split
    case h_1 value db1 h => rw [h] at hrun; exact finishAttempt_atomic schema hok htx hrun
    case h_2 e db1 h => rw [h] at hrun; exact abandon_attempt hok htx hrun e
  | succ retries ih =>
    have hrun := Within.of_runIn (db.begin .readCommitted) c db.kernel.nextTx f
    rw [autocommitLoop]
    dsimp only
    split
    case h_1 value db1 h => rw [h] at hrun; exact finishAttempt_atomic schema hok htx hrun
    case h_2 e db1 h =>
      rw [h] at hrun
      have hfirst : Atomic c db
          ((.error e, db1.abandon c db.kernel.nextTx before) : Except Error α × Db K V) :=
        abandon_attempt hok htx hrun e
      split
      · -- the abandoned attempt, then the rest of the loop
        next hretry =>
        have hp := hfirst.progress
        have hne : e ≠ .commitMaybeCommitted := by
          rintro rfl
          cases hretry
        exact (ih (hp.sound hok) (hp.tx_none htx)).after hp (hfirst.clean e rfl hne) hok
      · exact hfirst

theorem withWriteTx_atomic (f : RowProg K V α) (hok : Sound c db) :
    Atomic c db (db.withWriteTx schema c f) := by
  unfold withWriteTx
  dsimp only
  split
  · exact .refused
  · split
    case h_1 t ht =>
      have hrun := Within.of_runIn db c t f
      have hp := hrun.progress ht hok
      split
      case h_1 value db1 h => rw [h] at hp; exact .ok hp
      case h_2 e db1 h =>
        rw [h] at hp hrun
        refine .error (hp.trans (progress_setSession rfl ⟨rfl, rfl, fun _ => rfl, id⟩) hok) fun _ =>
          ⟨hrun.sequences, fun w hw => ?_, fun hcut => hrun.adds.same ?_ hcut⟩
        · refine (hrun.adds.wrote w hw).imp_right ?_
          rintro rfl
          have htx : (db1.sessions c).tx = some t := hrun.tx.trans ht
          exact .inr (by simp [htx])
        · exact commits_inProgress hok.csn (hok.tx t ht).2
    case h_2 htx =>
      have hset : Progress c db
          (db.setVars c { (db.sessions c).vars with sequences := db.sequences }) :=
        progress_setSession rfl ⟨rfl, rfl, id, id⟩
      have hloop :=
        autocommitLoop_atomic schema { (db.sessions c).vars with sequences := db.sequences } f
        autocommitWriteRetryLimit (hset.sound hok) (hset.tx_none htx)
      exact hloop.after hset (.of_same rfl (fun _ => id) .refl) hok

end write

/-! ### Queries -/

structure Reads (c : Nat) (db db' : Db K V) : Prop where
  progress : Progress c db db'
  wrote : ∀ w, db'.kernel.Wrote w → db.kernel.Wrote w
  same : SameCommitted db.kernel db'.kernel
  sequences : db'.sequences = db.sequences

theorem Reads.clean (h : Reads c db db') : Clean c db db' := .of_same h.sequences h.wrote h.same

theorem Reads.error {e : Error} (h : Reads c db db') :
    Atomic c db ((.error e, db') : Except Error α × Db K V) :=
  .error h.progress fun _ => h.clean

theorem Reads.then {out : Except Error α × Db K V} (h : Reads c db db') (ho : Atomic c db' out)
    (hok : Sound c db) :
    Atomic c db out := ho.after h.progress h.clean hok

theorem Reads.trans (h : Reads c db db') (h' : Reads c db' db'') (hok : Sound c db) :
    Reads c db db'' :=
  ⟨h.progress.trans h'.progress hok, fun w hw => h.wrote w (h'.wrote w hw), h.same.trans h'.same,
    h'.sequences.trans h.sequences⟩

theorem progress_recordRowChanges (n : Nat) : Progress c db (db.recordRowChanges c n) :=
  progress_setSession rfl ⟨rfl, rfl, id, id⟩

theorem reads_dropTxn {t : Nat} (ht : (db.sessions c).tx = some t) (hok : Sound c db) : Reads c db
    ({ db with kernel := db.kernel.dropTxn t }.setSession c { db.sessions c with tx := none }) where
  progress := {
    toOnly := { (Only.refl.setSession { db.sessions c with tx := none }) with }
    session := by
      rw [sessions_setSession_self]
      exact ⟨rfl, rfl, id, fun _ => rfl⟩
    nextTx := le_rfl
    csn := fun h => h.abort
    cut := suffix_refl _
    wrote := fun _ => .inl
    states := fun x _ hne => ends_dropTxn.states x fun h => hne (h ▸ ht)
    tx := .inr ⟨by simp, fun x hx => by
      have hxt : t = x := by simpa [ht] using hx
      exact hxt ▸ state_dropTxn⟩ }
  wrote _ := id
  same := ends_dropTxn.same hok.csn (hok.tx t ht).2 state_dropTxn
  sequences := rfl

theorem each_atomic {β : Type} {f : Db K V → β → Except Error Unit × Db K V} {l : List β}
    (hl : l.length ≤ 1)
    (hf : ∀ b ∈ l, Atomic c db (f db b)) : Atomic c db (each f l db) := by
  match l, hl with
  | [], _ => exact .ok .refl
  | [b], _ =>
    have h := hf b (by simp)
    simp only [each]
    split
    case h_1 u db' hb => rw [hb] at h; exact .ok h.progress
    case h_2 e db' hb => rw [hb] at h; exact .error h.progress (h.clean e rfl)

section execute
variable [LinearOrder K] (schema : Schema K V)

theorem Within.reads {t : Nat} {f : RowProg K V α} (hf : f.Calls Call.IsRead)
    (ht : (db.sessions c).tx = some t)
    (hok : Sound c db) : Reads c db (db.runIn c t f).2 := by
  obtain ⟨r, hr⟩ := run_reads hf t db.stmt (db.kernel, (db.sessions c).vars)
  have hkernel : (db.runIn c t f).2.kernel = { db.kernel with random := r } := congrArg Prod.fst hr
  exact ⟨(Within.of_runIn _ _ _ f).progress ht hok, fun w hw => by rw [hkernel] at hw; exact hw,
    by rw [hkernel]; exact .refl, rfl⟩

/-- A query in a transaction of its own. -/
theorem reads_attempt {f : RowProg K V α} {κ : Kernel K V} (hf : f.Calls Call.IsRead)
    (htx : (db.sessions c).tx = none) (hok : Sound c db)
    (hends : Ends db.kernel.nextTx ((db.begin .snapshot).runIn c db.kernel.nextTx f).2.kernel κ)
    (haborted : κ.txs.state db.kernel.nextTx = .aborted) :
    Reads c db { ((db.begin .snapshot).runIn c db.kernel.nextTx f).2 with kernel := κ } := by
  have hrun := Within.of_runIn (db.begin .snapshot) c db.kernel.nextTx f
  obtain ⟨r, hr⟩ :=
    run_reads hf db.kernel.nextTx db.stmt ((db.begin .snapshot).kernel, (db.sessions c).vars)
  have hkernel : ((db.begin .snapshot).runIn c db.kernel.nextTx f).2.kernel =
      { (db.begin .snapshot).kernel with random := r } := congrArg Prod.fst hr
  refine ⟨progress_attempt hrun.adds hends { hrun.toOnly with } htx hrun.kept, fun w hw => ?_, ?_,
    hrun.sequences⟩
  · have hw := hends.wrote.1 hw
    rw [hkernel] at hw
    exact hw
  · have hclean : Clean c db { db with kernel := κ } :=
      clean_attempt hrun.adds hends hok rfl haborted
    refine hclean.same ?_
    rw [hends.cut, hkernel]
    rfl

theorem runQuery_reads (q : Query K V α) (hok : Sound c db) : Reads c db (db.runQuery c q).2 := by
  unfold runQuery
  split
  case h_1 t ht =>
    have hbuild := Within.reads q.build.property ht hok
    have htx := (Within.of_runIn db c t q.build.val).tx
    split
    case h_1 e db1 h => rw [h] at hbuild; exact hbuild
    case h_2 u db1 h =>
      rw [h] at hbuild htx
      have ht1 : (db1.sessions c).tx = some t := htx.trans ht
      have hrows := hbuild.trans (Within.reads q.rows.property ht1 (hbuild.progress.sound hok)) hok
      have htx1 := (Within.of_runIn db1 c t q.rows.val).tx
      split
      case h_1 e db2 h2 =>
        rw [h2] at hrows htx1
        exact hrows.trans (reads_dropTxn (htx1.trans ht1) (hrows.progress.sound hok)) hok
      case h_2 a db2 h2 => rw [h2] at hrows; exact hrows
  case h_2 htx =>
    have hcalls : q.prog.Calls Call.IsRead := Prog.calls_bind q.build.property fun _ =>
        q.rows.property
    have hdrop := reads_attempt hcalls htx hok ends_dropTxn state_dropTxn
    have hroll := reads_attempt hcalls htx hok ends_rollback state_rollback
    dsimp only
    split
    case h_1 e db1 h => rw [h] at hdrop; exact hdrop
    case h_2 a db1 h => rw [h] at hroll; exact hroll

theorem evaluateWhen_reads (trigger : Trigger K V) (scope : Scope V) (hok : Sound c db) :
    Reads c db (db.evaluateWhen c trigger scope).2 := by
  unfold evaluateWhen
  split
  · exact runQuery_reads _ hok
  · exact ⟨.refl, fun _ => id, .refl, rfl⟩

/-- An INSERT into a view runs at most one statement, and that statement is of the same kind. -/
inductive SingleStep : Stmt K V → Prop
  | table {stmt : Stmt K V} (h : ∀ plan, stmt ≠ .insertView plan) : SingleStep stmt
  | view {plan : InsertViewPlan K V} (rows : plan.rows.length ≤ 1)
      (triggers : (schema.triggersFor plan.view .insert .insteadOf).length ≤ 1)
      (body : ∀ trigger ∈ schema.triggersFor plan.view .insert .insteadOf, trigger.body.length ≤ 1)
      (nested : ∀ trigger ∈ schema.triggersFor plan.view .insert .insteadOf, ∀ parse ∈ trigger.body,
        ∀ scope stmt,
        parse scope = .ok stmt → SingleStep stmt) :
      SingleStep (.insertView plan)

theorem writeAndRecord_atomic (f : RowProg K V Nat) (hok : Sound c db) :
    Atomic c db (db.writeAndRecord schema c f) := by
  have h := withWriteTx_atomic schema f hok
  unfold writeAndRecord
  split
  case h_1 n db1 hw => rw [hw] at h; exact .ok (h.progress.trans (progress_recordRowChanges n) hok)
  case h_2 e db1 hw => rw [hw] at h; exact .error h.progress (h.clean e rfl)

variable {exec : Db K V → Scope V → Stmt K V → Except Error Nat × Db K V}

theorem runBodyTop_atomic {trigger : Trigger K V} {scope : Scope V} {new : TriggerRow V}
    (hok : Sound c db)
    (hbody : trigger.body.length ≤ 1)
    (hexec : ∀ db' scope', Sound c db' → ∀ parse ∈ trigger.body, ∀ stmt, parse scope' = .ok stmt →
      Atomic c db' (exec db' scope' stmt)) : Atomic c db
        (runBodyTop c exec scope new db trigger) := by
  have hwhen := evaluateWhen_reads trigger (pushRows scope none (some new)) hok
  unfold runBodyTop
  split
  case h_1 e db1 h => rw [h] at hwhen; exact hwhen.error
  case h_2 db1 h => rw [h] at hwhen; exact .ok hwhen.progress
  case h_3 db1 h =>
    rw [h] at hwhen
    have hp := hwhen.progress
    refine hwhen.then (each_atomic hbody fun parse hparse => ?_) hok
    unfold bodyStatement
    split
    · exact .refused
    · next stmt hstmt =>
      have h := hexec db1 _ (hp.sound hok) parse hparse stmt hstmt
      split
      case h_1 n db2 hb => rw [hb] at h; exact .ok h.progress
      case h_2 e db2 hb => rw [hb] at h; exact .error h.progress (h.clean e rfl)

theorem insertViewRow_atomic {view : String} {scope : Scope V} {row : Query K V V}
    (hok : Sound c db)
    (htriggers : (schema.triggersFor view .insert .insteadOf).length ≤ 1)
    (hbody : ∀ trigger ∈ schema.triggersFor view .insert .insteadOf, trigger.body.length ≤ 1)
    (hexec : ∀ trigger ∈ schema.triggersFor view .insert .insteadOf, ∀ db' scope', Sound c db' →
      ∀ parse ∈ trigger.body, ∀ stmt, parse scope' = .ok stmt → Atomic c db'
        (exec db' scope' stmt)) : Atomic c db (insertViewRow schema c exec scope view db row) := by
  have hrow := runQuery_reads row hok
  unfold insertViewRow
  split
  case h_1 e db1 h => rw [h] at hrow; exact hrow.error
  case h_2 values db1 h =>
    rw [h] at hrow
    have hp := hrow.progress
    unfold fireInsteadOfTop
    split
    · exact hrow.error
    · refine hrow.then (each_atomic htriggers fun trigger ht => ?_) hok
      exact runBodyTop_atomic (hp.sound hok) (hbody trigger ht) (hexec trigger ht)

/-- By induction on the stack: the bodies of INSTEAD OF triggers run their statements with less of
it. -/
theorem execute_atomic {stmt : Stmt K V} (hs : SingleStep schema stmt) (stack : Nat)
    (scope : Scope V)
    (hok : Sound c db) : Atomic c db (execute schema c stack db scope stmt) := by
  induction stack generalizing db scope stmt with
  | zero => exact .refused
  | succ stack ih =>
    cases stmt with
    | insert plan =>
      simp only [execute]
      split
      · exact .refused
      · exact .ok (progress_recordRowChanges 0)
      · split
        · exact writeAndRecord_atomic schema _ hok
        · next rows _ _ =>
          have hrows := runQuery_reads rows hok
          split
          case h_1 e db1 h => rw [h] at hrows; exact hrows.error
          case h_2 sourceRows db1 h =>
            rw [h] at hrows
            have hp := hrows.progress
            exact hrows.then (writeAndRecord_atomic schema _ (hp.sound hok)) hok
    | update plan =>
      simp only [execute]
      split
      · exact .refused
      · exact .ok (progress_recordRowChanges 0)
      · split
        · exact .refused
        · exact writeAndRecord_atomic schema _ hok
    | delete plan =>
      simp only [execute]
      split
      · exact .refused
      · exact .ok (progress_recordRowChanges 0)
      · exact writeAndRecord_atomic schema _ hok
    | merge plan => exact writeAndRecord_atomic schema _ hok
    | insertView plan =>
      cases hs with
      | table h => exact absurd rfl (h plan)
      | view rows triggers body nested =>
        have hrows : Atomic c db
            (each (insertViewRow schema c (execute schema c stack) scope plan.view) plan.rows db) :=
          each_atomic rows fun row _ => insertViewRow_atomic schema hok triggers body
            fun trigger ht db' scope' hok' parse hparse stmt hstmt =>
              ih (nested trigger ht parse hparse scope' stmt hstmt) scope' hok'
        simp only [execute]
        split
        case h_1 u db1 h =>
          rw [h] at hrows; exact .ok (hrows.progress.trans (progress_recordRowChanges _) hok)
        case h_2 e db1 h => rw [h] at hrows; exact .error hrows.progress (hrows.clean e rfl)
    | select query =>
      have hq := runQuery_reads query hok
      simp only [execute]
      split
      case h_1 u db1 h => rw [h] at hq; exact .ok hq.progress
      case h_2 e db1 h => rw [h] at hq; exact hq.error

end execute


/-! ### Runs -/

/-- What is committed was written by statements that succeeded, and so was what a transaction that
may still commit has written. -/
structure AtomInv (schema : Schema K V) (db : Db K V) : Prop where
  known : db.kernel.Known
  csn : CsnOk db.kernel.txs
  stmts : ∀ w, db.kernel.Wrote w → w.stmt ≤ db.stmt
  failedStmts : ∀ n ∈ db.failedStmts, n ≤ db.stmt
  tx : ∀ c, TxOk c db
  tx_inj : ∀ c d t, (db.sessions c).tx = some t → (db.sessions d).tx = some t → c = d
  committed : ∀ w csn, db.kernel.Wrote w → db.kernel.txs.state w.tx = .committed csn →
    w.stmt ∉ db.failedStmts
  pending : ∀ c t, (db.sessions c).tx = some t → (db.sessions c).failed = true ∨
    ∀ w, db.kernel.Wrote w → w.tx = t → w.stmt ∉ db.failedStmts
  journal : ∀ c, ∀ stmt ∈ (db.sessions c).journal, SingleStep schema stmt

section runs
variable {schema : Schema K V}

/-- What a step of session `c` may do. What it writes is of statements that have not failed, the
transactions the other sessions stay as they are, and its own is not committed when a statement in
it has failed. -/
structure Moves (c : Nat) (db db' : Db K V) : Prop where
  others : ∀ d, d ≠ c → db'.sessions d = db.sessions d
  stmt : db.stmt ≤ db'.stmt
  failedStmts : db'.failedStmts = db.failedStmts
  nextTx : db.kernel.txs.nextTx ≤ db'.kernel.txs.nextTx
  csn : CsnOk db.kernel.txs → CsnOk db'.kernel.txs
  wrote : ∀ w, db'.kernel.Wrote w → db.kernel.Wrote w ∨
    w.stmt ∉ db.failedStmts ∧ w.stmt ≤ db'.stmt ∧ w.tx < db'.kernel.txs.nextTx
  states : ∀ x < db.kernel.txs.nextTx, (db.sessions c).tx ≠ some x →
    db'.kernel.txs.state x = db.kernel.txs.state x
  tx : TxOk c db'
  own : ∀ t, (db'.sessions c).tx = some t → db.kernel.txs.nextTx ≤ t ∨
    (db.sessions c).tx = some t ∧ ((db.sessions c).failed = true → (db'.sessions c).failed = true)
  commit : ∀ t csn, (db.sessions c).tx = some t → db'.kernel.txs.state t = .committed csn →
    (db.sessions c).failed = false

section
variable (hI : AtomInv schema db)
include hI

theorem AtomInv.move (hm : Moves c db db')
    (hjournal : ∀ stmt ∈ (db'.sessions c).journal, SingleStep schema stmt) :
    AtomInv schema db' := by
  have hother : ∀ d, d ≠ c → ∀ t, (db.sessions d).tx = some t → (db.sessions c).tx ≠ some t :=
    fun d hd t ht h => hd (hI.tx_inj d c t ht h)
  -- a transaction of another session is never the new one of this session
  have hinj : ∀ d, d ≠ c → ∀ t, (db.sessions d).tx = some t → (db'.sessions c).tx ≠ some t := by
    intro d hd t ht htc
    rcases hm.own t htc with hle | ⟨htc, _⟩
    · exact Nat.not_lt_of_le hle (hI.tx d t ht).1
    · exact hother d hd t ht htc
  refine ⟨fun w hw => ?_, hm.csn hI.csn, fun w hw => ?_, fun n hn => ?_, fun d => ?_,
    fun d d' t ht ht' => ?_,
    fun w csn hw hcsn => ?_, fun d t ht => ?_, fun d => ?_⟩
  · rcases hm.wrote w hw with hw | hw
    · exact (hI.known w hw).trans_le hm.nextTx
    · exact hw.2.2
  · rcases hm.wrote w hw with hw | hw
    · exact (hI.stmts w hw).trans hm.stmt
    · exact hw.2.1
  · rw [hm.failedStmts] at hn
    exact (hI.failedStmts n hn).trans hm.stmt
  · by_cases hd : d = c
    · exact hd ▸ hm.tx
    · intro t ht
      rw [hm.others d hd] at ht
      obtain ⟨hlt, hin⟩ := hI.tx d t ht
      exact ⟨hlt.trans_le hm.nextTx, (hm.states t hlt (hother d hd t ht)).trans hin⟩
  · by_cases hd : d = c <;> by_cases hd' : d' = c
    · rw [hd, hd']
    · rw [hm.others d' hd'] at ht'
      exact absurd (hd ▸ ht) (hinj d' hd' t ht')
    · rw [hm.others d hd] at ht
      exact absurd (hd' ▸ ht') (hinj d hd t ht)
    · rw [hm.others d hd] at ht
      rw [hm.others d' hd'] at ht'
      exact hI.tx_inj d d' t ht ht'
  · rw [hm.failedStmts]
    rcases hm.wrote w hw with hw | hw
    · by_cases htx : (db.sessions c).tx = some w.tx
      · rcases hI.pending c _ htx with hf | hok
        · rw [hm.commit _ csn htx hcsn] at hf
          cases hf
        · exact hok w hw rfl
      · exact hI.committed w csn hw ((hm.states _ (hI.known w hw) htx).symm.trans hcsn)
    · exact hw.1
  · -- what is new is of statements that have not failed; what of the rest?
    have hpending : (∀ w, db.kernel.Wrote w → w.tx = t → w.stmt ∉ db.failedStmts) →
        ∀ w, db'.kernel.Wrote w → w.tx = t → w.stmt ∉ db'.failedStmts := by
      intro hold w hw hwt
      rw [hm.failedStmts]
      exact (hm.wrote w hw).elim (fun hw => hold w hw hwt) And.left
    by_cases hd : d = c
    · subst hd
      rcases hm.own t ht with hle | ⟨ht, hf⟩
      · exact .inr (hpending fun w hw hwt => absurd (hI.known w hw) (hwt ▸ Nat.not_lt_of_le hle))
      · exact (hI.pending d t ht).imp hf hpending
    · rw [hm.others d hd] at ht ⊢
      exact (hI.pending d t ht).imp id hpending
  · by_cases hd : d = c
    · exact hd ▸ hjournal
    · rw [hm.others d hd]
      exact hI.journal d

theorem AtomInv.sound (c : Nat) : Sound c { db with stmt := db.stmt + 1 } :=
  ⟨hI.known, hI.tx c, hI.csn⟩

theorem AtomInv.progress (hp : Progress c { db with stmt := db.stmt + 1 } db') :
    AtomInv schema db' := by
  have hok := hp.sound (hI.sound c)
  refine hI.move (c := c) ⟨hp.others, hp.stmt ▸ Nat.le_succ _, hp.failedStmts, hp.nextTx, hp.csn,
    fun w hw => (hp.wrote w hw).imp_right fun hs => ⟨?_, (hs.1.trans hp.stmt.symm).le, hs.2⟩,
    hp.states, hok.tx, fun t ht => .inr ⟨hp.tx_some ht, hp.session.failed⟩,
      fun t csn ht hcsn => ?_⟩ ?_
  · rw [hs.1]
    exact fun h => Nat.not_succ_le_self _ (hI.failedStmts _ h)
  · -- the session's own transaction is not committed by a statement
    rcases hp.tx with ⟨_, hst⟩ | ⟨_, hst⟩ <;> rw [hst t ht] at hcsn
    · rw [show db.kernel.txs.state t = .inProgress from (hI.tx c t ht).2] at hcsn
      cases hcsn
    · cases hcsn
  · rw [hp.session.journal]
    exact hI.journal c

theorem AtomInv.fail (hp : Progress c { db with stmt := db.stmt + 1 } db')
    (hc : Clean c { db with stmt := db.stmt + 1 } db') :
    AtomInv schema { db' with failedStmts := db'.stmt :: db'.failedStmts } := by
  have hI' := hI.progress hp
  have hstmt : db'.stmt = db.stmt + 1 := hp.stmt
  -- what this statement wrote
  have hown : ∀ w, db'.kernel.Wrote w → w.stmt = db'.stmt →
      db'.kernel.txs.state w.tx = .aborted ∨ (db'.sessions c).tx = some w.tx ∧
        (db'.sessions c).failed = true := by
    intro w hw hs
    refine (hc.wrote w hw).resolve_left fun h => ?_
    have := hI.stmts w h
    omega
  refine ⟨hI'.known, hI'.csn, hI'.stmts, ?_, hI'.tx, hI'.tx_inj, ?_, fun d t ht => ?_, hI'.journal⟩
  · intro n hn
    rcases mem_cons.1 hn with rfl | hn
    · exact le_rfl
    · exact hI'.failedStmts n hn
  · intro w csn hw hcsn hmem
    rcases mem_cons.1 hmem with h | h
    · rcases hown w hw h with hab | ⟨htx, _⟩
      · rw [show db'.kernel.txs.state w.tx = .committed csn from hcsn] at hab
        cases hab
      · have hin := (hI'.tx c _ htx).2
        rw [show db'.kernel.txs.state w.tx = .committed csn from hcsn] at hin
        cases hin
    · exact hI'.committed w csn hw hcsn h
  · rcases hI'.pending d t ht with hf | hv0
    · exact .inl hf
    · by_cases hfd : (db'.sessions d).failed = true
      · exact .inl hfd
      refine .inr fun w hw hwt hmem => ?_
      rcases mem_cons.1 hmem with h | h
      · rcases hown w hw h with hab | ⟨htx, hf⟩
        · have hin := (hI'.tx d t ht).2
          rw [hwt, hin] at hab
          cases hab
        · rw [hwt] at htx
          exact hfd (hI'.tx_inj c d t htx ht ▸ hf)
      · exact hv0 w hw hwt h

theorem AtomInv.idle (htxs : db'.kernel.txs = db.kernel.txs)
    (hwrote : ∀ w, db'.kernel.Wrote w → db.kernel.Wrote w) (honly : Only c db db')
    (htx : (db'.sessions c).tx = (db.sessions c).tx)
    (hfailed : (db.sessions c).tx ≠ none → (db.sessions c).failed = true →
      (db'.sessions c).failed = true)
    (hjournal : ∀ stmt ∈ (db'.sessions c).journal, SingleStep schema stmt) :
    AtomInv schema db' := by
  refine hI.move (c := c) ⟨honly.others, honly.stmt.symm.le, honly.failedStmts, by rw [htxs], by
    rw [htxs]; exact id,
    fun w hw => .inl (hwrote w hw), fun x _ _ => by rw [htxs], fun t ht => ?_, fun t ht => ?_,
    fun t csn ht hcsn => ?_⟩ hjournal
  · rw [htxs]
    exact hI.tx c t (htx ▸ ht)
  · rw [htx] at ht
    exact .inr ⟨ht, hfailed (by simp [ht])⟩
  · rw [htxs, (hI.tx c t ht).2] at hcsn
    cases hcsn

end

structure Closes (c t : Nat) (db db' : Db K V) : Prop extends Only c db db' where
  ends : Ends t db.kernel db'.kernel
  tx : (db'.sessions c).tx = none
  journal : ∀ stmt ∈ (db'.sessions c).journal, stmt ∈ (db.sessions c).journal
  replaying : (db'.sessions c).replaying = (db.sessions c).replaying

theorem rollbackSession_closes {t : Nat} (ht : (db.sessions c).tx = some t) :
    Closes c t db (db.rollbackSession c).2 := by
  unfold Db.rollbackSession
  rw [ht]
  exact ⟨{ (Only.refl.setSession _) with }, ends_rollback, by simp [Session.closed], by
    simp [Session.closed], by simp [Session.closed, rollbackTx]⟩

theorem rewind_closes {t : Nat} (ht : (db.sessions c).tx = some t) (pos : Nat) (frame : Savepoint) :
    Closes c t db (db.rewind c pos frame) := by
  unfold Db.rewind
  dsimp only
  rw [ht]
  refine ⟨{ (Only.refl.setSession _) with }, ends_rollback, by simp, fun stmt hstmt => ?_, by simp⟩
  rw [sessions_setSession_self] at hstmt
  exact mem_of_mem_take hstmt

theorem drainDeferred_reads [LinearOrder K] (schema : Schema K V) (db : Db K V) (c t : Nat) :
    ∃ r, (db.drainDeferred schema c t).2.kernel = { db.kernel with random := r } := by
  unfold drainDeferred
  split
  · have hcalls : ((db.sessions c).vars.deferredFk.forM fun check =>
        (schema.checkDeferred check).val).Calls Call.IsRead :=
      Prog.calls_forM fun check _ => (schema.checkDeferred check).property
    obtain ⟨r, hr⟩ := run_reads hcalls t db.stmt
      (db.kernel, ((db.setVars c { (db.sessions c).vars with deferredFk := [] }).sessions c).vars)
    exact ⟨r, congrArg Prod.fst hr⟩
  · exact ⟨db.kernel.random, rfl⟩

theorem commitTx_closes [LinearOrder K] (schema : Schema K V) {t : Nat}
    (ht : (db.sessions c).tx = some t)
    (hf : (db.sessions c).failed = false) : Closes c t db (db.commitTx schema c).2 := by
  have hin := Within.of_drainDeferred schema db c t
  have hends : ∀ {κ : Kernel K V}, Ends t (db.drainDeferred schema c t).2.kernel κ →
      Ends t db.kernel κ := by
    intro κ h
    obtain ⟨r, hr⟩ := drainDeferred_reads schema db c t
    rw [hr] at h
    exact { h with }
  unfold Db.commitTx
  dsimp only
  rw [hf, ht]
  simp only [Bool.false_eq_true, if_false]
  split
  next e db1 h =>
    rw [h] at hin hends
    exact ⟨{ (hin.toOnly.setSession _) with }, hends ends_rollback, by simp [Session.closed], by
      simp [Session.closed],
      by simpa [Session.closed, rollbackTx] using hin.replaying⟩
  next u db1 h =>
    rw [h] at hin hends
    have hcommit := ends_commit db1.kernel t
    split <;> rename_i hout <;> rw [hout] at hcommit <;>
      exact ⟨{ (hin.toOnly.setSession _) with }, hends hcommit, by simp [Session.closed], by
        simp [Session.closed], by simpa [Session.closed] using hin.replaying⟩

section Control
variable (hI : AtomInv schema db)
include hI

theorem AtomInv.begin {isolation : Isolation} {s : Session K V}
    (htx : s.tx = some db.kernel.nextTx) (hjournal : ∀ stmt ∈ s.journal, SingleStep schema stmt) :
    AtomInv schema ((db.begin isolation).setSession c s) := by
  have hself : ((db.begin isolation).setSession c s).sessions c = s := sessions_setSession_self s
  have hstate : ∀ x, ((db.begin isolation).setSession c s).kernel.txs.state x =
      if x = db.kernel.nextTx then .inProgress else db.kernel.txs.state x :=
        fun x => state_begin _ x
  have hold : ∀ x < db.kernel.txs.nextTx, ((db.begin isolation).setSession c s).kernel.txs.state x =
      db.kernel.txs.state x := fun x hx => (hstate x).trans (if_neg hx.ne)
  refine hI.move (c := c) ⟨fun d hd => sessions_setSession_ne hd s, le_rfl, rfl, Nat.le_succ _,
    fun h => h.begin,
    fun _ => .inl, fun x hx _ => hold x hx, fun t ht => ?_, fun t ht => .inl ?_,
      fun t csn ht hcsn => ?_⟩
    (by rwa [hself])
  · rw [hself, htx, Option.some.injEq] at ht
    exact ⟨ht ▸ Nat.lt_succ_self _, (hstate t).trans (if_pos ht.symm)⟩
  · rw [hself, htx, Option.some.injEq] at ht
    exact ht.le
  · obtain ⟨hlt, hin⟩ := hI.tx c t ht
    rw [hold t hlt, hin] at hcsn
    cases hcsn

/-- The transaction of session `c` has ended; if it was committed, the session was not failed. -/
theorem AtomInv.ended {t : Nat} (ht : (db.sessions c).tx = some t) (hcloses : Closes c t db db')
    (hcommit : (db.sessions c).failed = false ∨ db'.kernel.txs.state t = .aborted) :
    AtomInv schema db' := by
  obtain ⟨honly, hends, htx, hjournal, _⟩ := hcloses
  refine hI.move (c := c) ⟨honly.others, honly.stmt.symm.le, honly.failedStmts,
    hends.nextTx.symm.le, hends.csn,
    fun w hw => .inl (hends.wrote.1 hw), fun x _ hx => hends.states x fun h => hx (h ▸ ht),
      fun x hx => ?_,
    fun x hx => ?_, fun x csn hx hcsn => ?_⟩ fun stmt h => hI.journal c stmt (hjournal stmt h)
  · rw [htx] at hx
    cases hx
  · rw [htx] at hx
    cases hx
  · rw [ht, Option.some.injEq] at hx
    subst hx
    refine hcommit.resolve_right fun hab => ?_
    rw [hab] at hcsn
    cases hcsn

theorem AtomInv.statement [LinearOrder K] {stmt : Stmt K V} (hs : SingleStep schema stmt)
    (stack : Nat)
    (rql : Bool) : AtomInv schema (db.statement schema c stack rql stmt).2 := by
  have hout : Atomic c { db with stmt := db.stmt + 1 } _ :=
    execute_atomic schema hs stack [] (hI.sound c)
  unfold Db.statement
  dsimp only
  split
  case h_1 n db1 h =>
    rw [h] at hout
    have hI1 := hI.progress hout.progress
    split
    · exact hI1
    · refine hI1.idle (c := c) rfl (fun _ => id) (Only.refl.setSession _) (by simp) (by simp) ?_
      intro stmt' hmem
      rw [sessions_setSession_self] at hmem
      rcases mem_append.1 hmem with h | h
      · exact hI1.journal c stmt' h
      · rw [mem_singleton.1 h]
        exact hs
  case h_2 db1 h =>
    rw [h] at hout
    exact hI.progress hout.progress
  case h_3 e db1 hne h =>
    rw [h] at hout
    exact hI.fail hout.progress (hout.clean e rfl hne)

theorem AtomInv.beginTx : AtomInv schema (db.beginTx c).2 := by
  unfold Db.beginTx
  dsimp only
  split
  · exact hI
  · exact hI.begin rfl nofun

theorem AtomInv.commitTx [LinearOrder K] : AtomInv schema (db.commitTx schema c).2 := by
  by_cases hf : (db.sessions c).failed = true
  · simpa [Db.commitTx, hf] using hI
  · have hf : (db.sessions c).failed = false := by simpa using hf
    cases ht : (db.sessions c).tx with
    | none => simpa [Db.commitTx, hf, ht] using hI
    | some t => exact hI.ended ht (commitTx_closes schema ht hf) (.inl hf)

theorem AtomInv.rollbackSession : AtomInv schema (db.rollbackSession c).2 := by
  cases ht : (db.sessions c).tx with
  | none => simpa [Db.rollbackSession, ht] using hI
  | some t =>
    refine hI.ended ht (rollbackSession_closes ht) (.inr ?_)
    simp only [Db.rollbackSession, ht]
    exact state_rollback

theorem AtomInv.pushFrame (name : String) (implicitTx : Bool) :
    AtomInv schema (db.pushFrame c name implicitTx) :=
  hI.idle (c := c) rfl (fun _ => id) (Only.refl.setSession _) (by simp [Db.pushFrame])
    (by simp [Db.pushFrame]) (by simpa [Db.pushFrame] using hI.journal c)

theorem AtomInv.savepoint (name : String) : AtomInv schema (db.savepoint c name) := by
  unfold Db.savepoint
  dsimp only
  split
  · exact hI.pushFrame name false
  · apply AtomInv.pushFrame
    exact hI.begin rfl (hI.journal c)

theorem AtomInv.popFrames (pos : Nat) {journal : List (Stmt K V)}
    (hjournal : ∀ stmt ∈ journal, stmt ∈ (db.sessions c).journal) :
    AtomInv schema (db.setSession c { db.sessions c with
      savepoints := (db.sessions c).savepoints.take pos, journal }) := by
  refine hI.idle (c := c) rfl (fun _ => id) (Only.refl.setSession _) (by simp) (by simp)
    fun stmt hstmt => ?_
  rw [sessions_setSession_self] at hstmt
  exact hI.journal c stmt (hjournal stmt hstmt)

theorem AtomInv.release [LinearOrder K] (name : String) :
    AtomInv schema (db.release schema c name).2 := by
  unfold Db.release
  dsimp only
  split
  · exact hI
  next pos _ =>
    have hjournal : ∀ stmt ∈ if pos = 0 then [] else (db.sessions c).journal,
        stmt ∈ (db.sessions c).journal := by
      intro stmt h
      split at h
      · simp at h
      · exact h
    have hI' := hI.popFrames pos hjournal
    split
    · exact hI'.commitTx
    · exact hI'

theorem AtomInv.replayJournal [LinearOrder K] (stack : Nat) (entries : List (Stmt K V))
    (hs : ∀ stmt ∈ entries, SingleStep schema stmt) :
    AtomInv schema (db.replayJournal schema c stack entries).2 := by
  induction entries generalizing db with
  | nil => exact hI
  | cons stmt entries ih =>
    have hI1 := hI.statement (c := c) (hs stmt (by simp)) stack false
    simp only [Db.replayJournal, each]
    split
    next u db1 h =>
      refine ih ?_ fun stmt' h' => hs stmt' (by simp [h'])
      split at h <;> cases h
      next hst => rw [hst] at hI1; exact hI1
    next e db1 h =>
      split at h <;> cases h
      next hst => rw [hst] at hI1; exact hI1

theorem AtomInv.rewind (pos : Nat) (frame : Savepoint) :
    AtomInv schema (db.rewind c pos frame) := by
  cases ht : (db.sessions c).tx with
  | none =>
    simp only [Db.rewind, ht]
    refine hI.idle (c := c) rfl (fun _ => id) (Only.refl.setSession _) (by simp [ht])
      (fun h => absurd ht h) ?_
    intro stmt hstmt
    rw [sessions_setSession_self] at hstmt
    exact hI.journal c stmt (mem_of_mem_take hstmt)
  | some t =>
    refine hI.ended ht (rewind_closes ht pos frame) (.inr ?_)
    simp only [Db.rewind, ht]
    exact state_rollback

theorem AtomInv.rollbackTo [LinearOrder K] (stack : Nat) (name : String) :
    AtomInv schema (db.rollbackTo schema c stack name).2 := by
  unfold Db.rollbackTo
  dsimp only
  split
  · exact hI
  next pos _ =>
    split
    · exact hI
    next frame _ =>
      have hI1 := hI.rewind (c := c) pos frame
      have hI2 : AtomInv schema (((db.rewind c pos frame).begin .snapshot).setSession c
          { (db.rewind c pos frame).sessions c with
            tx := some (db.rewind c pos frame).kernel.nextTx, replaying := true }) :=
        hI1.begin rfl (hI1.journal c)
      have hI3 := hI2.replayJournal (c := c) stack ((db.sessions c).journal.take frame.journalLen)
        fun stmt h => hI.journal c stmt (mem_of_mem_take h)
      refine hI3.idle (c := c) rfl (fun _ => id) (Only.refl.setSession _) (by simp) (by simp) ?_
      intro stmt h
      rw [sessions_setSession_self] at h
      exact hI3.journal c stmt (mem_of_mem_take h)

end Control

theorem atomInv_create (schema : Schema K V) (outcomes : List CommitOutcome) :
    AtomInv schema (create outcomes : Db K V) :=
  have hnone : ∀ w, ¬ (create outcomes : Db K V).kernel.Wrote w := by
    rintro w ⟨k, ⟨v, hv, -⟩ | ⟨e, he, -⟩⟩
    · cases hv
    · cases he
  ⟨fun w hw => absurd hw (hnone w), .new, fun w hw => absurd hw (hnone w), nofun, nofun, nofun,
    fun w _ hw => absurd hw (hnone w), nofun, nofun⟩

variable [LinearOrder K]

/-- The condition on what clients do: an INSERT into a view runs at most one statement, and a
statement that fails has taken nothing out of reach. -/
def StmtOk (schema : Schema K V) (db : Db K V) : Action K V → Prop
  | .statement c stack rql stmt => SingleStep schema stmt ∧
      ((db.statement schema c stack rql stmt).1.isOk = true ∨
      (db.statement schema c stack rql stmt).2.kernel.cut = db.kernel.cut)
  | _ => True

theorem AtomInv.step (hI : AtomInv schema db) {a : Action K V} (hok : StmtOk schema db a)
    (hs : db.step schema a = .ok db') : AtomInv schema db' := by
  cases hs
  cases a with
  | statement c stack rql stmt =>
    have h := hI.statement (c := c) hok.1 stack rql
    simp only [act]
    split <;> rename_i hst <;> rw [hst] at h <;> exact h
  | begin c => exact hI.beginTx
  | commit c => exact hI.commitTx
  | rollback c => exact hI.rollbackSession
  | savepoint c name => exact hI.savepoint name
  | release c name => exact hI.release name
  | rollbackTo c stack name => exact hI.rollbackTo stack name

theorem AtomInv.of_run {outcomes : List CommitOutcome} {acts : List (Action K V)}
    (hrun : Run (Db.step schema) (StmtOk schema) (create outcomes) acts db) : AtomInv schema db :=
  hrun.invariant (I := fun _ db => AtomInv schema db) (atomInv_create schema outcomes)
    fun _ _ _ _ hI hok hs => hI.step hok hs

end runs

def insertInto (values : List Nat) : Stmt Nat Nat := .insert {
  table := "t"
  auth := .allow
  source := .values (values.map pure)
  resolve := fun v => do
    if v = 0 then .fail (.constraintViolation "CHECK constraint failed: t")
    else
      Prog.ask (Call.insert v v)
      return .inserted v v
  returning := none }

end Db
end RedlineDb.Exec
