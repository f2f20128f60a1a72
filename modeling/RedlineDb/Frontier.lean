import RedlineDb.EngineSpec

/-!
# The commit frontier

Every CSN handed out is published, or still pending, or waits in `completed` or `skipped` for one
below it. `FrontierOk` says so, and that the frontier never stops before a CSN it could take; hence
with nothing pending every CSN is published. `CsnInv` ties the pending CSNs to the transactions in
the middle of a commit.
-/

namespace RedlineDb
open ConcurrentTxStatus
namespace ConcurrentTxStatus

structure Cover (t : ConcurrentTxStatus) : Prop where
  lt : t.publishedCsn < t.nextCsn
  cover : ∀ c, t.publishedCsn < c → c < t.nextCsn → c ∈ t.pending ∨ c ∈ t.completed ∨ c ∈ t.skipped
  pending : ∀ c ∈ t.pending, t.publishedCsn < c ∧ c < t.nextCsn ∧ c ∉ t.completed ∧ c ∉ t.skipped
  completed : ∀ c ∈ t.completed, t.publishedCsn < c ∧ c < t.nextCsn ∧ c ∉ t.skipped
  skipped : ∀ c ∈ t.skipped, t.publishedCsn < c ∧ c < t.nextCsn
  nodup : t.pending.Nodup ∧ t.completed.Nodup ∧ t.skipped.Nodup

structure FrontierOk (t : ConcurrentTxStatus) : Prop extends Cover t where
  maximal : t.publishedCsn + 1 ∉ t.completed ∧ t.publishedCsn + 1 ∉ t.skipped

variable {t : ConcurrentTxStatus} {csn : Nat} {t' : ConcurrentTxStatus}

theorem Cover.take (hc : Cover t)
    (hm : t.publishedCsn + 1 ∈ t.completed ∨ t.publishedCsn + 1 ∈ t.skipped)
    (hpub : t'.publishedCsn = t.publishedCsn + 1) (hnext : t'.nextCsn = t.nextCsn)
    (hpend : t'.pending = t.pending)
    (hcom : ∀ c, c ∈ t'.completed ↔ c ≠ t.publishedCsn + 1 ∧ c ∈ t.completed)
    (hskip : ∀ c, c ∈ t'.skipped ↔ c ≠ t.publishedCsn + 1 ∧ c ∈ t.skipped)
    (hnd : t'.completed.Nodup ∧ t'.skipped.Nodup) : Cover t' := by
  have hlt : t.publishedCsn + 1 < t.nextCsn := hm.elim (fun h => (hc.completed _ h).2.1) fun h =>
      (hc.skipped _ h).2
  refine ⟨by rw [hpub, hnext]; exact hlt, ?_, ?_, ?_, ?_, hpend ▸ hc.nodup.1, hnd⟩
  · intro c h1 h2
    rw [hnext] at h2
    rw [hpend, hcom, hskip]
    have hne : c ≠ t.publishedCsn + 1 := by omega
    simpa [hne] using hc.cover c (by omega) h2
  · intro c h
    rw [hpend] at h
    obtain ⟨h1, h2, h3, h4⟩ := hc.pending c h
    have hne : c ≠ t.publishedCsn + 1 := fun he => (he ▸ hm).elim h3 h4
    rw [hpub, hnext, hcom, hskip]
    exact ⟨by omega, h2, fun h' => h3 h'.2, fun h' => h4 h'.2⟩
  · intro c h
    obtain ⟨hne, h⟩ := (hcom c).1 h
    obtain ⟨h1, h2, h3⟩ := hc.completed c h
    rw [hpub, hnext, hskip]
    exact ⟨by omega, h2, fun h' => h3 h'.2⟩
  · intro c h
    obtain ⟨hne, h⟩ := (hskip c).1 h
    obtain ⟨h1, h2⟩ := hc.skipped c h
    rw [hpub, hnext]
    exact ⟨by omega, h2⟩

theorem Cover.takeCompleted (hc : Cover t) (hm : t.publishedCsn + 1 ∈ t.completed) :
    Cover { t with
      completed := t.completed.erase (t.publishedCsn + 1)
      publishedCsn := t.publishedCsn + 1 } := by
  refine hc.take (.inl hm) rfl rfl rfl (fun c => hc.nodup.2.1.mem_erase_iff) ?_
    ⟨hc.nodup.2.1.erase _, hc.nodup.2.2⟩
  exact fun c => ⟨fun h => ⟨fun he => (hc.completed _ hm).2.2 (he ▸ h), h⟩, And.right⟩

theorem Cover.takeSkipped (hc : Cover t) (hn : t.publishedCsn + 1 ∉ t.completed)
    (hm : t.publishedCsn + 1 ∈ t.skipped) :
    Cover { t with
      skipped := t.skipped.erase (t.publishedCsn + 1), publishedCsn := t.publishedCsn + 1 } := by
  refine hc.take (.inr hm) rfl rfl rfl ?_ (fun c => hc.nodup.2.2.mem_erase_iff)
    ⟨hc.nodup.2.1, hc.nodup.2.2.erase _⟩
  exact fun c => ⟨fun h => ⟨fun he => hn (he ▸ h), h⟩, And.right⟩

/-- The loop keeps the cover and, with a round for each waiting CSN, stops only where it is stuck.
-/
theorem Cover.advanceLoop {n : Nat} (hc : Cover t)
    (hn : t.completed.length + t.skipped.length ≤ n) :
    FrontierOk (advanceLoop n t) := by
  induction n generalizing t with
  | zero =>
    have h1 : t.completed = [] := List.length_eq_zero_iff.1 (by omega)
    have h2 : t.skipped = [] := List.length_eq_zero_iff.1 (by omega)
    exact ⟨hc, by simp [advanceLoop, h1], by simp [advanceLoop, h2]⟩
  | succ n ih =>
    simp only [advanceLoop]
    split
    · next hm =>
      have hlen := List.length_erase_of_mem hm
      have hpos := List.length_pos_of_mem hm
      exact ih (hc.takeCompleted hm) (by dsimp only; omega)
    · next hno =>
      split
      · next hm =>
        have hlen := List.length_erase_of_mem hm
        have hpos := List.length_pos_of_mem hm
        exact ih (hc.takeSkipped hno hm) (by dsimp only; omega)
      · next hno' => exact ⟨hc, hno, hno'⟩

theorem FrontierOk.reserve (hf : FrontierOk t) : FrontierOk t.reserveCommitCsn.2 := by
  have hmem : ∀ c, c ∈ t.pending.insert t.nextCsn ↔ c = t.nextCsn ∨ c ∈ t.pending :=
    fun c => List.mem_insert_iff
  refine ⟨⟨Nat.lt_succ_of_lt hf.lt, ?_, ?_, ?_, ?_, hf.nodup.1.insert, hf.nodup.2⟩, hf.maximal⟩
  · intro c h1 h2
    simp only [reserveCommitCsn] at h1 h2 ⊢
    rw [hmem]
    rcases lt_or_ge c t.nextCsn with h | h
    · rcases hf.cover c h1 h with h' | h'
      · exact .inl (.inr h')
      · exact .inr h'
    · exact .inl (.inl (by omega))
  · intro c h
    simp only [reserveCommitCsn] at h ⊢
    rw [hmem] at h
    rcases h with rfl | h
    · refine ⟨hf.lt, by omega, ?_, ?_⟩
      · intro h; have := (hf.completed _ h).2.1; omega
      · intro h; have := (hf.skipped _ h).2; omega
    · obtain ⟨h1, h2, h3⟩ := hf.pending c h
      exact ⟨h1, by omega, h3⟩
  · intro c h
    obtain ⟨h1, h2, h3⟩ := hf.completed c h
    exact ⟨h1, Nat.lt_succ_of_lt h2, h3⟩
  · intro c h
    obtain ⟨h1, h2⟩ := hf.skipped c h
    exact ⟨h1, Nat.lt_succ_of_lt h2⟩

theorem Cover.move {D : Prop} (hc : Cover t) (hp : csn ∈ t.pending)
    (hpub : t'.publishedCsn = t.publishedCsn) (hnext : t'.nextCsn = t.nextCsn)
    (hpend : t'.pending = t.pending.erase csn)
    (hcom : ∀ c, c ∈ t'.completed ↔ (c = csn ∧ D) ∨ c ∈ t.completed)
    (hskip : ∀ c, c ∈ t'.skipped ↔ (c = csn ∧ ¬ D) ∨ c ∈ t.skipped)
    (hnd : t'.completed.Nodup ∧ t'.skipped.Nodup) : Cover t' := by
  obtain ⟨p1, p2, p3, p4⟩ := hc.pending csn hp
  have he : ∀ c, c ∈ t'.pending ↔ c ≠ csn ∧ c ∈ t.pending :=
    fun c => hpend ▸ hc.nodup.1.mem_erase_iff
  refine ⟨by rw [hpub, hnext]; exact hc.lt, ?_, ?_, ?_, ?_, hpend ▸ hc.nodup.1.erase _, hnd⟩
  · intro c h1 h2
    rw [he, hcom, hskip]
    by_cases hcsn : c = csn
    · by_cases hd : D
      · exact .inr (.inl (.inl ⟨hcsn, hd⟩))
      · exact .inr (.inr (.inl ⟨hcsn, hd⟩))
    · simpa [hcsn] using hc.cover c (hpub ▸ h1) (hnext ▸ h2)
  · intro c h
    obtain ⟨hne, h⟩ := (he c).1 h
    simpa [hpub, hnext, hcom, hskip, hne] using hc.pending c h
  · intro c h
    rw [hpub, hnext, hskip]
    rcases (hcom c).1 h with ⟨rfl, hd⟩ | h
    · exact ⟨p1, p2, by simp [hd, p4]⟩
    · obtain ⟨h1, h2, h3⟩ := hc.completed c h
      have hne : c ≠ csn := fun he => p3 (he ▸ h)
      exact ⟨h1, h2, by simp [hne, h3]⟩
  · intro c h
    rw [hpub, hnext]
    rcases (hskip c).1 h with ⟨rfl, -⟩ | h
    · exact ⟨p1, p2⟩
    · exact hc.skipped c h

theorem FrontierOk.complete (hf : FrontierOk t) (hp : csn ∈ t.pending) :
    FrontierOk (t.completeCsn csn) := by
  have hmove : Cover { t with
      pending := t.pending.erase csn, completed := t.completed.insert csn } :=
    hf.move (D := True) hp rfl rfl rfl (by simp) (by simp) ⟨hf.nodup.2.1.insert, hf.nodup.2.2⟩
  exact hmove.advanceLoop le_rfl

theorem FrontierOk.skip (hf : FrontierOk t) (hp : csn ∈ t.pending) :
    FrontierOk (t.skipCsn csn) := by
  have hmove : Cover { t with pending := t.pending.erase csn, skipped := t.skipped.insert csn } :=
    hf.move (D := False) hp rfl rfl rfl (by simp) (by simp) ⟨hf.nodup.2.1, hf.nodup.2.2.insert⟩
  exact hmove.advanceLoop le_rfl

theorem FrontierOk.published_eq (hf : FrontierOk t) (hp : t.pending = []) :
    t.publishedCsn + 1 = t.nextCsn := by
  have hlt := hf.lt
  by_contra hne
  rcases hf.cover (t.publishedCsn + 1) (by omega) (by omega) with h | h | h
  · rw [hp] at h; cases h
  · exact hf.maximal.1 h
  · exact hf.maximal.2 h

end ConcurrentTxStatus

namespace Engine
variable {e e' : Engine} {tx x y c : Nat} {t : Txn} {st : TxState}

def HasCsn (e : Engine) (x c : Nat) : Prop := e.txs.state x = .committed c ∨ e.Committing x c

structure CsnInv (e : Engine) : Prop where
  frontier : e.txs.FrontierOk
  pending : ∀ c, c ∈ e.txs.pending ↔ ∃ x, e.Committing x c
  unique : ∀ x y c, e.HasCsn x c → e.HasCsn y c → x = y
  lt : ∀ x c, e.HasCsn x c → c < e.txs.nextCsn

structure CsnStep (e e' : Engine) : Prop where
  inv : CsnInv e'
  has : ∀ x c, e'.HasCsn x c → e.HasCsn x c ∨ e.txs.nextCsn ≤ c

theorem Moved.committing (hM : Moved e tx t st e') (x c : Nat) : e'.Committing x c ↔
    (x = tx ∧ ∃ l, t.phase = .committing c l) ∨ (x ≠ tx ∧ e.Committing x c) := by
  unfold Committing
  rw [hM.lookup]
  by_cases hx : x = tx
  · simp [hx]
  · simp [hx]

theorem CsnInv.of_has (hc : CsnInv e) (hf : e'.txs.FrontierOk) (hn : e'.txs.nextCsn = e.txs.nextCsn)
    (hp : ∀ c, c ∈ e'.txs.pending ↔ ∃ x, e'.Committing x c)
    (hhas : ∀ x c, e'.HasCsn x c → e.HasCsn x c) : CsnStep e e' :=
  ⟨⟨hf, hp, fun x y c hx hy => hc.unique x y c (hhas x c hx) (hhas y c hy),
    fun x c hx => hn ▸ hc.lt x c (hhas x c hx)⟩,
    fun x c h => .inl (hhas x c h)⟩

structure Plain (e : Engine) (tx : Nat) (t : Txn) (st : TxState) : Prop where
  before : ∀ c, ¬ e.Committing tx c
  after : ∀ c l, t.phase ≠ .committing c l
  state : ∀ c, st ≠ .committed c

theorem Touch.plain (hT : Touch e tx t e') : Plain e tx t .inProgress := by
  obtain ⟨t0, h0, hopen, -⟩ := hT.snapshot
  exact ⟨fun c => not_committing h0 hopen, by simp [isOpen_iff.1 hT.isOpen], by simp⟩

theorem plain_begin (hi : TxInv e) (hp : t.phase = .active) :
    Plain e e.txs.nextTx t .inProgress := by
  refine ⟨?_, by simp [hp], by simp⟩
  rintro c ⟨t0, l, h0, -⟩
  exact absurd (hi.lt h0) (lt_irrefl _)

theorem plain_rollback (hM : Moved e tx t .aborted e') (hr : e.rollback tx = .ok e') :
    Plain e tx t .aborted := by
  obtain ⟨t0, h0, hopen, -⟩ := rollback_ok hr
  refine ⟨fun c => not_committing h0 hopen, fun c l h => ?_, by simp⟩
  have hst := hM.running (by simp [h])
  cases hst

theorem Plain.committed (hq : Plain e tx t st) (hM : Moved e tx t st e')
    (h : e'.txs.state x = .committed c) :
    e.txs.state x = .committed c := by
  rw [hM.state] at h
  split at h
  · exact absurd h (hq.state c)
  · exact h

theorem CsnInv.plain (hc : CsnInv e) (hM : Moved e tx t st e') (hq : Plain e tx t st)
    (hf : e'.txs.FrontierOk)
    (hn : e'.txs.nextCsn = e.txs.nextCsn) (hp : e'.txs.pending = e.txs.pending) : CsnStep e e' := by
  have hcom : ∀ x c, e'.Committing x c ↔ e.Committing x c := by
    intro x c
    rw [hM.committing]
    by_cases hx : x = tx
    · simp [hx, hq.before, hq.after]
    · simp [hx]
  refine hc.of_has hf hn (fun c => ?_) fun x c h => h.imp (hq.committed hM) (hcom x c).1
  rw [hp, hc.pending]
  exact exists_congr fun x => (hcom x c).symm

theorem CsnInv.ended (hc : CsnInv e) (hM : Moved e tx t st e') (htx : e.Committing tx c)
    (hst : st ≠ .inProgress)
    (hcsn : ∀ c', st = .committed c' → c' = c) (hf : e'.txs.FrontierOk)
    (hn : e'.txs.nextCsn = e.txs.nextCsn)
    (hp : e'.txs.pending = e.txs.pending.erase c) : CsnStep e e' := by
  have hph : t.phase = .closed := by
    by_contra h
    exact hst (hM.running h)
  have hcom : ∀ x c', e'.Committing x c' ↔ x ≠ tx ∧ e.Committing x c' := by
    simp [hM.committing, hph]
  refine hc.of_has hf hn (fun c' => ?_) ?_
  · rw [hp, hc.frontier.nodup.1.mem_erase_iff, hc.pending]
    simp only [hcom]
    constructor
    · rintro ⟨hne, x, hx⟩
      refine ⟨x, ?_, hx⟩
      rintro rfl
      obtain ⟨t0, l, ht, hp⟩ := htx
      simp [committing_iff ht, hp] at hx
      exact hne hx.symm
    · rintro ⟨x, hxt, hx⟩
      refine ⟨?_, x, hx⟩
      rintro rfl
      -- a CSN has one owner
      exact hxt (hc.unique x tx c' (.inr hx) (.inr htx))
  · rintro x c' (h | h)
    · rw [hM.state] at h
      split at h
      · next hx => exact .inr (hx ▸ hcsn c' h ▸ htx)
      · exact .inl h
    · exact .inr ((hcom x c').1 h).2

theorem Touch.csn (hT : Touch e tx t e') (hi : TxInv e) (hc : CsnInv e) : CsnStep e e' := by
  have hf := hc.frontier
  refine hc.plain (hT.moved hi) hT.plain ?_ (by rw [hT.txs]) (by rw [hT.txs])
  rw [hT.txs]
  exact ⟨{ hf with }, hf.maximal⟩

theorem CsnStep.setHeap (hc : CsnStep e e') (heap : PageBackedHeap) : CsnStep e { e' with heap } :=
  ⟨{ hc.inv with }, hc.has⟩

section
variable (hi : TxInv e)
include hi

theorem begin_csn {iso : Isolation} (hc : CsnInv e) (hb : e.begin iso = .ok e') : CsnStep e e' := by
  obtain ⟨t, hM, hp⟩ := begin_moved hb
  have hf := hc.frontier
  obtain ⟨-, rfl⟩ := Lib.guarded_eq_ok.1 hb
  exact hc.plain hM (plain_begin hi hp) ⟨{ hf with }, hf.maximal⟩ rfl rfl

theorem appendCommit_csn (hc : CsnInv e) (ha : e.appendCommit tx = .ok e') : CsnStep e e' := by
  obtain ⟨t, a, wal, ht, hopen, -, he⟩ := appendCommit_ok ha
  have hM : Moved e tx { t with phase := .committing e.txs.nextCsn a.endLsn } .inProgress e' :=
    he ▸ appendCommit_moved hi ht hopen
  have htxs : e'.txs = e.txs.reserveCommitCsn.2 := by rw [he]; rfl
  have hcom : ∀ x c, e'.Committing x c ↔ e.Committing x c ∨ (x = tx ∧ c = e.txs.nextCsn) := by
    intro x c
    rw [hM.committing]
    by_cases hx : x = tx
    · simp [hx, not_committing ht hopen, eq_comm]
    · simp [hx]
  have hhas : ∀ x c, e'.HasCsn x c → e.HasCsn x c ∨ (x = tx ∧ c = e.txs.nextCsn) := by
    rintro x c (h | h)
    · rw [htxs] at h
      exact .inl (.inl h)
    · exact ((hcom x c).1 h).imp .inr id
  refine ⟨⟨htxs ▸ hc.frontier.reserve, ?_, ?_, ?_⟩, fun x c h => (hhas x c h).imp id
    fun h' => h'.2.symm.le⟩
  · intro c
    rw [htxs]
    show c ∈ e.txs.pending.insert e.txs.nextCsn ↔ _
    simp only [List.mem_insert_iff, hcom, hc.pending]
    constructor
    · rintro (rfl | ⟨x, hx⟩)
      · exact ⟨tx, .inr ⟨rfl, rfl⟩⟩
      · exact ⟨x, .inl hx⟩
    · rintro ⟨x, hx | ⟨-, rfl⟩⟩
      · exact .inr ⟨x, hx⟩
      · exact .inl rfl
  · intro x y c hx hy
    rcases hhas x c hx with hx | ⟨rfl, rfl⟩
    · rcases hhas y c hy with hy | ⟨-, rfl⟩
      · exact hc.unique x y c hx hy
      · exact absurd (hc.lt x _ hx) (lt_irrefl _)
    · rcases hhas y _ hy with hy | ⟨rfl, -⟩
      · exact absurd (hc.lt y _ hy) (lt_irrefl _)
      · rfl
  · intro x c hx
    rw [htxs]
    rcases hhas x c hx with hx | ⟨-, rfl⟩
    · exact Nat.lt_succ_of_lt (hc.lt x c hx)
    · exact Nat.lt_succ_self _

theorem publish_csn {csn endLsn : Nat} (hc : CsnInv e) (ht : e.txns.lookup tx = some t)
    (hp : t.phase = .committing csn endLsn) (heap : PageBackedHeap) :
    CsnStep e ({ e with txs := e.txs.publishCommit tx csn, heap }.closeTxn tx t) := by
  have htx : e.Committing tx csn := ⟨t, endLsn, ht, hp⟩
  have hfr : (e.txs.setState tx (.committed csn)).FrontierOk :=
    ⟨{ hc.frontier with }, hc.frontier.maximal⟩
  have hfr' := hfr.complete ((hc.pending csn).2 ⟨tx, htx⟩)
  exact hc.ended (publish_moved hi ht hp heap) htx (by simp) (by simp) ⟨{ hfr' with }, hfr'.maximal⟩
    (nextCsn_completeCsn _ _)
    (pending_completeCsn _ _)

theorem finishCommit_csn (hc : CsnInv e) (hf : e.finishCommit tx = .ok e') : CsnStep e e' := by
  obtain ⟨t, csn, endLsn, d, wal, ht, hp, -, rfl⟩ := finishCommit_ok hf
  exact publish_csn hi hc ht hp _

theorem failCommit_csn (hc : CsnInv e) (hf : e.failCommit tx = .ok e') : CsnStep e e' := by
  obtain ⟨_, hM⟩ := failCommit_moved hi hf
  obtain ⟨t, csn, endLsn, ht, hp, rfl⟩ := failCommit_ok hf
  have htx : e.Committing tx csn := ⟨t, endLsn, ht, hp⟩
  have hfr' := hc.frontier.skip ((hc.pending csn).2 ⟨tx, htx⟩)
  exact hc.ended hM htx (by simp) (by simp) ⟨{ hfr' with }, hfr'.maximal⟩ (nextCsn_skipCsn _ _)
    (advanceLoop_frame _ _).2.2.2.2.1

theorem rollback_csn (hc : CsnInv e) (hr : e.rollback tx = .ok e') : CsnStep e e' := by
  obtain ⟨_, hM⟩ := rollback_moved hi hr
  have hq := plain_rollback hM hr
  obtain ⟨t, ht, hopen, rfl⟩ := rollback_ok hr
  have hf := hc.frontier
  exact hc.plain hM hq ⟨{ hf with }, hf.maximal⟩ rfl rfl

theorem step_csn {op : Op} (hc : CsnInv e) (hs : e.step op = .ok e') : CsnStep e e' := by
  cases stepped hs with
  | begin hb => exact begin_csn hi hc hb
  | get hT | lock hT | insert hT | update hT | delete hT => exact (hT.csn hi hc).setHeap _
  | appendCommit ha => exact appendCommit_csn hi hc ha
  | finishCommit hf => exact finishCommit_csn hi hc hf
  | failCommit hf => exact failCommit_csn hi hc hf
  | rollback hr => exact rollback_csn hi hc hr

omit hi in
theorem Moved.hasCsn (hM : Moved e tx t st e') (hi : TxInv e)
    (hends : ∀ c, e.Committing tx c → st = .committed c ∨
    e'.heap.wal.failure = true ∧ st = .aborted) (hx : e.HasCsn x c) :
    e'.HasCsn x c ∨ (e'.heap.wal.failure = true ∧ e'.txs.state x = .aborted) := by
  rcases hx with hst | hcom
  · exact .inl (.inl ((hM.txLe hi).committed x c hst))
  · by_cases hxt : x = tx
    · subst hxt
      have hself : e'.txs.state x = st := (hM.state x).trans (if_pos rfl)
      exact (hends c hcom).imp (fun h => .inl (hself.trans h)) fun h => ⟨h.1, hself.trans h.2⟩
    · exact .inl (.inr ((hM.committing x c).2 (.inr ⟨hxt, hcom⟩)))

/-- A CSN stays with its transaction, reserved or published, unless the log failed and the
transaction is aborted. -/
theorem step_hasCsn {op : Op} (hs : e.step op = .ok e') (hx : e.HasCsn x c) :
    e'.HasCsn x c ∨ (e'.heap.wal.failure = true ∧ e'.txs.state x = .aborted) := by
  obtain ⟨tx, t, st, hM, -, hends⟩ := step_moved hi hs
  exact hM.hasCsn hi hends hx

end

theorem not_hasCsn_create (relId lanes : Nat) (pageSize : PageSize)
    (segmentBytes walBufferBytes x c : Nat) :
    ¬ (create relId lanes pageSize segmentBytes walBufferBytes).HasCsn x c := by
  rintro (h | ⟨t, l, h, -⟩)
  · cases h
  · cases h

theorem csnInv_create (relId lanes : Nat) (pageSize : PageSize)
    (segmentBytes walBufferBytes : Nat) :
    CsnInv (create relId lanes pageSize segmentBytes walBufferBytes) := by
  have hno := not_hasCsn_create relId lanes pageSize segmentBytes walBufferBytes
  refine ⟨⟨⟨zero_lt_one, ?_, by simp [create, new], by simp [create, new],
    by simp [create, new], by simp [create, new]⟩,
    by simp [create, new]⟩, ?_, fun x y c hx => absurd hx (hno x c),
      fun x c hx => absurd hx (hno x c)⟩
  · intro c h1 h2
    simp only [create, new] at h1 h2
    omega
  · intro c
    constructor
    · intro h; cases h
    · rintro ⟨x, h⟩; exact absurd (.inr h) (hno x c)

end Engine
end RedlineDb
