import RedlineDb.Frontier
import RedlineDb.SnapshotReads

/-!
# Rows somebody sees or will see

A row is live when an open transaction sees it, or a snapshot taken from now on of what is committed
so far. Steps that do not insert the row never make it live: what a transaction publishes it has
seen itself before, and what a new snapshot sees was there for a later snapshot already.
-/

namespace RedlineDb
open Lib PageBackedHeap

def Op.insertsAt (relId : Nat) (key : Nat × Nat) : Op → Prop
  | .insertForRelation _ rel row _ => (if rel = 0 then relId else rel, row) = key
  | _ => False

namespace Engine
variable {e e' : Engine} {tx x : Nat} {t : Txn} {l : List TupleVersion}

def ChainsOk (e : Engine) : Prop :=
  ∀ rel row, ∃ l, RowChain e.heap rel row l ∧ Linked 0 l ∧ ∀ v ∈ l, v.beginTx < e.txs.nextTx

theorem chainsOk_create (relId lanes : Nat) (pageSize : PageSize)
    (segmentBytes walBufferBytes : Nat) :
    ChainsOk (create relId lanes pageSize segmentBytes walBufferBytes) :=
  fun _ _ => ⟨[], .none rfl, trivial, by simp⟩

variable {c rel row : Nat} {owner : Option Nat}

theorem ChainsOk.write {l' : List TupleVersion} {heap : PageBackedHeap} {e1 : Engine}
    (hch : ChainsOk e)
    (hW : Wrote e.heap rel row l' heap) (hl : Linked 0 l') (hb : ∀ v ∈ l', v.beginTx < e.txs.nextTx)
    (hn : e1.txs.nextTx = e.txs.nextTx) : ChainsOk { e1 with heap } := by
  intro rel' row'
  by_cases hk : (rel', row') = (rel, row)
  · cases hk
    exact ⟨l', hW.chain, hl, fun v hv => hn.symm ▸ hb v hv⟩
  · obtain ⟨l, h1, h2, h3⟩ := hch rel' row'
    exact ⟨l, hW.rowChain hk h1, h2, fun v hv => hn.symm ▸ h3 v hv⟩

theorem ChainsOk.replaced {value : Option Bytes} (hi : TxInv e) (hw : HeapWf e.heap)
    (hch : ChainsOk e)
    (hs : e.Replaced tx rel row value e') : ChainsOk e' := by
  obtain ⟨t, e1, current, heap, hlock, hcur, hR, rfl⟩ := hs
  have hT := lockRowForRelation_touch hlock
  obtain ⟨t0, h0, -⟩ := hT.snapshot
  obtain ⟨l, h1, h2, h3⟩ := hch (e.heap.normRel rel) row
  obtain ⟨a, b, rfl, -⟩ := PageBackedHeap.visibleTupleForWrite_ok h1 hcur
  obtain ⟨next, undoPtr, rfl, hne, -, hW⟩ := hR.wrote hw (h1.suffix rfl)
  refine hch.write hW ⟨hne, rfl, h2.suffix⟩ ?_ hT.nextTx
  intro v hv
  rcases List.mem_cons.1 hv with rfl | hv
  · exact hi.lt h0
  · rcases List.mem_cons.1 hv with rfl | hv
    · exact h3 current (by simp)
    · exact h3 v (by simp [hv])

variable {op : Op}

theorem ChainsOk.step (hi : TxInv e) (hw : HeapWf e.heap) (hch : ChainsOk e)
    (hs : e.step op = .ok e') : ChainsOk e' := by
  obtain ⟨hg, hd⟩ := step_heap hw hs
  obtain ⟨-, hle⟩ := step_tx hi hs
  have hframe : (∀ w, op.write? e.heap.relId ≠ some w) → ChainsOk e' := by
    intro hno rel row
    obtain ⟨l, h1, h2, h3⟩ := hch rel row
    exact ⟨l, h1.grows hg (hd (rel, row) fun w hw => absurd hw (hno w)), h2,
      fun v hv => (h3 v hv).trans_le hle.next⟩
  cases op with
  | insertForRelation tx rel row payload =>
    obtain ⟨t, e1, hT, -, heap, hins, rfl⟩ := insertForRelation_eq_ok hs
    obtain ⟨t0, h0, -⟩ := hT.snapshot
    refine hch.write (insertForRelation_ok hw hins) ⟨rfl, trivial⟩ ?_ hT.nextTx
    intro v hv
    rw [List.mem_singleton.1 hv]
    exact hi.lt h0
  | updateForRelation tx rel row payload => exact hch.replaced hi hw (.of_update hs)
  | deleteForRelation tx rel row => exact hch.replaced hi hw (.of_delete hs)
  | _ => exact hframe fun w hw => by cases hw

def SeenBy (e : Engine) (owner : Option Nat) (csn x : Nat) : Prop :=
  owner = some x ∨ ∃ c, e.txs.state x = .committed c ∧ c ≤ csn

theorem isTxVisible_iff {snapshot : Snapshot} :
    e.txs.isTxVisible x snapshot owner = true ↔ e.SeenBy owner snapshot.visibleCsn x := by
  cases owner with
  | none => simp [SeenBy, isTxVisible_none]
  | some y =>
    rw [isTxVisible_some, SeenBy, Option.some.injEq]
    exact or_congr eq_comm Iff.rfl

def Shows (e : Engine) (owner : Option Nat) (csn : Nat) (l : List TupleVersion) : Prop :=
  ∃ a v b, l = a ++ v :: b ∧ (∀ w ∈ a, ¬ e.SeenBy owner csn w.beginTx) ∧
    e.SeenBy owner csn v.beginTx ∧ v.deleted = false

/-- `owner` is an open transaction with this snapshot, or nobody, with a snapshot yet to come. -/
def View (e : Engine) (owner : Option Nat) (csn : Nat) : Prop :=
  (∃ tx t, owner = some tx ∧ e.txns.lookup tx = some t ∧ t.phase ≠ .closed ∧
    csn = t.snapshot.visibleCsn) ∨
    (owner = none ∧ e.txs.publishedCsn ≤ csn)

def sees (e : Engine) (snapshot : Snapshot) (owner : Option Nat) (rel row : Nat) : Bool :=
  match e.heap.getForRelation e.txs snapshot owner rel row with
  | .ok (some _) => true
  | _ => false

/-- Some open transaction sees the row, or a snapshot of what is committed so far will. -/
def isLive (e : Engine) (rel row : Nat) : Bool :=
  e.txns.entries.any (fun x => decide (x.2.phase ≠ .closed) &&
    e.sees x.2.snapshot (some x.1) rel row) ||
    (List.range (e.txs.nextCsn + 1)).any fun c =>
      decide (e.txs.publishedCsn ≤ c) && e.sees { e.txs.snapshot with visibleCsn := c } none rel row

theorem newest_isSome {sees : Nat → Bool} : ∀ {l : List TupleVersion},
    (newest sees (l.map TupleVersion.toVersion)).isSome = true ↔
      ∃ a v b, l = a ++ v :: b ∧ (∀ w ∈ a, sees w.beginTx = false) ∧ sees v.beginTx = true ∧
        v.deleted = false
  | [] => by simp [newest]
  | v :: l => by
    rw [List.map_cons, newest]
    split
    · next hv =>
      have hval : v.toVersion.value.isSome = true ↔ v.deleted = false := by
        cases hd : v.deleted <;> simp [TupleVersion.toVersion, hd]
      rw [hval]
      constructor
      · exact fun hd => ⟨[], v, l, rfl, by simp, hv, hd⟩
      · rintro ⟨a, w, b, hl, ha, -, hd⟩
        cases a with
        | nil => cases hl; exact hd
        | cons u a =>
          cases hl
          have := ha v (by simp)
          rw [show sees v.beginTx = true from hv] at this
          cases this
    · next hv =>
      have hv' : sees v.beginTx = false := by simpa [TupleVersion.toVersion] using hv
      rw [newest_isSome]
      constructor
      · rintro ⟨a, w, b, rfl, ha, hw, hd⟩
        refine ⟨v :: a, w, b, rfl, ?_, hw, hd⟩
        intro u hu
        rcases List.mem_cons.1 hu with rfl | hu
        · exact hv'
        · exact ha u hu
      · rintro ⟨a, w, b, hl, ha, hw, hd⟩
        cases a with
        | nil =>
          cases hl
          rw [hv'] at hw
          cases hw
        | cons u a =>
          cases hl
          exact ⟨a, w, b, rfl, fun u hu => ha u (by simp [hu]), hw, hd⟩

theorem sees_iff {snapshot : Snapshot} (hc : RowChain e.heap rel row l) (hl : Linked 0 l) :
    e.sees snapshot owner rel row = true ↔ e.Shows owner snapshot.visibleCsn l := by
  have hread : e.sees snapshot owner rel row =
      (newest (fun y => e.txs.isTxVisible y snapshot owner)
        (l.map TupleVersion.toVersion)).isSome := by
    rw [← firstVisible_linked hl (.inl rfl), sees, getForRelation_chain hc]
    cases hitPayload (firstVisible e.txs snapshot owner l) <;> rfl
  rw [hread, newest_isSome]
  unfold Shows
  simp only [← isTxVisible_iff, Bool.not_eq_true]

theorem isLive_iff (hcsn : CsnInv e) (hc : RowChain e.heap rel row l) (hl : Linked 0 l) :
    e.isLive rel row = true ↔ ∃ owner csn, e.View owner csn ∧ e.Shows owner csn l := by
  unfold isLive
  rw [Bool.or_eq_true, List.any_eq_true, List.any_eq_true]
  constructor
  · rintro (⟨⟨x, t⟩, hx, h⟩ | ⟨c, -, h⟩)
    · rw [Bool.and_eq_true, decide_eq_true_eq, sees_iff hc hl] at h
      exact ⟨some x, _, .inl ⟨x, t, rfl, AList.mem_lookup_iff.2 hx, h.1, rfl⟩, h.2⟩
    · rw [Bool.and_eq_true, decide_eq_true_eq, sees_iff hc hl] at h
      exact ⟨none, c, .inr ⟨rfl, h.1⟩, h.2⟩
  · rintro ⟨owner, csn, ⟨x, t, rfl, ht, hp, rfl⟩ | ⟨rfl, hle⟩, hsh⟩
    · left
      refine ⟨⟨x, t⟩, AList.mem_lookup_iff.1 ht, ?_⟩
      rw [Bool.and_eq_true, decide_eq_true_eq, sees_iff hc hl]
      exact ⟨hp, hsh⟩
    · right
      have hlt := hcsn.frontier.lt
      -- all CSNs are below the next one
      have hsame : ∀ x, e.SeenBy none csn x ↔ e.SeenBy none (min csn e.txs.nextCsn) x := by
        intro x
        refine or_congr Iff.rfl (exists_congr fun c => and_congr_right fun h => ?_)
        have := hcsn.lt x c (.inl h)
        omega
      obtain ⟨a, v, b, rfl, ha, hv, hd⟩ := hsh
      refine ⟨min csn e.txs.nextCsn, by rw [List.mem_range]; omega, ?_⟩
      rw [Bool.and_eq_true, decide_eq_true_eq, sees_iff hc hl]
      exact ⟨by omega, a, v, b, rfl, fun w hw h => ha w hw ((hsame _).2 h), (hsame _).1 hv, hd⟩

def Shown (e : Engine) (l : List TupleVersion) : Prop :=
  ∃ owner csn, e.View owner csn ∧ e.Shows owner csn l

theorem Shows.congr {owner' : Option Nat} {csn csn' : Nat} (h : e'.Shows owner' csn' l)
    (hs : ∀ v ∈ l, e.SeenBy owner csn v.beginTx ↔ e'.SeenBy owner' csn' v.beginTx) :
    e.Shows owner csn l := by
  obtain ⟨a, v, b, rfl, ha, hv, hd⟩ := h
  exact ⟨a, v, b, rfl, fun w hw hsw => ha w hw ((hs w (by simp [hw])).1 hsw),
    (hs v (by simp)).2 hv, hd⟩

theorem Shown.of_refresh (ht : e.txns.lookup tx = some t) (hp : t.phase ≠ .closed)
    (hle : t.snapshot.visibleCsn ≤ c) (hpub : c = e.txs.publishedCsn) (h : e.Shows (some tx) c l) :
    e.Shown l := by
  obtain ⟨a, v, b, rfl, ha, hv, hd⟩ := h
  by_cases hown : v.beginTx = tx
  · refine ⟨some tx, _, .inl ⟨tx, t, rfl, ht, hp, rfl⟩, a, v, b, rfl, ?_, .inl (by rw [hown]), hd⟩
    rintro w hw (h | ⟨cw, h1, h2⟩)
    · exact ha w hw (.inl h)
    · exact ha w hw (.inr ⟨cw, h1, h2.trans hle⟩)
  · refine ⟨none, c, .inr ⟨rfl, hpub.symm.le⟩, a, v, b, rfl, ?_, ?_, hd⟩
    · rintro w hw (h | h)
      · cases h
      · exact ha w hw (.inr h)
    · rcases hv with h | h
      · exact absurd (Option.some.inj h).symm hown
      · exact .inr h

/-- A step shows no chain that was there before and that nobody saw: what the transaction publishes,
it has seen itself. -/
theorem Moved.shown {st : TxState} (hM : Moved e tx t st e') (hi : TxInv e)
    (hl : ∀ v ∈ l, v.beginTx < e.txs.nextTx)
    (hcsn : ∀ c, st = .committed c → e.txs.publishedCsn < c) (h : e'.Shown l) : e.Shown l := by
  have hst : ∀ x c, x ≠ tx → (e'.txs.state x = .committed c ↔ e.txs.state x = .committed c) := by
    intro x c hx
    rw [hM.state, if_neg hx]
  have hnot : ∀ v ∈ l, ∀ c, e.txs.state v.beginTx = .committed c → v.beginTx ≠ tx := by
    rintro v hv c hc rfl
    rw [hM.live hi (hl v hv)] at hc
    cases hc
  obtain ⟨owner, csn, hV, hS⟩ := h
  rcases hV with ⟨x, t', rfl, hx, hp, rfl⟩ | ⟨rfl, hle⟩
  · -- snapshots of transactions are not above the published CSN
    have hS' : t'.snapshot.visibleCsn ≤ e.txs.publishedCsn →
        e.Shows (some x) t'.snapshot.visibleCsn l := by
      refine fun hle => hS.congr fun v hv => or_congr Iff.rfl (exists_congr fun c => ?_)
      by_cases hvt : v.beginTx = tx
      · rw [hM.state, if_pos hvt]
        refine iff_of_false (fun h => hnot v hv c h.1 hvt) fun h => ?_
        have := hcsn c h.1
        omega
      · rw [hst _ c hvt]
    rw [hM.lookup] at hx
    split at hx
    · next hxt =>
      cases hx
      subst hxt
      replace hS' := hS' (hM.visible hi)
      rcases hM.was with ⟨hnew, hsnap⟩ | ⟨t0, h0, hp0, -, -, hsnap | ⟨-, hsnap⟩⟩
      · -- the new transaction has written nothing yet
        refine ⟨none, _, .inr ⟨rfl, hsnap.symm.le⟩,
          hS'.congr fun v hv => or_congr (iff_of_false nofun ?_) Iff.rfl⟩
        rintro ⟨⟩
        exact absurd (hl v hv) (hnew ▸ lt_irrefl _)
      · rw [hsnap] at hS'
        exact ⟨some x, _, .inl ⟨x, t0, rfl, h0, hp0, rfl⟩, hS'⟩
      · rw [hsnap] at hS'
        exact .of_refresh h0 hp0 (hi.visible x t0 h0) rfl hS'
    · exact ⟨some x, _, .inl ⟨x, t', rfl, hx, hp, rfl⟩, hS' (hi.visible x t' hx)⟩
  · obtain ⟨a, v, b, rfl, ha, hv, hd⟩ := hS
    have hbefore : ∀ w ∈ a, ∀ c ≤ csn, e.txs.state w.beginTx ≠ .committed c := fun w hw c hc h =>
      ha w hw (.inr ⟨c, (hst _ c (hnot w (by simp [hw]) c h)).2 h, hc⟩)
    rcases hv with h | ⟨c, hc, hcle⟩
    · cases h
    · by_cases hvt : v.beginTx = tx
      · -- the closing transaction's own version
        obtain ⟨t0, h0, hp0, -⟩ := hM.was.resolve_left fun h => (hl v (by simp)).ne (hvt.trans h.1)
        have hvis := hi.visible tx t0 h0
        have hpub := hM.published
        refine ⟨some tx, _, .inl ⟨tx, t0, rfl, h0, hp0, rfl⟩, a, v, b, rfl, ?_,
          .inl (by rw [hvt]), hd⟩
        rintro w hw (h | ⟨cw, h1, h2⟩)
        · refine ha w hw (.inr ⟨c, ?_, hcle⟩)
          rw [← Option.some.inj h, ← hvt]
          exact hc
        · exact hbefore w hw cw (by omega) h1
      · refine ⟨none, csn, .inr ⟨rfl, hM.published.trans hle⟩, a, v, b, rfl, ?_,
          .inr ⟨c, (hst _ c hvt).1 hc, hcle⟩, hd⟩
        rintro w hw (h | ⟨cw, h1, h2⟩)
        · cases h
        · exact hbefore w hw cw h2 h1

theorem CsnInv.published_lt (hcsn : CsnInv e) (h : e.Committing tx c) : e.txs.publishedCsn < c :=
  (hcsn.frontier.pending c ((hcsn.pending c).2 ⟨tx, h⟩)).1

theorem step_shown (hi : TxInv e) (hcsn : CsnInv e) (hl : ∀ v ∈ l, v.beginTx < e.txs.nextTx)
    (hs : e.step op = .ok e') (h : e'.Shown l) : e.Shown l := by
  obtain ⟨tx, t, st, hM, hcom, -⟩ := step_moved hi hs
  exact hM.shown hi hl (fun c hc => hcsn.published_lt (hcom c hc)) h

theorem Replaced.shown {value : Option Bytes} (hi : TxInv e)
    (hc : RowChain e.heap (e.heap.normRel rel) row l)
    (hl : Linked 0 l) (hlt : ∀ v ∈ l, v.beginTx < e.txs.nextTx)
    (hs : e.Replaced tx rel row value e') : e.Shown l := by
  obtain ⟨t, e1, current, heap, hlock, hcur, -, -⟩ := hs
  have hT := lockRowForRelation_touch hlock
  obtain ⟨a, b, rfl, hvis, ha, -⟩ := visibleTupleForWrite_ok hc hcur
  have hp : t.phase ≠ .closed := by rw [isOpen_iff.1 hT.isOpen]; simp
  refine (hT.moved hi).shown hi hlt (by simp) ⟨some tx, _, .inl ⟨tx, t, rfl, hT.self, hp, rfl⟩, a,
    current, b, rfl, ?_,
    isTxVisible_iff.1 (beginTx_visible hvis).1, (beginTx_visible hvis).2⟩
  intro w hw hseen
  have := beginTx_invisible hl (.inl rfl) ha w hw
  rw [isTxVisible_iff.2 hseen] at this
  cases this

structure LiveInv (e : Engine) : Prop where
  tx : TxInv e
  csn : CsnInv e
  wf : HeapWf e.heap
  chains : ChainsOk e

theorem liveInv_create (relId lanes : Nat) (pageSize : PageSize)
    (segmentBytes walBufferBytes : Nat) :
    LiveInv (create relId lanes pageSize segmentBytes walBufferBytes) :=
  ⟨txInv_create .., csnInv_create .., heapWf_create .., chainsOk_create _ _ _ _ _⟩

theorem LiveInv.step (hI : LiveInv e) (hs : e.step op = .ok e') : LiveInv e' :=
  ⟨(step_tx hI.tx hs).1, (step_csn hI.tx hI.csn hs).inv, (step_heap hI.wf hs).1.wf,
    hI.chains.step hI.tx hI.wf hs⟩

theorem LiveInv.isLive_step (hI : LiveInv e) (hs : e.step op = .ok e')
    (hno : ¬ op.insertsAt e.heap.relId (rel, row)) (h : e'.isLive rel row = true) :
    e.isLive rel row = true := by
  obtain ⟨hg, hd⟩ := step_heap hI.wf hs
  obtain ⟨l, h1, h2, h3⟩ := hI.chains rel row
  rw [isLive_iff hI.csn h1 h2]
  obtain ⟨l', h1', h2', h3'⟩ := (hI.step hs).chains rel row
  rw [isLive_iff (hI.step hs).csn h1' h2'] at h
  by_cases hw : ∀ w, op.write? e.heap.relId = some w → w.1 ≠ (rel, row)
  · -- not written: the chain is the one from before
    obtain rfl := h1'.det (h1.grows hg (hd (rel, row) hw))
    exact step_shown hI.tx hI.csn h3 hs h
  · push Not at hw
    obtain ⟨w, hw, hk⟩ := hw
    cases op with
    | insertForRelation tx rel' row' payload =>
      cases hw
      exact absurd hk hno
    | updateForRelation tx rel' row' payload =>
      cases hw
      cases hk
      exact (Replaced.of_update hs).shown hI.tx h1 h2 h3
    | deleteForRelation tx rel' row' =>
      cases hw
      cases hk
      exact (Replaced.of_delete hs).shown hI.tx h1 h2 h3
    | _ => cases hw

section Runs
variable {relId lanes segmentBytes walBufferBytes : Nat} {pageSize : PageSize}
    {P : Engine → Op → Prop} {ops ops' : List Op}
  (hrun : Run Engine.step P (create relId lanes pageSize segmentBytes walBufferBytes) ops e)
include hrun

theorem LiveInv.of_run : LiveInv e :=
  hrun.invariant (I := fun _ e => LiveInv e) (liveInv_create ..) fun _ _ _ _ hI _ hs => hI.step hs

/-- A read goes through at any snapshot and returns the newest version in the row's chain that the
snapshot sees. -/
theorem getForRelation_eq_newest (snapshot : Snapshot) (owner : Option Nat) (rel row : Nat) :
    e.heap.getForRelation e.txs snapshot owner rel row =
      .ok (newest (fun x => e.txs.isTxVisible x snapshot owner)
      ((e.heap.versions rel row).map TupleVersion.toVersion)) := by
  obtain ⟨l, hc, hl, -⟩ := (LiveInv.of_run hrun).chains rel row
  rw [getForRelation_chain hc, firstVisible_linked hl (.inl rfl), versions_eq hc]

/-- A row that nobody sees stays so, whatever the transactions do, until it is inserted. -/
theorem isLive_of_later
    (hlater : Run Engine.step (fun e op => ¬ op.insertsAt e.heap.relId (rel, row)) e ops' e')
    (hlive : e'.isLive rel row = true) : e.isLive rel row = true :=
  have hkept :=
    hlater.invariant (I := fun _ s => LiveInv s ∧
    (s.isLive rel row = true → e.isLive rel row = true))
    ⟨LiveInv.of_run hrun, id⟩ fun _ _ _ _ hI hno hs =>
      ⟨hI.1.step hs, fun h => hI.2 (hI.1.isLive_step hs hno h)⟩
  hkept.2 hlive

end Runs

theorem getForRelation_eq_newest_traceUpdates :
    ∃ e, Run Engine.step (fun _ _ => True) small traceUpdates e ∧
    newest (fun x => e.txs.isTxVisible x e.txs.snapshot none)
      ((e.heap.versions 7 1).map TupleVersion.toVersion) =
      some [3] := by
  obtain ⟨e, hrun, hread⟩ : ∃ e, Run Engine.step (fun _ _ => True) small traceUpdates e ∧
    e.heap.getForRelation e.txs e.txs.snapshot none 7 1 = .ok (some [3]) := by decide
  rw [getForRelation_eq_newest hrun] at hread
  exact ⟨e, hrun, Except.ok.inj hread⟩

theorem isLive_of_later_rollback :
    ∃ e, Run Engine.step (fun _ _ => True) small (traceUpdates.take 7) e ∧
    e.isLive 7 1 = true := by
  obtain ⟨e, hrun, e', hs, hlive⟩ :
      ∃ e, Run Engine.step (fun _ _ => True) small (traceUpdates.take 7) e ∧
    ∃ e' ∈ (e.step (.rollback 3)).toOption, e'.isLive 7 1 = true := by decide
  exact ⟨e, hrun, isLive_of_later hrun (.cons id (mem_toOption.1 hs) .nil) hlive⟩

end Engine
end RedlineDb
