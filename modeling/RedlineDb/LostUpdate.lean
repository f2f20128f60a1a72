import RedlineDb.RowLocks
import RedlineDb.SnapshotReads

/-!
# No lost updates

`Engine::update` and `Engine::delete` lock the row, check which version they replace, and append;
other threads run in between. `Threads` splits a call into `startWrite` (up to the check) and
`finishUpdate` or `finishDelete` (the append). The row lock keeps the row's chain as the check saw
it. Along the chain every version lies above versions committed before its writer, within the
snapshot of a writer under snapshot isolation; so two such writers of a row see each other's commits
in order.
-/

namespace RedlineDb
open Lib PageBackedHeap List

/-- An engine with calls of `update` and `delete` under way: the row and the version to replace. -/
structure Threads where
  engine : Engine
  pending : AList (fun _ : Nat => Nat × TupleVersion)

inductive Action
  | call (op : Op)
  | startWrite (tx row : Nat)
  | finishUpdate (tx row : Nat) (payload : Bytes)
  | finishDelete (tx row : Nat)
  | failWrite (tx : Nat)
deriving DecidableEq

namespace Threads

/-- `lock_row` and the write check of `Engine::update` and `Engine::delete`. -/
def startWrite (s : Threads) (tx row : Nat) : Except Error Threads := do
  let (t, engine) ← s.engine.lockRowForRelation tx s.engine.heap.relId row
  let current ← engine.heap.visibleTupleForWriteInRelation tx t.snapshot engine.txs
    engine.heap.relId row
  return { engine, pending := s.pending.insert tx (row, current) }

def finish (s : Threads) (tx row : Nat) (append : TupleVersion → Except Error PageBackedHeap) :
    Except Error Threads :=
  match s.pending.lookup tx with
  | some (row', current) => do
    require (row' = row) .transactionClosed
    let heap ← append current
    return { engine := { s.engine with heap }, pending := s.pending.erase tx }
  | none => .error .transactionClosed

def step (s : Threads) : Action → Except Error Threads
  | .call op => do
    require (∀ tx ∈ op.tx?, s.pending.lookup tx = none) .transactionClosed
    let engine ← s.engine.step op
    return { s with engine }
  | .startWrite tx row => do
    require (s.pending.lookup tx = none) .transactionClosed
    s.startWrite tx row
  | .finishUpdate tx row payload =>
    s.finish tx row fun current =>
      s.engine.heap.appendUpdateVersion tx s.engine.heap.relId row payload current 1
  | .finishDelete tx row =>
    s.finish tx row fun current => s.engine.heap.appendDeleteVersion tx s.engine.heap.relId row
      current 1
  | .failWrite tx => do
    require (s.pending.lookup tx ≠ none) .transactionClosed
    return { s with pending := s.pending.erase tx }

def writer? (relId row : Nat) : Action → Option Nat
  | .call op => (op.write? relId).bind fun w => if w.1 = (relId, row) then some w.2.tx else none
  | .finishUpdate tx row' _ => if row' = row then some tx else none
  | .finishDelete tx row' => if row' = row then some tx else none
  | _ => none

/-- The row is written by one insert, then by `update` and `delete` on the engine's relation. -/
def SameRow (row : Nat) (s : Threads) : Action → Prop
  | .call (.insertForRelation _ rel row' _) => (s.engine.heap.normRel rel, row') =
      (s.engine.heap.relId, row) →
      s.engine.heap.headForRelation s.engine.heap.relId row = none
  | .call (.updateForRelation _ rel row' _) => (s.engine.heap.normRel rel, row') =
      (s.engine.heap.relId, row) →
      rel = s.engine.heap.relId
  | .call (.deleteForRelation _ rel row') => (s.engine.heap.normRel rel, row') =
      (s.engine.heap.relId, row) →
      rel = s.engine.heap.relId
  | _ => True

/-- When a write of the row is checked, the newest version that is not aborted is visible to the
writer. -/
def ChecksOk (row : Nat) (s : Threads) : Action → Prop
  | .call (.updateForRelation tx rel row' _) => (s.engine.heap.normRel rel, row') =
      (s.engine.heap.relId, row) →
      s.engine.WriteOk tx (s.engine.heap.relId, row)
  | .call (.deleteForRelation tx rel row') => (s.engine.heap.normRel rel, row') =
      (s.engine.heap.relId, row) →
      s.engine.WriteOk tx (s.engine.heap.relId, row)
  | .startWrite tx row' => row' = row → s.engine.WriteOk tx (s.engine.heap.relId, row)
  | _ => True

instance (row : Nat) (s : Threads) : DecidablePred (SameRow row s)
  | .call (.insertForRelation _ _ _ _) => inferInstanceAs (Decidable (_ = _ → _ = _))
  | .call (.updateForRelation _ _ _ _) => inferInstanceAs (Decidable (_ = _ → _ = _))
  | .call (.deleteForRelation _ _ _) => inferInstanceAs (Decidable (_ = _ → _ = _))
  | .call (.begin _) | .call (.getForRelation _ _ _) | .call (.lockRowForRelation _ _ _)
  | .call (.appendCommit _)
  | .call (.finishCommit _) | .call (.failCommit _) | .call (.rollback _) | .startWrite _ _
  | .finishUpdate _ _ _ | .finishDelete _ _ | .failWrite _ => isTrue trivial

instance (row : Nat) (s : Threads) : DecidablePred (ChecksOk row s)
  | .call (.updateForRelation _ _ _ _) => inferInstanceAs (Decidable (_ = _ → Engine.WriteOk _ _ _))
  | .call (.deleteForRelation _ _ _) => inferInstanceAs (Decidable (_ = _ → Engine.WriteOk _ _ _))
  | .startWrite _ _ => inferInstanceAs (Decidable (_ = _ → Engine.WriteOk _ _ _))
  | .call (.begin _) | .call (.getForRelation _ _ _) | .call (.insertForRelation _ _ _ _)
  | .call (.lockRowForRelation _ _ _) | .call (.appendCommit _) | .call (.finishCommit _)
  | .call (.failCommit _)
  | .call (.rollback _) | .finishUpdate _ _ _ | .finishDelete _ _ | .failWrite _ => isTrue trivial

end Threads

namespace Engine
variable {e e' : Engine} {tx : Nat} {key : Nat × Nat} {t : Txn} {ws : List Nat}
    {l : List TupleVersion}

/-! ### Order along a chain -/

/-- Writer `w` committed before writer `u` will, within the snapshot of `u` if that is fixed. -/
def Before (e : Engine) (u w : Nat) : Prop :=
  ∃ c, e.txs.state w = .committed c ∧ c ≤ e.txs.publishedCsn ∧
    (∀ t, e.txns.lookup u = some t → t.isolation = .snapshot → c ≤ t.snapshot.visibleCsn) ∧
    ∀ c', e.HasCsn u c' → c < c'

def Over (e : Engine) (u w : Nat) : Prop := w = u ∨ e.Before u w

variable {row u w : Nat} {current : TupleVersion} {heap : PageBackedHeap}

theorem Over.trans {v : Nat} (h1 : e.Over u v) (h2 : e.Over v w) : e.Over u w := by
  rcases h1 with rfl | ⟨c, hc, hpub, hsnap, hcsn⟩
  · exact h2
  · rcases h2 with rfl | ⟨c', hc', hpub', -, hcsn'⟩
    · exact .inr ⟨c, hc, hpub, hsnap, hcsn⟩
    · have hlt := hcsn' c (.inl hc)
      exact .inr ⟨c', hc', hpub', fun t ht hiso => by have := hsnap t ht hiso; omega,
        fun d hd => by have := hcsn d hd; omega⟩

theorem Over.mono (hl : Later e e') (hc : CsnInv e) (hu : u < e.txs.nextTx) (ho : e.Over u w) :
    e'.Over u w := by
  refine ho.imp id ?_
  rintro ⟨c, h1, h2, h3, h4⟩
  refine ⟨c, hl.committed w c h1, h2.trans hl.published, ?_, ?_⟩
  · intro t' ht' hiso
    obtain ⟨t, ht, hi, hs⟩ := hl.txn u t' hu ht'
    rw [hs (hi ▸ hiso)]
    exact h3 t ht (hi ▸ hiso)
  · intro c' hc'
    rcases hl.csn u c' hc' with h | h
    · exact h4 c' h
    · have := hc.frontier.lt
      omega

structure RowOrd (e : Engine) (key : Nat × Nat) (ws : List Nat) (l : List TupleVersion) : Prop where
  chain : RowChain e.heap key.1 key.2 l
  linked : Linked 0 l
  ordered : l.Pairwise fun v w => e.Over v.beginTx w.beginTx
  kept : ∀ w ∈ ws, e.txs.state w ≠ .aborted → ∃ v ∈ l, v.beginTx = w
  known : (∀ v ∈ l, v.beginTx < e.txs.nextTx) ∧ ∀ w ∈ ws, w < e.txs.nextTx

theorem RowOrd.frame (hr : RowOrd e key ws l) (hl : Later e e') (hc : CsnInv e)
    (hch : RowChain e'.heap key.1 key.2 l) : RowOrd e' key ws l := by
  refine ⟨hch, hr.linked, ?_, ?_, ?_, ?_⟩
  · exact hr.ordered.imp_of_mem fun hv _ ho => ho.mono hl hc (hr.known.1 _ hv)
  · intro w hw hne
    exact hr.kept w hw fun h => hne (hl.aborted w (hr.known.2 w hw) h)
  · exact fun v hv => (hr.known.1 v hv).trans_le hl.next
  · exact fun w hw => (hr.known.2 w hw).trans_le hl.next

structure Ready (e : Engine) (key : Nat × Nat) (tx : Nat) (l : List TupleVersion)
    (current : TupleVersion) : Prop where
  owner : e.locks.lookup key = some tx
  txn : ∃ t, e.txns.lookup tx = some t ∧ t.isOpen
  split : ∃ a b, l = a ++ current :: b ∧ ∀ v ∈ a, e.txs.state v.beginTx = .aborted
  isOver : e.Over tx current.beginTx

theorem Ready.frame {x : Nat} (hr : Ready e key tx l current) (hi : TxInv e)
    (hk : ∀ v ∈ l, v.beginTx < e.txs.nextTx) (hl : Later e e') (hc : CsnInv e) (hS : Spares e x e')
    (hx : tx ≠ x) :
    Ready e' key tx l current := by
  obtain ⟨t, ht, hopen⟩ := hr.txn
  obtain ⟨a, b, rfl, ha⟩ := hr.split
  refine ⟨hS.owned tx key hx hr.owner, ⟨t, by rw [hS.txn tx hx]; exact ht, hopen⟩, ⟨a, b, rfl, ?_⟩,
    hr.isOver.mono hl hc (hi.lt ht)⟩
  intro v hv
  exact hl.aborted v.beginTx (hk v (by simp [hv])) (ha v hv)

theorem normRel_relId (h : PageBackedHeap) : h.normRel h.relId = h.relId := by
  unfold normRel
  split
  · rfl
  · rfl

theorem WriteOk.ready {t' : Txn} (hi : TxInv e) (hL : LockInv e)
    (hr : RowOrd e (e.heap.relId, row) ws l) (hok : WriteOk e tx (e.heap.relId, row))
    (hl : e.lockRowForRelation tx e.heap.relId row = .ok (t', e'))
    (hcur : e'.heap.visibleTupleForWriteInRelation tx t'.snapshot e'.txs e'.heap.relId row =
      .ok current) :
    Ready e' (e.heap.relId, row) tx l current := by
  have hT := lockRowForRelation_touch hl
  obtain ⟨t0, h0, hopen, -, -, hsnap⟩ := hT.snapshot
  obtain ⟨-, hown, -⟩ := lockRowForRelation_locks hL hl
  rw [hT.heap] at hcur
  obtain ⟨a, b, rfl, hvis, ha, -⟩ :=
    visibleTupleForWrite_ok (by rw [normRel_relId]; exact hr.chain) hcur
  have hskip := hok.skipped_aborted h0 hr.chain hr.linked fun v hv =>
      hT.visibility_eq hsnap ▸ ha v hv
  refine ⟨hown, ⟨t', hT.self, hT.isOpen⟩,
    ⟨a, b, rfl, fun v hv => by rw [hT.state]; exact hskip v hv⟩, ?_⟩
  rcases isTxVisible_some.1 (beginTx_visible hvis).1 with h | ⟨c, hst, hle⟩
  · exact .inl h
  · refine .inr ⟨c, hst, ?_, ?_, ?_⟩
    · exact hle.trans (((hT.moved hi).txInv hi).visible tx t' hT.self)
    · intro t ht _
      rw [hT.self] at ht
      cases ht
      exact hle
    · -- an open transaction has no CSN yet
      rintro c' (h | ⟨t, endLsn, ht, hp⟩)
      · have := ((hT.moved hi).txInv hi).running tx t' hT.self
            (by rw [isOpen_iff.1 hT.isOpen]; simp)
        rw [this] at h
        cases h
      · rw [hT.self] at ht
        cases ht
        rw [isOpen_iff.1 hT.isOpen] at hp
        cases hp

theorem Ready.push (next : TupleVersion) (hi : TxInv e)
    (hr : RowOrd e key ws l) (hrd : Ready e key tx l current) (hnb : next.beginTx = tx)
    (hne : next.endTx = 0)
    (hch : ∀ b, UndoChain e.heap key.2 current.undoHead b → ∃ undoPtr, RowChain heap key.1 key.2
        ({ next with undoHead := undoPtr } :: { current with endTx := tx } :: b)) :
    ∃ l', RowOrd { e with heap } key (tx :: ws) l' := by
  obtain ⟨t, ht, -⟩ := hrd.txn
  obtain ⟨a, b, rfl, ha⟩ := hrd.split
  have hp := (pairwise_append.1 hr.ordered).2.1
  rw [pairwise_cons] at hp
  have hbelow : ∀ w ∈ b, e.Over tx w.beginTx := fun w hw => hrd.isOver.trans (hp.1 w hw)
  obtain ⟨undoPtr, hch⟩ := hch b (hr.chain.suffix rfl)
  refine ⟨_, hch, ⟨hne, hnb.symm, hr.linked.suffix⟩, ?_, ?_, ?_, ?_⟩
  · rw [pairwise_cons, pairwise_cons]
    refine ⟨?_, hp.1, hp.2⟩
    intro w hw
    rw [hnb]
    rcases mem_cons.1 hw with rfl | hw
    · exact hrd.isOver
    · exact hbelow w hw
  · intro w hw hab
    rcases mem_cons.1 hw with rfl | hw
    · exact ⟨_, mem_cons_self, hnb⟩
    · obtain ⟨v, hv, rfl⟩ := hr.kept w hw hab
      rcases mem_append.1 hv with hv | hv
      · exact absurd (ha v hv) hab
      · rcases mem_cons.1 hv with rfl | hv
        · exact ⟨{ v with endTx := tx }, by simp, rfl⟩
        · exact ⟨v, by simp [hv], rfl⟩
  · intro v hv
    rcases mem_cons.1 hv with rfl | hv
    · exact hnb ▸ hi.lt ht
    · rcases mem_cons.1 hv with rfl | hv
      · exact hr.known.1 current (by simp)
      · exact hr.known.1 v (by simp [hv])
  · intro w hw
    rcases mem_cons.1 hw with rfl | hw
    · exact hi.lt ht
    · exact hr.known.2 w hw

theorem RowOrd.insert {rel : Nat} {payload : Bytes} (hi : TxInv e) (hw : HeapWf e.heap)
    (hr : RowOrd e (e.heap.normRel rel, row) ws [])
    (hs : e.insertForRelation tx rel row payload = .ok e') :
    ∃ l, RowOrd e' (e.heap.normRel rel, row) (tx :: ws) l := by
  obtain ⟨t, e1, hT, -, heap, hins, rfl⟩ := insertForRelation_eq_ok hs
  obtain ⟨t0, h0, -⟩ := hT.snapshot
  have hle := (hT.moved hi).txLe hi
  refine ⟨_, (insertForRelation_ok hw hins).chain, ⟨rfl, trivial⟩, by simp, ?_, ?_, ?_⟩
  · intro w hmem hab
    rcases mem_cons.1 hmem with rfl | hmem
    · exact ⟨_, mem_cons_self, rfl⟩
    · obtain ⟨v, hv, -⟩ := hr.kept w hmem fun h => hab (hle.aborted w (hr.known.2 w hmem) h)
      cases hv
  · intro v hv
    rw [mem_singleton.1 hv]
    exact (hi.lt h0).trans_le hle.next
  · intro w hmem
    rcases mem_cons.1 hmem with rfl | hmem
    · exact (hi.lt h0).trans_le hle.next
    · exact (hr.known.2 w hmem).trans_le hle.next

theorem Ready.replaces {value : Option Bytes} (hi : TxInv e) (hw : HeapWf e.heap)
    (hr : RowOrd e (e.heap.relId, row) ws l) (hrd : Ready e (e.heap.relId, row) tx l current)
    (hR : e.heap.Replaces tx e.heap.relId row current value heap) :
    ∃ l', RowOrd { e with heap } (e.heap.relId, row) (tx :: ws) l' := by
  obtain ⟨kind, next, lsn, wp, hrel, hnb, hne, -, ha⟩ := hR
  refine hrd.push next hi hr hnb hne fun b hb => ?_
  obtain ⟨undoPtr, hW⟩ := appendVersion_ok hw hrel hb ha
  rw [normRel_relId] at hW
  exact ⟨undoPtr, hW.chain⟩

structure Sound (relId : Nat) (e : Engine) : Prop where
  tx : e.TxInv
  csn : e.CsnInv
  wf : HeapWf e.heap
  locks : e.LockInv
  rel : e.heap.relId = relId

variable {relId : Nat}

theorem Sound.step {op : Op} (h : Sound relId e) (hs : e.step op = .ok e') : Sound relId e' := by
  obtain ⟨hg, -⟩ := step_heap h.wf hs
  obtain ⟨x, hS, -⟩ := step_spares_some h.locks hs
  exact ⟨(step_tx h.tx hs).1, (step_csn h.tx h.csn hs).inv, hg.wf, hS.locks, hg.relId.trans h.rel⟩

theorem Sound.setHeap (h : Sound relId e) (hg : Grows e.heap heap) : Sound relId { e with heap } :=
  ⟨h.tx.setHeap heap, { h.csn with }, hg.wf, h.locks, hg.relId.trans h.rel⟩

end Engine

namespace Threads
variable {s s' : Threads} {relId row : Nat} {acts : List Action}

def writers (relId row : Nat) (acts : List Action) : List Nat :=
  acts.reverse.filterMap (writer? relId row)

theorem writers_snoc (a : Action) :
    writers relId row (acts ++ [a]) = (writer? relId row a).toList ++ writers relId row acts := by
  simp only [writers, reverse_append, reverse_cons, reverse_nil, nil_append,
    singleton_append, filterMap_cons]
  cases writer? relId row a <;> rfl

structure RaceInv (relId row : Nat) (acts : List Action) (s : Threads) :
    Prop extends s.engine.Sound relId where
  row : ∃ l, s.engine.RowOrd (relId, row) (writers relId row acts) l ∧
    ∀ x current, s.pending.lookup x = some (row, current) → s.engine.Ready (relId, row) x l current

theorem ready_unique {e : Engine} {key : Nat × Nat} {x y : Nat} {l l' : List TupleVersion}
    {v w : TupleVersion}
    (hx : e.Ready key x l v) (hy : e.Ready key y l' w) : x = y := by
  have h := hx.owner
  rw [hy.owner] at h
  exact (Option.some.inj h).symm

variable {e' : Engine} {row' tx : Nat}

theorem writer?_call {op : Op} {w : (Nat × Nat) × Version Nat Bytes} (hw : op.write? relId = some w)
    (hk : w.1 = (relId, row)) : writer? relId row (.call op) = some w.2.tx := by
  simp [writer?, hw, hk]

section Race
variable (hI : RaceInv relId row acts s)
include hI
variable {op : Op}

theorem RaceInv.frame (hfree : ∀ tx ∈ op.tx?, s.pending.lookup tx = none)
    (hs : s.engine.step op = .ok e')
    (hk : ∀ w, op.write? relId = some w → w.1 ≠ (relId, row)) :
    RaceInv relId row (acts ++ [.call op]) { s with engine := e' } := by
  have hl := Engine.step_later hI.tx hI.csn hs
  obtain ⟨hg, hd⟩ := Engine.step_heap hI.wf hs
  obtain ⟨x, hS, hx⟩ := Engine.step_spares_some hI.locks hs
  obtain ⟨l, hr, hp⟩ := hI.row
  have hno : writer? relId row (.call op) = none := by
    simp only [writer?]
    cases hw : op.write? relId with
    | none => rfl
    | some w => simp [hk w hw]
  refine ⟨hI.toSound.step hs, l, ?_, ?_⟩
  · rw [writers_snoc, hno]
    exact hr.frame hl hI.csn (hr.chain.grows hg (hd _ (hI.rel ▸ hk)))
  · intro y current hy
    have hrd := hp y current hy
    refine hrd.frame hI.tx hr.known.1 hl hI.csn hS ?_
    rintro rfl
    rcases hx with hx | hx
    · rw [hfree y hx] at hy; cases hy
    · obtain ⟨t, ht, -⟩ := hrd.txn
      have := hI.tx.lt ht
      omega

theorem RaceInv.write {t : Txn} {e1 : Engine} {current : TupleVersion}
    (hfree : s.pending.lookup tx = none) (hok : s.engine.WriteOk tx (relId, row))
    (hlock : s.engine.lockRowForRelation tx relId row = .ok (t, e1))
    (hcur : e1.heap.visibleTupleForWriteInRelation tx t.snapshot e1.txs relId row = .ok current) :
    ∃ l, e1.RowOrd (relId, row) (writers relId row acts) l ∧ e1.Ready (relId, row) tx l current ∧
      ∀ x v, s.pending.lookup x ≠ some (row, v) := by
  obtain ⟨l, hr, hp⟩ := hI.row
  have hrel := hI.rel
  subst hrel
  have hT := Engine.lockRowForRelation_touch hlock
  have hl := hT.later hI.tx hI.csn
  have hr1 := hr.frame hl hI.csn (by rw [hT.heap]; exact hr.chain)
  have hrd := hok.ready hI.tx hI.locks hr hlock (by rw [hT.heap] at hcur ⊢; exact hcur)
  refine ⟨l, hr1, hrd, ?_⟩
  intro x v hx
  have hne : x ≠ tx := by
    rintro rfl
    rw [hfree] at hx
    cases hx
  have := (hp x v hx).frame hI.tx hr.known.1 hl hI.csn
      (Engine.lockRowForRelation_spares hI.locks hlock) hne
  exact hne (ready_unique this hrd)

theorem RaceInv.wrote {l : List TupleVersion} {w : (Nat × Nat) × Version Nat Bytes}
    (hs : s.engine.step op = .ok e')
    (hw : op.write? relId = some w) (hk : w.1 = (relId, row)) (htx : w.2.tx = tx)
    (hr : e'.RowOrd (relId, row) (tx :: writers relId row acts) l)
    (hp : ∀ x v, s.pending.lookup x ≠ some (row, v)) :
    RaceInv relId row (acts ++ [.call op]) { s with engine := e' } := by
  refine ⟨hI.toSound.step hs, l, ?_, fun y current hy => absurd hy (hp y current)⟩
  rw [writers_snoc, writer?_call hw hk, htx]
  exact hr

theorem RaceInv.insertCall {rel : Nat} {payload : Bytes}
    (hkey : (s.engine.heap.normRel rel, row) = (relId, row))
    (hnone : s.engine.heap.headForRelation relId row = none)
    (hs : s.engine.insertForRelation tx rel row payload = .ok e') :
    RaceInv relId row (acts ++ [.call (.insertForRelation tx rel row payload)])
      { s with engine := e' } := by
  obtain ⟨l, hr, hp⟩ := hI.row
  obtain rfl : l = [] := hr.chain.det (.none hnone)
  rw [← hkey] at hr
  obtain ⟨l', hr'⟩ := hr.insert hI.tx hI.wf hs
  rw [hkey] at hr'
  have hw : Op.write? relId (.insertForRelation tx rel row payload) =
      some ((relId, row), ⟨tx, some payload⟩) := by
    rw [← hkey, ← hI.rel]; rfl
  refine hI.wrote hs hw rfl rfl hr' fun y current hy => ?_
  obtain ⟨a, b, h, -⟩ := (hp y current hy).split
  simp at h

theorem RaceInv.replaceCall {value : Option Bytes}
    (hfree : s.pending.lookup tx = none) (hok : s.engine.WriteOk tx (relId, row))
    (hop : op.write? relId = some ((relId, row), ⟨tx, value⟩)) (hs : s.engine.step op = .ok e')
    (hR : s.engine.Replaced tx relId row value e') :
    RaceInv relId row (acts ++ [.call op]) { s with engine := e' } := by
  obtain ⟨t, e1, current, heap, hlock, hcur, hR, rfl⟩ := hR
  have hT := Engine.lockRowForRelation_touch hlock
  obtain ⟨l, hr, hrd, hp⟩ := hI.write hfree hok hlock (by rw [hT.heap]; exact hcur)
  have hrel : e1.heap.relId = relId := by rw [hT.heap]; exact hI.rel
  rw [← hT.heap] at hR
  subst hrel
  obtain ⟨l', hr'⟩ :=
    hrd.replaces ((hT.moved hI.tx).txInv hI.tx) (by rw [hT.heap]; exact hI.wf) hr hR
  exact hI.wrote hs hop rfl rfl hr' hp

theorem RaceInv.call (hfree : ∀ tx ∈ op.tx?, s.pending.lookup tx = none)
    (hsame : SameRow row s (.call op))
    (hok : ChecksOk row s (.call op)) (hs : s.engine.step op = .ok e') :
    RaceInv relId row (acts ++ [.call op]) { s with engine := e' } := by
  by_cases hk : ∀ w, op.write? relId = some w → w.1 ≠ (relId, row)
  · exact hI.frame hfree hs hk
  · simp only [not_forall, not_not] at hk
    obtain ⟨w, hw, hkey⟩ := hk
    obtain rfl := hI.rel
    cases op with
    | insertForRelation tx rel row' payload =>
      cases hw
      obtain rfl : row' = row := congrArg Prod.snd hkey
      exact hI.insertCall hkey (hsame hkey) hs
    | updateForRelation tx rel row' payload =>
      cases hw
      obtain rfl : row' = row := congrArg Prod.snd hkey
      obtain rfl := hsame hkey
      exact hI.replaceCall (hfree tx rfl) (hok hkey) (by simp [Op.write?]) hs (.of_update hs)
    | deleteForRelation tx rel row' =>
      cases hw
      obtain rfl : row' = row := congrArg Prod.snd hkey
      obtain rfl := hsame hkey
      exact hI.replaceCall (hfree tx rfl) (hok hkey) (by simp [Op.write?]) hs (.of_delete hs)
    | _ => cases hw

theorem RaceInv.startWrite (hfree : s.pending.lookup tx = none)
    (hok : row' = row → s.engine.WriteOk tx (relId, row)) (hs : s.startWrite tx row' = .ok s') :
    RaceInv relId row (acts ++ [.startWrite tx row']) s' := by
  simp only [Threads.startWrite, bind_eq_ok, pure_eq_ok, Prod.exists] at hs
  obtain ⟨t, e1, hlock, current, hcur, rfl⟩ := hs
  have hT := Engine.lockRowForRelation_touch hlock
  have hl := hT.later hI.tx hI.csn
  have hS := Engine.lockRowForRelation_spares hI.locks hlock
  obtain ⟨l, hr, hp⟩ := hI.row
  have hr1 := hr.frame hl hI.csn (by rw [hT.heap]; exact hr.chain)
  refine ⟨⟨(hT.moved hI.tx).txInv hI.tx, (hT.csn hI.tx hI.csn).inv, by rw [hT.heap]; exact hI.wf,
    hS.locks,
    by rw [hT.heap]; exact hI.rel⟩, l, ?_, ?_⟩
  · rw [writers_snoc]
    exact hr1
  · intro x v hx
    rcases lookup_insert_eq_some.1 hx with ⟨rfl, heq⟩ | ⟨hne, hx⟩
    · cases heq
      obtain rfl := hI.rel
      exact (hok rfl).ready hI.tx hI.locks hr hlock hcur
    · exact (hp x v hx).frame hI.tx hr.known.1 hl hI.csn hS hne

theorem RaceInv.finish {a : Action} {append : TupleVersion → Except Error PageBackedHeap}
    (ha : writer? relId row a = if row' = row then some tx else none)
    (hat : ∀ current heap, append current = .ok heap → WroteAt s.engine.heap relId row' heap)
    (hself : ∀ current heap l, append current = .ok heap → row' = row →
      s.engine.RowOrd (relId, row) (writers relId row acts) l →
        s.engine.Ready (relId, row) tx l current →
      ∃ l', Engine.RowOrd { s.engine with heap } (relId, row) (tx :: writers relId row acts) l')
    (hs : s.finish tx row' append = .ok s') : RaceInv relId row (acts ++ [a]) s' := by
  unfold Threads.finish at hs
  split at hs
  · next row0 current hpend =>
    simp only [bind_eq_ok, require_eq_ok, pure_eq_ok] at hs
    obtain ⟨-, rfl, heap, happ, rfl⟩ := hs
    obtain ⟨l, hr, hp⟩ := hI.row
    have hW := hat current heap happ
    by_cases hrow : row0 = row
    · subst hrow
      have hrd := hp tx current hpend
      obtain ⟨l', hr'⟩ := hself current heap l happ rfl hr hrd
      refine ⟨hI.toSound.setHeap hW.grows, l', ?_, ?_⟩
      · rw [writers_snoc, ha, if_pos rfl]
        exact hr'
      · intro x v hx
        obtain ⟨hne, hx⟩ := lookup_erase_eq_some.1 hx
        exact absurd (ready_unique (hp x v hx) hrd) hne
    · refine ⟨hI.toSound.setHeap hW.grows, l, ?_, ?_⟩
      · rw [writers_snoc, ha, if_neg hrow]
        refine ⟨hW.rowChain ?_ hr.chain, hr.linked, hr.ordered, hr.kept, hr.known⟩
        intro h
        exact hrow (congrArg Prod.snd h).symm
      · intro x v hx
        have hrd := hp x v (lookup_erase_eq_some.1 hx).2
        exact { hrd with }
  · cases hs

theorem RaceInv.step {a : Action} (hsame : SameRow row s a) (hok : ChecksOk row s a)
    (hs : s.step a = .ok s') : RaceInv relId row (acts ++ [a]) s' := by
  have hrel := hI.rel
  cases a with
  | call op =>
    simp only [Threads.step, bind_eq_ok, require_eq_ok, pure_eq_ok] at hs
    obtain ⟨-, hfree, e', hs, rfl⟩ := hs
    exact hI.call hfree hsame hok hs
  | startWrite tx row' =>
    simp only [Threads.step, bind_eq_ok, require_eq_ok] at hs
    obtain ⟨-, hfree, hs⟩ := hs
    exact hI.startWrite hfree (hrel ▸ hok) hs
  | finishUpdate tx row' payload =>
    subst hrel
    refine hI.finish rfl ?_ ?_ hs
    · intro current heap happ
      simp only [appendUpdateVersion, bind_eq_ok] at happ
      obtain ⟨_, -, happ⟩ := happ
      exact Engine.normRel_relId _ ▸ appendVersion_at hI.wf happ
    · rintro current heap l happ rfl hr hrd
      exact hrd.replaces hI.tx hI.wf hr (.of_update happ)
  | finishDelete tx row' =>
    subst hrel
    refine hI.finish rfl ?_ ?_ hs
    · intro current heap happ
      exact Engine.normRel_relId _ ▸ appendVersion_at hI.wf happ
    · rintro current heap l happ rfl hr hrd
      exact hrd.replaces hI.tx hI.wf hr (.of_delete happ)
  | failWrite tx =>
    obtain ⟨-, rfl⟩ := guarded_eq_ok.1 hs
    obtain ⟨l, hr, hp⟩ := hI.row
    exact ⟨hI.toSound, l, by rw [writers_snoc]; exact hr,
      fun x v hx => hp x v (lookup_erase_eq_some.1 hx).2⟩

end Race

def create (relId lanes : Nat) (pageSize : PageSize) (segmentBytes walBufferBytes : Nat) :
    Threads where
  engine := .create relId lanes pageSize segmentBytes walBufferBytes
  pending := ∅

theorem RaceInv.of_run {lanes segmentBytes walBufferBytes : Nat} {pageSize : PageSize}
    (hrun : Run Threads.step (fun s a => SameRow row s a ∧ ChecksOk row s a)
      (create relId lanes pageSize segmentBytes walBufferBytes) acts s) :
        RaceInv relId row acts s := by
  refine hrun.invariant (I := RaceInv relId row) ?_ ?_
  · refine ⟨⟨Engine.txInv_create _ _ _ _ _, Engine.csnInv_create _ _ _ _ _,
      Engine.heapWf_create _ _ _ _ _, ?_, rfl⟩,
      [], ⟨.none rfl, trivial, .nil, ?_, ?_, ?_⟩, ?_⟩
    · intro x t hx; cases hx
    · intro w hw; cases hw
    · intro v hv; cases hv
    · intro w hw; cases hw
    · intro x v hx; cases hx
  · intro is s a s' hI hP hs
    exact hI.step hP.1 hP.2 hs

/-- No lost update: in every interleaving whose checks of the row meet the condition, of two
committed writers of the row the later one, under snapshot isolation, has the earlier one in its
snapshot. -/
theorem earlier_commit_in_snapshot {lanes segmentBytes walBufferBytes x y cx cy : Nat}
    {pageSize : PageSize} {t : Txn}
    (hrun : Run step (fun s a => SameRow row s a ∧ ChecksOk row s a)
      (create relId lanes pageSize segmentBytes walBufferBytes) acts s)
    (hx : x ∈ writers relId row acts) (hy : y ∈ writers relId row acts)
    (ht : s.engine.txns.lookup x = some t) (hiso : t.isolation = .snapshot)
    (hcx : s.engine.txs.state x = .committed cx) (hcy : s.engine.txs.state y = .committed cy)
    (hlt : cy < cx) :
    cy ≤ t.snapshot.visibleCsn := by
  obtain ⟨l, hr, -⟩ := (RaceInv.of_run hrun).row
  obtain ⟨v, hv, rfl⟩ := hr.kept x hx (by rw [hcx]; simp)
  obtain ⟨w, hw, rfl⟩ := hr.kept y hy (by rw [hcy]; simp)
  have hne : v.beginTx ≠ w.beginTx := by
    intro h
    rw [← h, hcx] at hcy
    cases hcy
    omega
  -- one of the two versions lies above the other
  have : Std.Symm fun v w : TupleVersion => s.engine.Over v.beginTx w.beginTx ∨
      s.engine.Over w.beginTx v.beginTx :=
    ⟨fun _ _ h => h.symm⟩
  have hpair : l.Pairwise fun v w => s.engine.Over v.beginTx w.beginTx ∨
      s.engine.Over w.beginTx v.beginTx :=
    hr.ordered.imp fun h => .inl h
  have hcmp := hpair.forall hv hw fun h => hne (congrArg _ h)
  rcases hcmp with (h | ⟨c, hc, -, hsnap, -⟩) | (h | ⟨c, hc, -, -, hcsn⟩)
  · exact absurd h.symm hne
  · rw [hcy] at hc
    cases hc
    exact hsnap t ht hiso
  · exact absurd h hne
  · rw [hcx] at hc
    cases hc
    have := hcsn cy (.inl hcy)
    omega

def small : Threads := create 1 1 .small 4096 4096

def traceRace : List Action :=
  [.call (.begin .snapshot), .call (.insertForRelation 1 1 1 [1]), .call (.appendCommit 1),
    .call (.finishCommit 1),
   .call (.begin .snapshot), .call (.begin .snapshot), .startWrite 3 1,
     .call (.begin .readCommitted),
   .finishUpdate 3 1 [9], .call (.rollback 3), .startWrite 2 1, .call (.getForRelation 4 1 1),
     .finishUpdate 2 1 [2],
   .call (.appendCommit 2), .call (.finishCommit 2)]

theorem earlier_commit_in_snapshot_traceRace :
    ∃ (s : Threads) (t : Txn), s.engine.txns.lookup 2 = some t ∧
      s.engine.txs.state 2 = .committed 2 ∧
      s.engine.txs.state 1 = .committed 1 ∧ 1 ≤ t.snapshot.visibleCsn := by
  obtain ⟨s, hrun, hiso, h2, h1⟩ :
      ∃ s, Run step (fun s a => SameRow 1 s a ∧ ChecksOk 1 s a) small traceRace s ∧
      (s.engine.txns.lookup 2).map Txn.isolation = some .snapshot ∧
      s.engine.txs.state 2 = .committed 2 ∧
      s.engine.txs.state 1 = .committed 1 := by decide
  obtain ⟨t, ht, hiso⟩ := Option.map_eq_some_iff.1 hiso
  exact ⟨s, t, ht, h2, h1,
    earlier_commit_in_snapshot hrun (by decide) (by decide) ht hiso h2 h1 (by decide)⟩

def traceLost : List Action :=
  [.call (.begin .snapshot), .call (.insertForRelation 1 1 1 [1]), .call (.appendCommit 1),
    .call (.finishCommit 1),
   .call (.begin .snapshot), .call (.begin .snapshot), .startWrite 3 1, .finishUpdate 3 1 [2],
     .call (.appendCommit 3),
   .call (.finishCommit 3), .call (.begin .snapshot), .startWrite 4 1, .finishUpdate 4 1 [3],
     .call (.rollback 4),
   .startWrite 2 1, .finishUpdate 2 1 [4], .call (.appendCommit 2), .call (.finishCommit 2)]

/-- The CSN of `3` is above the snapshot of `2`. -/
theorem earlier_commit_not_in_snapshot :
    2 ∈ writers 1 1 traceLost ∧ 3 ∈ writers 1 1 traceLost ∧
      ∃ s, Run step (SameRow 1) small traceLost s ∧
      (s.engine.txns.lookup 2).map (fun t => (t.isolation, t.snapshot.visibleCsn)) = some
      (.snapshot, 1) ∧
      (s.engine.txns.lookup 3).map Txn.isolation = some .snapshot ∧
      s.engine.txs.state 2 = .committed 3 ∧ s.engine.txs.state 3 = .committed 2 := by
  decide +kernel

end Threads
end RedlineDb
