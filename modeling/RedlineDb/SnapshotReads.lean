import RedlineDb.EngineSpec
import RedlineDb.Lib.Versions

/-!
# Snapshot reads

The history of a row is read off the calls of a run. A read should return the transaction's own
newest version, or else the newest one committed within its snapshot (`specRead`). The row's chain
stands for the history (`Lib.Tracks`) as long as no write removes a version from it that a reader
may need: an insert only over a row that is gone for everybody, an update or delete behind an
aborted head only when the newest version left is the one the writer sees.
-/

namespace RedlineDb
open Lib PageBackedHeap List

def TupleVersion.toVersion (t : TupleVersion) : Version Nat Bytes :=
  ⟨t.beginTx, if t.deleted then none else some t.payload⟩

/-- The row a call writes, in a heap of relation `relId`, and the version it writes. -/
def Op.write? (relId : Nat) : Op → Option ((Nat × Nat) × Version Nat Bytes)
  | .insertForRelation tx rel row payload =>
      some ((if rel = 0 then relId else rel, row), ⟨tx, some payload⟩)
  | .updateForRelation tx rel row payload =>
      some ((if rel = 0 then relId else rel, row), ⟨tx, some payload⟩)
  | .deleteForRelation tx rel row => some ((if rel = 0 then relId else rel, row), ⟨tx, none⟩)
  | _ => none

def history (relId : Nat) (key : Nat × Nat) (ops : List Op) : List (Version Nat Bytes) :=
  ops.reverse.filterMap fun op => (op.write? relId).bind fun w => if w.1 = key then
    some w.2 else none

theorem history_snoc (relId : Nat) (key : Nat × Nat) (ops : List Op) (op : Op) :
    history relId key (ops ++ [op]) =
      ((op.write? relId).bind fun w => if w.1 = key then some w.2 else none).toList ++
      history relId key ops := by
  simp only [history, reverse_append, reverse_cons, reverse_nil, nil_append,
    singleton_append, filterMap_cons]
  cases (op.write? relId).bind fun w => if w.1 = key then some w.2 else none <;> rfl

/-- What a snapshot read of a row should return: the value of the newest version the transaction
wrote itself, else of the newest version committed within the snapshot. -/
def specRead (txs : ConcurrentTxStatus) (snapshot : Snapshot) (tx : Nat)
    (vs : List (Version Nat Bytes)) :
    Option Bytes :=
  match vs.find? (fun v => v.tx = tx) with
  | some v => v.value
  | none =>
    match vs.find? (fun v => match txs.state v.tx with
      | .committed csn => csn ≤ snapshot.visibleCsn
      | _ => false) with
    | some v => v.value
    | none => none

/-! ### Reading a linked chain -/

def Linked : Nat → List TupleVersion → Prop
  | _, [] => True
  | x, t :: l => t.endTx = x ∧ Linked t.beginTx l

section Linked
variable {txs : ConcurrentTxStatus} {snapshot : Snapshot} {owner : Option Nat} {x : Nat}
    {l a b : List TupleVersion}
  {t : TupleVersion}

theorem Linked.suffix (hl : Linked x (a ++ t :: b)) : Linked t.beginTx b := by
  induction a generalizing x with
  | nil => exact hl.2
  | cons _ a ih => exact ih hl.2

theorem visibility_of_end (hx : t.endTx = 0 ∨ txs.isTxVisible t.endTx snapshot owner = false) :
    t.visibility txs snapshot owner =
      if txs.isTxVisible t.beginTx snapshot owner then (if t.deleted then .deleted else .visible)
        else .invisible := by
  unfold TupleVersion.visibility
  cases hb : txs.isTxVisible t.beginTx snapshot owner with
  | false => simp
  | true =>
    rw [if_neg (by simp)]
    rw [if_neg (by rcases hx with hx | hx <;> simp [hx])]
    rfl

theorem firstVisible_linked (hl : Linked x l)
    (hx : x = 0 ∨ txs.isTxVisible x snapshot owner = false) :
    hitPayload (firstVisible txs snapshot owner l) =
      newest (fun y => txs.isTxVisible y snapshot owner) (l.map TupleVersion.toVersion) := by
  induction l generalizing x with
  | nil => rfl
  | cons t l ih =>
    obtain ⟨rfl, hl⟩ := hl
    simp only [firstVisible, visibility_of_end hx, map_cons, newest]
    cases hb : txs.isTxVisible t.beginTx snapshot owner with
    | false =>
      simp only [Bool.false_eq_true, ite_false, TupleVersion.toVersion, hb]
      exact ih hl (.inr hb)
    | true =>
      simp only [ite_true, TupleVersion.toVersion, hb]
      cases t.deleted <;> rfl

theorem beginTx_invisible (hl : Linked x (a ++ b))
    (hx : x = 0 ∨ txs.isTxVisible x snapshot owner = false)
    (ha : ∀ v ∈ a, v.visibility txs snapshot owner = .invisible) :
    ∀ v ∈ a, txs.isTxVisible v.beginTx snapshot owner = false := by
  induction a generalizing x with
  | nil => simp
  | cons t a ih =>
    obtain ⟨rfl, hl⟩ := hl
    have ht := ha t (by simp)
    have hb : txs.isTxVisible t.beginTx snapshot owner = false := by
      rw [visibility_of_end hx] at ht
      cases hb : txs.isTxVisible t.beginTx snapshot owner with
      | false => rfl
      | true =>
        rw [hb] at ht
        cases hd : t.deleted <;> simp [hd] at ht
    intro v hv
    rcases mem_cons.1 hv with rfl | hv
    · exact hb
    · exact ih hl (.inr hb) (fun w hw => ha w (by simp [hw])) v hv

theorem beginTx_visible (hv : t.visibility txs snapshot owner = .visible) :
    txs.isTxVisible t.beginTx snapshot owner = true ∧ t.deleted = false := by
  unfold TupleVersion.visibility at hv
  split at hv
  · cases hv
  · next h1 =>
    split at hv
    · cases hv
    · split at hv
      · cases hv
      · next h3 => exact ⟨by simpa using h1, by simpa using h3⟩

end Linked

/-! ### The versions of a row, and when a write keeps what readers need -/

namespace PageBackedHeap
variable {h : PageBackedHeap}

def undoVersions (h : PageBackedHeap) : Nat → Nat → List TupleVersion
  | 0, _ => []
  | fuel + 1, ptr =>
    match h.readUndo ptr with
    | .ok u => u.beforeImage :: h.undoVersions fuel u.prevUndo
    | .error _ => []

def versions (h : PageBackedHeap) (rel row : Nat) : List TupleVersion :=
  match h.headForRelation rel row with
  | none => []
  | some ptr =>
    match h.readTuple ptr with
    | .ok t => t :: h.undoVersions t.undoHead t.undoHead
    | .error _ => []

theorem undoVersions_eq {row ptr fuel : Nat} {l : List TupleVersion} (hc : UndoChain h row ptr l)
    (hf : ptr ≤ fuel) : h.undoVersions fuel ptr = l := by
  induction hc generalizing fuel with
  | nil =>
    cases fuel with
    | zero => rfl
    | succ n => simp [undoVersions, readUndo, require, bind, Except.bind]
  | @cons ptr u l h1 _ h3 _ _ ih =>
    obtain ⟨n, rfl⟩ : ∃ n, fuel = n + 1 := ⟨fuel - 1, by omega⟩
    simp only [undoVersions, h1]
    rw [ih (by omega)]

theorem versions_eq {rel row : Nat} {l : List TupleVersion} (hc : RowChain h rel row l) :
    h.versions rel row = l := by
  unfold versions
  cases hc with
  | none h1 => rw [h1]
  | some h1 h2 _ h4 =>
    rw [h1]
    simp only [h2, undoVersions_eq h4 le_rfl]

end PageBackedHeap

namespace Engine

def writeSnapshot (e : Engine) (t : Txn) : Snapshot :=
  if t.isolation = .readCommitted then e.txs.snapshot else t.snapshot

/-- The row is gone for everybody: its newest version that is not aborted and not the inserter's
own, if there is one, is a delete that every open transaction sees. -/
def InsertOk (e : Engine) (tx : Nat) (key : Nat × Nat) : Prop :=
  ∀ v ∈ (e.heap.versions key.1 key.2).find? (fun v => v.beginTx ≠ tx ∧
    e.txs.state v.beginTx ≠ .aborted),
    v.deleted = true ∧ ∀ p ∈ e.txns.entries, p.2.isOpen = true →
      e.txs.isTxVisible v.beginTx p.2.snapshot none = true

/-- The newest version of the row that is not aborted is visible to the writer. -/
def WriteOk (e : Engine) (tx : Nat) (key : Nat × Nat) : Prop :=
  ∀ v ∈ (e.heap.versions key.1 key.2).find? (fun v => e.txs.state v.beginTx ≠ .aborted),
    ∀ t ∈ e.txns.lookup tx, e.txs.isTxVisible v.beginTx (e.writeSnapshot t) (some tx) = true

def RowStepOk (key : Nat × Nat) (e : Engine) : Op → Prop
  | .insertForRelation tx rel row _ => (e.heap.normRel rel, row) = key → InsertOk e tx key
  | .updateForRelation tx rel row _ => (e.heap.normRel rel, row) = key → WriteOk e tx key
  | .deleteForRelation tx rel row => (e.heap.normRel rel, row) = key → WriteOk e tx key
  | _ => True

instance (e : Engine) (tx : Nat) (key : Nat × Nat) : Decidable (InsertOk e tx key) :=
  inferInstanceAs (Decidable (∀ v ∈ _, _))

instance (e : Engine) (tx : Nat) (key : Nat × Nat) : Decidable (WriteOk e tx key) :=
  inferInstanceAs (Decidable (∀ v ∈ _, ∀ t ∈ _, _))

instance (key : Nat × Nat) (e : Engine) : DecidablePred (RowStepOk key e)
  | .insertForRelation _ _ _ _ => inferInstanceAs (Decidable (_ = _ → InsertOk _ _ _))
  | .updateForRelation _ _ _ _ => inferInstanceAs (Decidable (_ = _ → WriteOk _ _ _))
  | .deleteForRelation _ _ _ => inferInstanceAs (Decidable (_ = _ → WriteOk _ _ _))
  | .begin _ | .getForRelation _ _ _ | .lockRowForRelation _ _ _ | .appendCommit _ | .finishCommit _
  | .failCommit _ | .rollback _ => isTrue trivial

/-! ### The invariant of one row -/

variable {e e' : Engine} {key : Nat × Nat} {tx : Nat} {vs : List (Version Nat Bytes)}
    {l : List TupleVersion}

def Aborted (e : Engine) (x : Nat) : Prop := e.txs.state x = .aborted

def SeenByAll (e : Engine) (x : Nat) : Prop :=
  ∃ csn, e.txs.state x = .committed csn ∧ csn ≤ e.txs.publishedCsn ∧
    ∀ y t, e.txns.lookup y = some t → t.isOpen → csn ≤ t.snapshot.visibleCsn

structure RowInv (e : Engine) (key : Nat × Nat) (vs : List (Version Nat Bytes))
    (l : List TupleVersion) :
    Prop where
  chain : RowChain e.heap key.1 key.2 l
  linked : Linked 0 l
  tracks : Tracks e.Aborted e.SeenByAll vs (l.map TupleVersion.toVersion)
  /-- The newest version is the chain's head. -/
  top : ∀ w vs', vs = w :: vs' → ∃ t l', l = t :: l' ∧ t.toVersion = w
  /-- A running writer's versions are on top. -/
  own : ∀ v ∈ vs, e.txs.state v.tx = .inProgress → ∃ w vs', vs = w :: vs' ∧ w.tx = v.tx
  known : ∀ v ∈ vs, 1 ≤ v.tx ∧ v.tx < e.txs.nextTx

variable {rel relId row x : Nat} {op : Op}

theorem SeenByAll.mono (hle : TxLe e e') (hs : e.SeenByAll x) : e'.SeenByAll x := by
  obtain ⟨csn, h1, h2, h3⟩ := hs
  refine ⟨csn, hle.committed x csn h1, h2.trans hle.published, ?_⟩
  intro y t hy hop
  rcases hle.snapshot y t hy hop with h | ⟨t0, h4, h5, h6⟩
  · exact h2.trans h
  · exact (h3 y t0 h4 h5).trans h6

section
variable (hr : RowInv e key vs l)
include hr

theorem RowInv.tracks_mono (hle : TxLe e e') :
    Tracks e'.Aborted e'.SeenByAll vs (l.map TupleVersion.toVersion) :=
  hr.tracks.mono (fun w hw h => hle.aborted w.tx (hr.known w hw).2 h) fun _ _ h => h.mono hle

theorem RowInv.frame (hle : TxLe e e')
    (hc : RowChain e'.heap key.1 key.2 l) : RowInv e' key vs l := by
  refine ⟨hc, hr.linked, hr.tracks_mono hle, hr.top, ?_, ?_⟩
  · intro v hv hst
    exact hr.own v hv (hle.inProgress v.tx (hr.known v hv).2 hst)
  · intro v hv
    exact ⟨(hr.known v hv).1, (hr.known v hv).2.trans_le hle.next⟩

theorem RowInv.head_running {v : Version Nat Bytes} (hv : v ∈ vs)
    (hst : e.txs.state v.tx = .inProgress) : ∃ t l', l = t :: l' ∧ t.beginTx = v.tx := by
  obtain ⟨w, vs', hvs, hw⟩ := hr.own v hv hst
  obtain ⟨t, l', hl, ht⟩ := hr.top w vs' hvs
  refine ⟨t, l', hl, ?_⟩
  rw [← hw, ← ht]
  rfl

theorem RowInv.push {t : TupleVersion} {l' : List TupleVersion} (hle : TxLe e e')
    (hc : RowChain e'.heap key.1 key.2 (t :: l')) (hlink : Linked 0 (t :: l'))
    (htr : Tracks e'.Aborted e'.SeenByAll (t.toVersion :: vs)
      ((t :: l').map TupleVersion.toVersion))
    (hpos : 1 ≤ t.beginTx) (hlt : t.beginTx < e'.txs.nextTx)
    (hown : ∀ v ∈ vs, e.txs.state v.tx = .inProgress → v.tx = t.beginTx) :
    RowInv e' key (t.toVersion :: vs) (t :: l') := by
  refine ⟨hc, hlink, htr, ?_, ?_, ?_⟩
  · rintro w vs' ⟨⟩
    exact ⟨t, l', rfl, rfl⟩
  · intro v hv hst
    refine ⟨t.toVersion, vs, rfl, ?_⟩
    rcases mem_cons.1 hv with rfl | hv
    · rfl
    · exact (hown v hv (hle.inProgress v.tx (hr.known v hv).2 hst)).symm
  · intro v hv
    rcases mem_cons.1 hv with rfl | hv
    · exact ⟨hpos, hlt⟩
    · exact ⟨(hr.known v hv).1, (hr.known v hv).2.trans_le hle.next⟩

end

variable {txs : ConcurrentTxStatus}

theorem isTxVisible_none {snapshot : Snapshot} :
    txs.isTxVisible x snapshot none = true ↔ ∃ csn, txs.state x = .committed csn ∧
      csn ≤ snapshot.visibleCsn := by
  unfold ConcurrentTxStatus.isTxVisible
  cases txs.state x <;> simp

theorem isTxVisible_some {y : Nat} {snapshot : Snapshot} :
    txs.isTxVisible x snapshot (some y) = true ↔
      x = y ∨ ∃ csn, txs.state x = .committed csn ∧ csn ≤ snapshot.visibleCsn := by
  unfold ConcurrentTxStatus.isTxVisible
  simp only [Option.some.injEq]
  split
  · next h => simp [h]
  · next h => cases txs.state x <;> simp [h]

variable {t : Txn}

theorem InsertOk.settled (hok : InsertOk e tx key) (hi : TxInv e) (ht : e.txns.lookup tx = some t)
    (hopen : t.isOpen) (hc : RowChain e.heap key.1 key.2 l) :
    Settled e.Aborted e.SeenByAll tx (l.map TupleVersion.toVersion) := by
  unfold InsertOk at hok
  rw [versions_eq hc] at hok
  have hskip : ∀ v : TupleVersion,
      (!decide (v.beginTx ≠ tx ∧ e.txs.state v.beginTx ≠ .aborted)) = true →
      v.toVersion.tx = tx ∨ e.Aborted v.toVersion.tx := by
    intro v hv
    simp only [Bool.not_eq_true', decide_eq_false_iff_not, not_and, not_not, ne_eq] at hv
    by_cases hx : v.beginTx = tx
    · exact .inl hx
    · exact .inr (hv hx)
  cases hf : l.find? (fun v => v.beginTx ≠ tx ∧ e.txs.state v.beginTx ≠ .aborted) with
  | none =>
    refine ⟨l.map TupleVersion.toVersion, [], by simp, ?_, by simp⟩
    intro w hw
    obtain ⟨v, hv, rfl⟩ := mem_map.1 hw
    have := find?_eq_none.1 hf v hv
    exact hskip v (by rw [Bool.not_eq_true'] ; exact Bool.eq_false_iff.2 this)
  | some v =>
    obtain ⟨-, a, b, rfl, ha⟩ := find?_eq_some_iff_append.1 hf
    obtain ⟨hdel, hvis⟩ := hok v (by rw [hf]; rfl)
    refine ⟨a.map TupleVersion.toVersion, (v :: b).map TupleVersion.toVersion, by simp, ?_, ?_⟩
    · intro w hw
      obtain ⟨x, hx, rfl⟩ := mem_map.1 hw
      exact hskip x (ha x hx)
    · rintro w b' hb
      obtain ⟨rfl, -⟩ := hb
      refine ⟨by simp [TupleVersion.toVersion, hdel], ?_⟩
      have hall : ∀ y t, e.txns.lookup y = some t → t.isOpen →
          ∃ csn, e.txs.state v.beginTx = .committed csn ∧ csn ≤ t.snapshot.visibleCsn :=
        fun y t hy hop => isTxVisible_none.1 (hvis ⟨y, t⟩ (AList.mem_lookup_iff.1 hy) hop)
      obtain ⟨csn, hcsn, hle⟩ := hall tx t ht hopen
      refine ⟨csn, hcsn, hle.trans (hi.visible tx t ht), ?_⟩
      intro y t' hy hop
      obtain ⟨csn', hcsn', hle'⟩ := hall y t' hy hop
      rw [hcsn] at hcsn'
      cases hcsn'
      exact hle'

theorem RowInv.insert {payload : Bytes} (hi : TxInv e) (hw : HeapWf e.heap)
    (hr : RowInv e (e.heap.normRel rel, row) vs l) (hok : InsertOk e tx (e.heap.normRel rel, row))
    (hs : e.insertForRelation tx rel row payload = .ok e') :
    ∃ l', RowInv e' (e.heap.normRel rel, row) (⟨tx, some payload⟩ :: vs) l' := by
  obtain ⟨t, e1, hT, -, heap, hins, rfl⟩ := insertForRelation_eq_ok hs
  obtain ⟨t0, h0, hopen, -⟩ := hT.snapshot
  have hle := ((hT.moved hi).txLe hi).setHeap heap
  have hset := hok.settled hi h0 hopen hr.chain
  refine ⟨_, hr.push hle (insertForRelation_ok hw hins).chain ⟨rfl, trivial⟩ ?_
    (hi.pos tx t0 h0) ((hi.lt h0).trans_le hle.next) ?_⟩
  · refine .cut ((hr.tracks.settled hset).mono ?_ ?_)
    · exact fun w hw h => hle.aborted w.tx (hr.known w hw).2 h
    · exact fun _ _ h => h.mono hle
  · -- another running writer would be on top of a chain that is settled for the inserter
    intro v hv hst
    obtain ⟨th, l', rfl, hth⟩ := hr.head_running hv hst
    obtain ⟨a, b, hab, h1, h2⟩ := hset
    cases a with
    | nil =>
      obtain ⟨-, csn, hcsn, -⟩ := h2 _ _ hab.symm
      have hcsn' : e.txs.state th.beginTx = .committed csn := hcsn
      rw [hth, hst] at hcsn'
      cases hcsn'
    | cons x a =>
      simp only [map_cons, cons_append, cons.injEq] at hab
      obtain ⟨rfl, -⟩ := hab
      rcases h1 th.toVersion (by simp) with h | h
      · exact hth.symm.trans h
      · have h' : e.txs.state th.beginTx = .aborted := h
        rw [hth, hst] at h'
        cases h'

variable {a b : List TupleVersion}

/-- Under the condition on writes, what the write check skips above the version it returns is
aborted. -/
theorem WriteOk.skipped_aborted {current : TupleVersion}
    (hok : WriteOk e tx key) (ht : e.txns.lookup tx = some t)
    (hc : RowChain e.heap key.1 key.2 (a ++ current :: b))
    (hl : Linked 0 (a ++ current :: b))
    (ha : ∀ v ∈ a, v.visibility e.txs (e.writeSnapshot t) (some tx) = .invisible) :
    ∀ v ∈ a, e.txs.state v.beginTx = .aborted := by
  have hinv := beginTx_invisible hl (.inl rfl) ha
  unfold WriteOk at hok
  rw [versions_eq hc] at hok
  intro v hv
  by_contra hne
  -- the first version that is not aborted lies among the skipped ones, yet the writer sees it
  cases hf : a.find? (fun v => e.txs.state v.beginTx ≠ .aborted) with
  | none =>
    have := find?_eq_none.1 hf v hv
    simp only [decide_eq_true_eq] at this
    exact this hne
  | some w =>
    have hf' : (a ++ current :: b).find? (fun v => e.txs.state v.beginTx ≠ .aborted) = some w := by
      rw [find?_append, hf]; rfl
    have h1 := hok w (by rw [hf']; rfl) t ht
    have h2 := hinv w (mem_of_find?_eq_some hf)
    rw [h2] at h1
    cases h1

theorem RowInv.replace {next current : TupleVersion} {undoPtr : Nat}
    (hi : TxInv e) (hr : RowInv e key vs (a ++ current :: b)) (hle : TxLe e e')
    (hok : WriteOk e tx key)
    (ht : e.txns.lookup tx = some t)
    (hvis : current.visibility e.txs (e.writeSnapshot t) (some tx) = .visible)
    (ha : ∀ v ∈ a, v.visibility e.txs (e.writeSnapshot t) (some tx) = .invisible)
    (htop : ∀ x a', a = x :: a' → e.txs.state x.beginTx = .aborted) (hnb : next.beginTx = tx)
    (hne : next.endTx = 0)
    (hc : RowChain e'.heap key.1 key.2
      ({ next with undoHead := undoPtr } :: { current with endTx := tx } :: b)) :
    RowInv e' key (next.toVersion :: vs)
      ({ next with undoHead := undoPtr } :: { current with endTx := tx } :: b) := by
  have hskip := hok.skipped_aborted ht hr.chain hr.linked ha
  refine hr.push hle hc ⟨hne, hnb.symm, hr.linked.suffix⟩ ?_ ?_ ?_ ?_
  · refine .keep ?_
    have htr := hr.tracks
    rw [map_append, map_cons] at htr
    refine (htr.drop_aborted ?_).mono (fun w hw h => hle.aborted w.tx (hr.known w hw).2 h)
      fun _ _ h => h.mono hle
    intro w hw
    obtain ⟨v, hv, rfl⟩ := mem_map.1 hw
    exact hskip v hv
  · exact hnb ▸ hi.pos tx t ht
  · exact hnb ▸ (hi.lt ht).trans_le hle.next
  · -- a running writer on top would be invisible to another one, and is not aborted
    intro v hv hst
    obtain ⟨th, l', hl', hth⟩ := hr.head_running hv hst
    rw [hnb]
    cases a with
    | nil =>
      obtain ⟨rfl, -⟩ := hl'
      obtain ⟨h1, -⟩ := beginTx_visible hvis
      rw [hth] at h1
      rcases isTxVisible_some.1 h1 with h | ⟨csn, h, -⟩
      · exact h
      · rw [hst] at h; cases h
    | cons x a =>
      simp only [cons_append, cons.injEq] at hl'
      obtain ⟨rfl, -⟩ := hl'
      have := htop x a rfl
      rw [hth, hst] at this
      cases this

theorem Touch.visibility_eq {t t0 : Txn} {v : TupleVersion} {owner : Option Nat}
    (hT : Touch e tx t e')
    (hsnap : t.snapshot = if t0.isolation = .readCommitted then e.txs.snapshot else t0.snapshot) :
    v.visibility e'.txs t.snapshot owner = v.visibility e.txs (e.writeSnapshot t0) owner := by
  rw [hsnap, hT.txs]
  rfl

def Replaced (e : Engine) (tx rel row : Nat) (value : Option Bytes) (e' : Engine) : Prop :=
  ∃ t e1 current heap, e.lockRowForRelation tx rel row = .ok (t, e1) ∧
    e.heap.visibleTupleForWriteInRelation tx t.snapshot e1.txs rel row = .ok current ∧
    e.heap.Replaces tx rel row current value heap ∧ e' = { e1 with heap }

theorem Replaced.of_update {payload : Bytes}
    (hs : e.updateForRelation tx rel row payload = .ok e') :
    e.Replaced tx rel row (some payload) e' := by
  obtain ⟨t, e1, hlock, heap, hup, rfl⟩ := updateForRelation_eq_ok hs
  simp only [PageBackedHeap.updateForRelation, bind_eq_ok] at hup
  obtain ⟨current, hcur, happ⟩ := hup
  exact ⟨t, e1, current, heap, hlock, hcur, .of_update happ, rfl⟩

theorem Replaced.of_delete (hs : e.deleteForRelation tx rel row = .ok e') :
    e.Replaced tx rel row none e' := by
  obtain ⟨t, e1, hlock, heap, hdel, rfl⟩ := deleteForRelation_eq_ok hs
  simp only [PageBackedHeap.deleteForRelation, bind_eq_ok] at hdel
  obtain ⟨current, hcur, happ⟩ := hdel
  exact ⟨t, e1, current, heap, hlock, hcur, .of_delete happ, rfl⟩

theorem RowInv.replaced {value : Option Bytes} (hi : TxInv e) (hw : HeapWf e.heap)
    (hr : RowInv e (e.heap.normRel rel, row) vs l) (hok : WriteOk e tx (e.heap.normRel rel, row))
    (hs : e.Replaced tx rel row value e') :
    ∃ l', RowInv e' (e.heap.normRel rel, row) (⟨tx, value⟩ :: vs) l' := by
  obtain ⟨t, e1, current, heap, hlock, hcur, hR, rfl⟩ := hs
  have hT := lockRowForRelation_touch hlock
  obtain ⟨t0, h0, -, -, -, hsnap⟩ := hT.snapshot
  obtain ⟨a, b, rfl, hvis, ha, htop⟩ := PageBackedHeap.visibleTupleForWrite_ok hr.chain hcur
  obtain ⟨next, undoPtr, rfl, hne, rfl, hW⟩ := hR.wrote hw (hr.chain.suffix rfl)
  exact ⟨_, hr.replace hi (((hT.moved hi).txLe hi).setHeap heap) hok h0
    (hT.visibility_eq hsnap ▸ hvis)
    (fun v hv => hT.visibility_eq hsnap ▸ ha v hv)
    (fun x a' hxa => hT.state x.beginTx ▸ htop x a' hxa) rfl hne hW.chain⟩

theorem grows_setWal {h : PageBackedHeap} (hw : HeapWf h) (wal : WalCoordinator) :
    Grows h { h with wal } :=
  ⟨{ hw with }, fun _ _ h => h, fun _ _ h => h, rfl⟩

theorem write?_eq {tx : Nat} {value : Option Bytes}
    (h : op.write? e.heap.relId = some ((e.heap.normRel rel, row), ⟨tx, value⟩))
    (hk : (e.heap.normRel rel, row) = key) :
    ((op.write? e.heap.relId).bind fun w => if w.1 = key then some w.2 else none).toList =
    [⟨tx, value⟩] := by
  rw [h]
  simp [hk]

/-- What a step is to the heap: at most a change of the log, or a write to one row. -/
theorem step_heap_cases (hs : e.step op = .ok e') :
    (op.write? e.heap.relId = none ∧ ∃ wal, e'.heap = { e.heap with wal }) ∨
    (∃ tx rel row payload, op = .insertForRelation tx rel row payload ∧
      e.heap.insertForRelation tx rel row payload 1 = .ok e'.heap) ∨
    (∃ tx rel row payload snapshot txs, op = .updateForRelation tx rel row payload ∧
      e.heap.updateForRelation tx snapshot txs rel row payload 1 = .ok e'.heap) ∨
    ∃ tx rel row snapshot txs, op = .deleteForRelation tx rel row ∧
      e.heap.deleteForRelation tx snapshot txs rel row 1 = .ok e'.heap := by
  cases stepped hs with
  | begin hb => exact .inl ⟨rfl, _, (begin_ok hb).1⟩
  | get hT | lock hT => exact .inl ⟨rfl, _, hT.heap⟩
  | insert _ hins => exact .inr (.inl ⟨_, _, _, _, rfl, hins⟩)
  | update _ hup => exact .inr (.inr (.inl ⟨_, _, _, _, _, _, rfl, hup⟩))
  | delete _ hdel => exact .inr (.inr (.inr ⟨_, _, _, _, _, rfl, hdel⟩))
  | appendCommit ha =>
    obtain ⟨t, a, wal, -, -, -, rfl⟩ := appendCommit_ok ha
    exact .inl ⟨rfl, wal, rfl⟩
  | finishCommit hf =>
    obtain ⟨t, csn, endLsn, d, wal, -, -, -, rfl⟩ := finishCommit_ok hf
    exact .inl ⟨rfl, wal, rfl⟩
  | failCommit hf =>
    obtain ⟨t, csn, endLsn, -, -, rfl⟩ := failCommit_ok hf
    exact .inl ⟨rfl, _, rfl⟩
  | rollback hr =>
    obtain ⟨t, -, -, rfl⟩ := rollback_ok hr
    exact .inl ⟨rfl, _, rfl⟩

theorem step_heap (hw : HeapWf e.heap) (hs : e.step op = .ok e') :
    Grows e.heap e'.heap ∧ ∀ key, (∀ w, op.write? e.heap.relId = some w → w.1 ≠ key) →
      e'.heap.headForRelation key.1 key.2 = e.heap.headForRelation key.1 key.2 := by
  obtain ⟨-, wal, hwal⟩ | hwrite := step_heap_cases hs
  · rw [hwal]
    exact ⟨grows_setWal hw wal, fun _ _ => rfl⟩
  · obtain ⟨rel, row, v, hop, hW⟩ : ∃ rel row v, op.write? e.heap.relId =
        some ((e.heap.normRel rel, row), v) ∧
        WroteAt e.heap (e.heap.normRel rel) row e'.heap := by
      rcases hwrite with ⟨tx, rel, row, payload, rfl, hins⟩ |
        ⟨tx, rel, row, payload, _, _, rfl, hup⟩ | ⟨tx, rel, row, _, _, rfl, hdel⟩
      · exact ⟨rel, row, _, rfl, (insertForRelation_ok hw hins).toWroteAt⟩
      · exact ⟨rel, row, _, rfl, updateForRelation_at hw hup⟩
      · exact ⟨rel, row, _, rfl, deleteForRelation_at hw hdel⟩
    exact ⟨hW.grows, fun key hk => hW.other key.1 key.2 (Ne.symm (hk _ hop))⟩

structure ReadInv (relId : Nat) (key : Nat × Nat) (ops : List Op) (e : Engine) : Prop where
  tx : TxInv e
  wf : HeapWf e.heap
  rel : e.heap.relId = relId
  row : ∃ l, RowInv e key (history relId key ops) l

variable {ops : List Op}

theorem ReadInv.frame (hI : ReadInv relId key ops e)
    (hs : e.step op = .ok e') (hk : ∀ w, op.write? e.heap.relId = some w → w.1 ≠ key) :
    ReadInv relId key (ops ++ [op]) e' := by
  obtain ⟨hi, hle⟩ := step_tx hI.tx hs
  obtain ⟨hg, hd⟩ := step_heap hI.wf hs
  obtain ⟨l, hr⟩ := hI.row
  refine ⟨hi, hg.wf, hg.relId.trans hI.rel, l, ?_⟩
  have hnone : ((op.write? relId).bind fun w => if w.1 = key then some w.2 else none) = none := by
    rw [← hI.rel]
    cases hw : op.write? e.heap.relId with
    | none => rfl
    | some w => simp [hk w hw]
  rw [history_snoc, hnone]
  exact hr.frame hle (hr.chain.grows hg (hd key hk))

theorem ReadInv.step (hI : ReadInv relId key ops e)
    (hok : RowStepOk key e op) (hs : e.step op = .ok e') : ReadInv relId key (ops ++ [op]) e' := by
  obtain ⟨hi, -⟩ := step_tx hI.tx hs
  obtain ⟨hg, -⟩ := step_heap hI.wf hs
  obtain ⟨l, hr⟩ := hI.row
  by_cases hk : ∀ w, op.write? e.heap.relId = some w → w.1 ≠ key
  · exact hI.frame hs hk
  · -- the step writes the row
    refine ⟨hi, hg.wf, hg.relId.trans hI.rel, ?_⟩
    rw [history_snoc, ← hI.rel]
    simp only [not_forall, not_not] at hk
    obtain ⟨w, hw, hkey⟩ := hk
    have hr' := hI.rel ▸ hr
    cases op with
    | insertForRelation tx rel row payload =>
      cases hw
      rw [write?_eq rfl hkey]
      subst hkey
      exact RowInv.insert hI.tx hI.wf hr' (hok rfl) hs
    | updateForRelation tx rel row payload =>
      cases hw
      rw [write?_eq rfl hkey]
      subst hkey
      exact RowInv.replaced hI.tx hI.wf hr' (hok rfl) (.of_update hs)
    | deleteForRelation tx rel row =>
      cases hw
      rw [write?_eq rfl hkey]
      subst hkey
      exact RowInv.replaced hI.tx hI.wf hr' (hok rfl) (.of_delete hs)
    | _ => cases hw

theorem ReadInv.of_run {lanes segmentBytes walBufferBytes : Nat} {pageSize : PageSize}
    (hrun : Run Engine.step (RowStepOk key)
      (create relId lanes pageSize segmentBytes walBufferBytes) ops e) :
    ReadInv relId key ops e := by
  refine hrun.invariant (I := ReadInv relId key) ?_ ?_
  · refine ⟨txInv_create _ _ _ _ _, heapWf_create _ _ _ _ _, rfl, [], .none rfl, trivial, .nil,
      ?_, ?_, ?_⟩
    · intro w vs' h; cases h
    · intro v hv; cases hv
    · intro v hv; cases hv
  · intro is s i s' hI hP hs
    exact hI.step hP hs

/-- For an open transaction, the newest version it sees is its own newest one or else the newest one
committed within its snapshot. -/
theorem RowInv.newest_eq_specRead (hr : RowInv e key vs l) (hi : TxInv e)
    (ht : e.txns.lookup tx = some t) (hopen : t.isOpen) :
    newest (fun y => e.txs.isTxVisible y t.snapshot (some tx)) vs =
      specRead e.txs t.snapshot tx vs := by
  have hrun := hi.running tx t ht (by rw [isOpen_iff.1 hopen]; simp)
  unfold specRead
  cases hown : vs.find? (fun v => v.tx = tx) with
  | some v =>
    have hv := mem_of_find?_eq_some hown
    have hvt : v.tx = tx := by simpa using find?_some hown
    obtain ⟨w, vs', rfl, hw⟩ := hr.own v hv (by rw [hvt]; exact hrun)
    rw [hvt] at hw
    have hwv : w = v := by
      rw [find?_cons_of_pos (by simpa using hw)] at hown
      exact Option.some.inj hown
    simp only [newest, hw]
    rw [if_pos (isTxVisible_some.2 (.inl rfl)), hwv]
  | none =>
    have hno : ∀ v ∈ vs, v.tx ≠ tx := by
      intro v hv
      simpa using find?_eq_none.1 hown v hv
    clear hown hr
    induction vs with
    | nil => rfl
    | cons v vs ih =>
      have hv : some v.tx ≠ some tx := by simpa using hno v (by simp)
      simp only [newest, ConcurrentTxStatus.isTxVisible, if_neg hv, find?_cons]
      cases hst : e.txs.state v.tx with
      | committed csn =>
        by_cases hle : csn ≤ t.snapshot.visibleCsn
        · simp [hle]
        · simp only [hle, decide_false]
          exact ih fun w hw => hno w (by simp [hw])
      | inProgress => exact ih fun w hw => hno w (by simp [hw])
      | aborted => exact ih fun w hw => hno w (by simp [hw])

/-- In every run whose writes to the row meet the condition, a snapshot read by an open transaction
returns its own newest version of the row, or else the newest one committed within its snapshot. -/
theorem getForRelation_eq_specRead {relId lanes segmentBytes walBufferBytes rel row : Nat}
    {pageSize : PageSize}
    {ops : List Op} {t : Txn}
    (hrun : Run step (RowStepOk (rel, row))
      (create relId lanes pageSize segmentBytes walBufferBytes) ops e)
    (ht : e.txns.lookup tx = some t) (hopen : t.isOpen) :
    e.heap.getForRelation e.txs t.snapshot (some tx) rel row =
      .ok (specRead e.txs t.snapshot tx (history relId (rel, row) ops)) := by
  have hI := ReadInv.of_run hrun
  obtain ⟨l, hr⟩ := hI.row
  rw [getForRelation_chain hr.chain, firstVisible_linked hr.linked (.inl rfl),
    ← hr.newest_eq_specRead hI.tx ht hopen]
  congr 1
  have hrunning := hI.tx.running tx t ht (by rw [isOpen_iff.1 hopen]; simp)
  refine hr.tracks.newest_eq ?_ ?_
  · intro x hx
    rw [Bool.eq_false_iff, ne_eq, isTxVisible_some]
    have hx' : e.txs.state x = .aborted := hx
    rintro (rfl | ⟨csn, h, -⟩)
    · rw [hrunning] at hx'; cases hx'
    · rw [h] at hx'; cases hx'
  · rintro x ⟨csn, h1, -, h3⟩
    exact isTxVisible_some.2 (.inr ⟨csn, h1, h3 tx t ht hopen⟩)

def small : Engine := create 1 1 .small 4096 4096

def traceUpdates : List Op :=
  [.begin .snapshot, .insertForRelation 1 7 1 [1], .appendCommit 1, .finishCommit 1,
    .begin .snapshot,
   .begin .snapshot, .updateForRelation 3 7 1 [2], .rollback 3, .begin .readCommitted,
   .updateForRelation 4 7 1 [3], .appendCommit 4, .finishCommit 4]

theorem getForRelation_eq_specRead_traceUpdates :
    ∃ (e : Engine) (t : Txn), e.txns.lookup 2 = some t ∧ t.isOpen ∧
      e.heap.getForRelation e.txs t.snapshot (some 2) 7 1 =
        .ok (specRead e.txs t.snapshot 2 (history 1 (7, 1) traceUpdates)) := by
  obtain ⟨e, hrun, t, ht, hopen⟩ : ∃ e, Run Engine.step (RowStepOk (7, 1)) small traceUpdates e ∧
      ∃ t ∈ e.txns.lookup 2, t.isOpen := by decide
  exact ⟨e, t, ht, hopen, getForRelation_eq_specRead hrun ht hopen⟩

def traceInsertOver : List Op :=
  [.begin .snapshot, .insertForRelation 1 7 1 [1], .appendCommit 1, .finishCommit 1,
    .begin .snapshot,
   .begin .snapshot, .insertForRelation 3 7 1 [2]]

def traceSkippedCommit : List Op :=
  [.begin .snapshot, .insertForRelation 1 7 1 [1], .appendCommit 1, .finishCommit 1,
    .begin .snapshot,
   .begin .snapshot, .updateForRelation 3 7 1 [2], .appendCommit 3, .finishCommit 3,
     .begin .snapshot,
   .updateForRelation 4 7 1 [3], .rollback 4, .begin .snapshot, .updateForRelation 2 7 1 [4]]

def readsWrong (ops : List Op) (tx : Nat) (e : Engine) : Bool :=
  (e.txns.lookup tx).any fun t => t.isOpen &&
    decide (e.heap.getForRelation e.txs t.snapshot (some tx) 7 1 ≠
      .ok (specRead e.txs t.snapshot tx (history 1 (7, 1) ops)))

theorem getForRelation_ne_specRead :
    (∃ e, Run step (fun _ _ => True) small traceInsertOver e ∧ readsWrong traceInsertOver 2 e) ∧
      ∃ e, Run step (fun _ _ => True) small traceSkippedCommit e ∧
        readsWrong traceSkippedCommit 5 e := by
  decide

end Engine
end RedlineDb
