import RedlineDb.SqlRowids

/-!
# Automatic row ids do not collide

Under `RowidOk` the counter stays above every row id somebody sees or that a statement has taken
from it, save those of rows being deleted. Hence no row id the engine chooses is in use in its
table, from the choice up to the insert. A DELETE that looks only at its own table can lower the
counter below another table's rows.
-/

namespace RedlineDb
open Lib PageBackedHeap

/-! ### The row counter -/

namespace PageBackedHeap
variable {h h' : PageBackedHeap}

theorem insertForRelation_nextRow {tx rel row lsn : Nat} {payload : Bytes} (hw : HeapWf h)
    (hi : h.insertForRelation tx rel row payload lsn = .ok h') :
    h'.nextRow = advanceRowPast h.nextRow row := by
  simp only [insertForRelation, insertRecoveredAt, bind_eq_ok, pure_eq_ok, Prod.exists] at hi
  obtain ⟨ptr, h2, ha, rfl⟩ := hi
  obtain ⟨-, -, -, h1, hP, -, rfl⟩ := appendTuple_put
    (h := { h with nextRow := advanceRowPast (advanceRowPast h.nextRow row) row })
    { hw with } ha
  show h1.nextRow = _
  rw [hP.frame]
  simp only [advanceRowPast]
  omega

theorem appendVersion_nextRow {kind : UndoKind} {tx rel row lsn : Nat} {next current : TupleVersion}
    {wp : Option WalPayload} (hw : HeapWf h)
    (ha : h.appendVersion kind tx rel row next current lsn wp = .ok h') :
    h'.nextRow = h.nextRow := by
  simp only [appendVersion, bind_eq_ok, pure_eq_ok, Prod.exists] at ha
  obtain ⟨undoPtr, h2, hundo, ptr, h3, htup, rfl⟩ := ha
  obtain ⟨hw1, -, -, h1, pid, slot, gen, hP1, -, rfl⟩ := appendUndo_put hw.toLaneWf rfl hundo
  obtain ⟨-, -, -, h4, hP2, -, rfl⟩ := appendTuple_put hw1.1 htup
  rw [hP2.frame]
  show h1.nextRow = _
  rw [hP1.frame]

theorem HeapWf.setNextRow (hw : HeapWf h) (n : Nat) : HeapWf { h with nextRow := n } :=
  { hw with }

theorem HeapWf.grows_setNextRow (hw : HeapWf h) (n : Nat) : Grows h { h with nextRow := n } :=
  ⟨hw.setNextRow n, fun _ _ h => h, fun _ _ h => h, rfl⟩

end PageBackedHeap

namespace Engine
variable {e e' : Engine}

theorem step_nextRow {op : Op} (hw : HeapWf e.heap) (hs : e.step op = .ok e')
    (hcall : op.isCall = true ∨ ∃ iso, op = .begin iso) : e'.heap.nextRow = e.heap.nextRow := by
  rcases step_heap_cases hs with ⟨-, wal, hwal⟩ | ⟨_, _, _, _, rfl, -⟩ |
    ⟨_, _, _, _, _, _, -, hup⟩ | ⟨_, _, _, _, _, -, hdel⟩
  · rw [hwal]
  · simp [Op.isCall] at hcall
  · simp only [PageBackedHeap.updateForRelation, PageBackedHeap.appendUpdateVersion,
      bind_eq_ok] at hup
    obtain ⟨current, -, -, -, ha⟩ := hup
    exact PageBackedHeap.appendVersion_nextRow hw ha
  · simp only [PageBackedHeap.deleteForRelation, PageBackedHeap.appendDeleteVersion,
      bind_eq_ok] at hdel
    obtain ⟨current, -, ha⟩ := hdel
    exact PageBackedHeap.appendVersion_nextRow hw ha

theorem LiveInv.setNextRow (hI : LiveInv e) (n : Nat) :
    LiveInv { e with heap := { e.heap with nextRow := n } } := by
  refine ⟨hI.tx.setHeap _, { hI.csn with }, hI.wf.setNextRow n, ?_⟩
  intro rel row
  obtain ⟨l, h1, h2, h3⟩ := hI.chains rel row
  exact ⟨l, h1.grows (hI.wf.grows_setNextRow n) rfl, h2, h3⟩

theorem LiveInv.isLive_setNextRow (hI : LiveInv e) (n rel row : Nat) :
    isLive { e with heap := { e.heap with nextRow := n } } rel row = e.isLive rel row := by
  obtain ⟨l, h1, h2, -⟩ := hI.chains rel row
  have h1' := h1.grows (hI.wf.grows_setNextRow n) rfl
  rw [Bool.eq_iff_iff, isLive_iff hI.csn h1 h2, isLive_iff (hI.setNextRow n).csn h1' h2]
  exact Iff.rfl

theorem LiveInv.read_eq_none {rel row : Nat} (hI : LiveInv e) (h : e.isLive rel row = false) :
    (∀ tx t, e.txns.lookup tx = some t → t.phase ≠ .closed →
      e.heap.getForRelation e.txs t.snapshot (some tx) rel row = .ok none) ∧
    ∀ snapshot, e.txs.publishedCsn ≤ snapshot.visibleCsn →
      e.heap.getForRelation e.txs snapshot none rel row = .ok none := by
  obtain ⟨l, h1, h2, -⟩ := hI.chains rel row
  have hread : ∀ snapshot owner, e.View owner snapshot.visibleCsn →
      e.heap.getForRelation e.txs snapshot owner rel row = .ok none := by
    intro snapshot owner hV
    have hsees : e.sees snapshot owner rel row = false := by
      rw [Bool.eq_false_iff]
      intro hs
      rw [Bool.eq_false_iff] at h
      exact h ((isLive_iff hI.csn h1 h2).2 ⟨owner, _, hV, (sees_iff h1 h2).1 hs⟩)
    rw [sees] at hsees
    rw [getForRelation_chain h1] at hsees ⊢
    rcases hhit : hitPayload (firstVisible e.txs snapshot owner l) with _ | payload
    · rfl
    · rw [hhit] at hsees
      cases hsees
  constructor
  · intro tx t ht hp
    exact hread t.snapshot (some tx) (.inl ⟨tx, t, rfl, ht, hp, rfl⟩)
  · intro snapshot hle
    exact hread snapshot none (.inr ⟨rfl, hle⟩)

theorem isLive_mem {rel row : Nat} (h : e.isLive rel row = true) :
    (rel, row) ∈ e.heap.relationRowDir.keys := by
  rw [← AList.mem_keys, ← AList.lookup_isSome]
  cases hd : e.heap.relationRowDir.lookup (rel, row) with
  | some ptr => rfl
  | none =>
    have hsees : ∀ snapshot owner, e.sees snapshot owner rel row = false := by
      intro snapshot owner
      simp [sees, PageBackedHeap.getForRelation, PageBackedHeap.headForRelation, hd]
    simp [isLive, hsees] at h

end Engine

namespace Sql

/-! ### When the counter is safe -/

variable (s : Sql)

def liveRows : List (Nat × Nat) :=
  s.engine.heap.relationRowDir.keys.filter fun key => s.engine.isLive key.1 key.2

/-- A row id is taken from the counter: the counter has not reached its end, no row of the table
that is being deleted under a lowered counter is still seen at or above it, and no unfinished INSERT
has this id from the table's sequence. -/
def CounterOk (table : TableDef) : Prop :=
  s.engine.heap.nextRow < maxRowId ∧
    (∀ key ∈ s.lowered, key.1 = table.relationId → s.engine.heap.nextRow ≤ key.2 →
      key ∉ s.liveRows) ∧
    ∀ x ∈ s.choices.entries, x.2.source = .sequence → x.2.table.relationId = table.relationId →
      x.2.rowid ≠ s.engine.heap.nextRow

/-- A row id is taken from the sequence: the session's sequence or its scan reaches every row of the
table that somebody sees and every id an unfinished statement has chosen. -/
def SequenceOk (c stmt : Nat) (table : TableDef) : Prop :=
  match s.scans.lookup stmt with
  | some scan =>
    (∀ key ∈ s.liveRows, key.1 = table.relationId →
      key.2 ≤ (s.sessions c).sequences table.relationId ∨ key.2 ≤ maxRowid scan.found) ∧
    ∀ x ∈ s.choices.entries, x.2.source ≠ .explicit → x.2.table.relationId = table.relationId →
      x.2.rowid ≤ (s.sessions c).sequences table.relationId ∨ x.2.rowid ≤ maxRowid scan.found
  | none => True

/-- The counter is lowered: besides the row being deleted, the rows left in the table reach every
row of any table that somebody sees and every id an unfinished statement has taken from the counter.
-/
def LowerOk (stmt : Nat) (table : TableDef) (deleted : Nat) : Prop :=
  match s.scans.lookup stmt with
  | some scan =>
    (∀ key ∈ s.liveRows, key ≠ (table.relationId, deleted) →
      key.2 ≤ maxRowid (scan.found.filter (· ≠ deleted))) ∧
    ∀ x ∈ s.choices.entries, x.2.source = .counter →
      x.2.rowid ≤ maxRowid (scan.found.filter (· ≠ deleted))
  | none => True

/-- An explicit row id is inserted: it is not the last one, and no unfinished statement has been
given it. -/
def ExplicitOk (ch : Choice) : Prop :=
  ch.rowid < maxRowId ∧
    ∀ x ∈ s.choices.entries, x.2.source ≠ .explicit → x.2.table.relationId = ch.table.relationId →
      x.2.rowid ≠ ch.rowid

def RowidOk : SqlAction → Prop
  | .chooseInsert c stmt table value =>
    if table.rowidAlias ∧ value ≠ .null then True
    else if table.rowidAlias ∧ table.autoincrement then s.SequenceOk c stmt table
    else s.CounterOk table
  | .chooseUpdate _ _ table value _ => if table.rowidAlias ∧ value = .null then s.CounterOk table
      else True
  | .insert stmt _ =>
    match s.choices.lookup stmt with
    | some ch => ch.source = .explicit → s.ExplicitOk ch
    | none => True
  | .lowerAfterDelete stmt table deleted => if table.rowidAlias then s.LowerOk stmt table deleted
      else True
  | _ => True

/-! ### What a step does to the row ids -/

inductive Effect (s : Sql) (a : SqlAction) : Engine → AList (fun _ : Nat => Choice) →
    List (Nat × Nat) → Prop
  | quiet : Effect s a s.engine s.choices s.lowered
  | call {e : Engine} (op : Op) (hop : op.isCall = true ∨ ∃ iso, op = .begin iso)
      (he : s.engine.step op = .ok e) :
    Effect s a e s.choices s.lowered
  | discard {stmt : Nat} : Effect s a s.engine (s.choices.erase stmt) s.lowered
  | explicit {stmt : Nat} {ch : Choice} (hch : ch.source = .explicit) :
    Effect s a s.engine (s.choices.insert stmt ch) s.lowered
  | sequence (c stmt : Nat) {scan : Scan} {ch : Choice}
      (hok : RowidOk s a → s.SequenceOk c stmt ch.table)
    (hscan : s.scans.lookup stmt = some scan) (hch : ch.source = .sequence)
    (hbase : ch.rowid = max ((s.sessions c).sequences ch.table.relationId)
      (maxRowid scan.found) + 1)
    (hmax : ch.rowid ≤ maxSequence) : Effect s a s.engine (s.choices.insert stmt ch) s.lowered
  | reserve {table : TableDef} (hok : RowidOk s a → s.CounterOk table) :
    Effect s a s.reserveRowId.2.engine s.choices s.lowered
  | counter {stmt : Nat} {ch : Choice} (hok : RowidOk s a → s.CounterOk ch.table)
      (hch : ch.source = .counter)
    (hrow : ch.rowid = s.engine.heap.nextRow) :
    Effect s a s.reserveRowId.2.engine (s.choices.insert stmt ch) s.lowered
  | insert {stmt : Nat} {ch : Choice} {payload : Bytes} {e : Engine}
      (hch : s.choices.lookup stmt = some ch)
    (hok : RowidOk s a → ch.source = .explicit → s.ExplicitOk ch)
    (he : s.engine.insertForRelation ch.tx ch.table.relationId ch.rowid payload = .ok e) :
    Effect s a e (s.choices.erase stmt) (s.lowered.filter (· ≠ (ch.table.relationId, ch.rowid)))
  | lower (stmt deleted : Nat) {table : TableDef} {scan : Scan}
      (hok : RowidOk s a → s.LowerOk stmt table deleted)
    (hscan : s.scans.lookup stmt = some scan) :
    Effect s a { s.engine with heap := (s.engine.heap.lowerNextRow
      (min (maxRowid (scan.found.filter (· ≠ deleted)) + 1) maxRowId)) } s.choices
      ((table.relationId, deleted) :: s.lowered)

theorem scanned_eq_ok {s : Sql} {stmt rel : Nat} {rowids : List Nat}
    (h : s.scanned stmt rel = .ok rowids) :
    ∃ scan, s.scans.lookup stmt = some scan ∧ scan.found = rowids := by
  unfold scanned at h
  split at h
  · next scan hscan =>
    split at h
    · cases h
      exact ⟨scan, hscan, rfl⟩
    · cases h
  · cases h

variable {s} {s' : Sql}

theorem chooseInsert_effect {c stmt : Nat} {table : TableDef} {value : SqlValue}
    (hs : s.step (.chooseInsert c stmt table value) = .ok s') :
    Effect s (.chooseInsert c stmt table value) s'.engine s'.choices s'.lowered := by
  simp only [step, bind_eq_ok, require_eq_ok, pure_eq_ok, Prod.exists] at hs
  obtain ⟨tx, -, -, -, rowid, source, s1, hch, rfl⟩ := hs
  unfold chooseRowidForInsert at hch
  split at hch
  · next halias =>
    split at hch
    · next hnull =>
      split at hch
      · next hauto =>
        simp only [sqliteSequenceNextRowid, bind_eq_ok, require_eq_ok, pure_eq_ok, Prod.exists,
          Prod.mk.injEq] at hch
        obtain ⟨_, _, ⟨rowids, hsc, _, -, _, hmax, rfl, rfl⟩, ⟨rfl, rfl⟩, rfl⟩ := hch
        obtain ⟨scan, hscan, rfl⟩ := scanned_eq_ok hsc
        refine .sequence c stmt ?_ hscan rfl rfl hmax
        intro hok
        simpa [RowidOk, halias, hnull, hauto] using hok
      · next hauto =>
        cases hch
        refine .counter ?_ rfl rfl
        intro hok
        simpa [RowidOk, halias, hnull, hauto] using hok
    · simp only [bind_eq_ok, pure_eq_ok, Prod.mk.injEq] at hch
      obtain ⟨_, -, ⟨rfl, rfl⟩, rfl⟩ := hch
      exact .explicit rfl
  · next halias =>
    cases hch
    refine .counter ?_ rfl rfl
    intro hok
    simpa [RowidOk, halias] using hok

theorem chooseUpdate_effect {c stmt current : Nat} {table : TableDef} {value : SqlValue}
    (hs : s.step (.chooseUpdate c stmt table value current) = .ok s') :
    Effect s (.chooseUpdate c stmt table value current) s'.engine s'.choices s'.lowered := by
  simp only [step, bind_eq_ok, require_eq_ok, Prod.exists] at hs
  obtain ⟨tx, -, -, -, rowid, source, s1, hch, hs⟩ := hs
  unfold chooseRowidForUpdate at hch
  split at hch
  · next halias =>
    split at hch
    · next hnull =>
      cases hch
      have hok : RowidOk s (.chooseUpdate c stmt table value current) → s.CounterOk table := by
        intro hok
        simpa [RowidOk, halias, hnull] using hok
      split at hs
      · cases hs
        exact .reserve hok
      · cases hs
        exact .counter hok rfl rfl
    · simp only [bind_eq_ok, pure_eq_ok, Prod.mk.injEq] at hch
      obtain ⟨_, -, ⟨rfl, rfl⟩, rfl⟩ := hch
      split at hs
      · cases hs
        exact .quiet
      · cases hs
        exact .explicit rfl
  · cases hch
    rw [if_pos rfl] at hs
    cases hs
    exact .quiet

theorem step_effect {a : SqlAction} (hs : s.step a = .ok s') :
    Effect s a s'.engine s'.choices s'.lowered := by
  cases a with
  | loadSequences c => cases hs; exact .quiet
  | startStatement c => cases hs; exact .quiet
  | failStatement c => cases hs; exact .quiet
  | discard stmt => cases hs; exact .discard
  | chooseInsert c stmt table value => exact chooseInsert_effect hs
  | chooseUpdate c stmt table value current => exact chooseUpdate_effect hs
  | begin c isolation =>
    simp only [step, bind_eq_ok, require_eq_ok, pure_eq_ok] at hs
    obtain ⟨-, -, engine, he, rfl⟩ := hs
    exact .call (.begin isolation) (.inr ⟨_, rfl⟩) he
  | startScan c stmt table =>
    simp only [step, bind_eq_ok, pure_eq_ok] at hs
    obtain ⟨tx, -, rfl⟩ := hs
    exact .quiet
  | scanNext stmt =>
    simp only [step] at hs
    split at hs
    · next tx rel row todo found hscan =>
      simp only [bind_eq_ok, pure_eq_ok, Prod.exists] at hs
      obtain ⟨payload, engine, he, rfl⟩ := hs
      refine .call (.getForRelation tx rel row) (.inl rfl) ?_
      simp only [Engine.step, bind_eq_ok, pure_eq_ok, Prod.exists]
      exact ⟨payload, engine, he, rfl⟩
    · cases hs
  | insert stmt payload =>
    simp only [step] at hs
    split at hs
    · next ch hch =>
      simp only [bind_eq_ok, pure_eq_ok] at hs
      obtain ⟨engine, he, rfl⟩ := hs
      have hok : RowidOk s (.insert stmt payload) → ch.source = .explicit → s.ExplicitOk ch := by
        intro hok
        simpa [RowidOk, hch] using hok
      split
      · exact .insert hch hok he
      · exact .insert hch hok he
    · cases hs
  | lowerAfterDelete stmt table deleted =>
    simp only [step, lowerRowidAllocatorAfterDelete] at hs
    split at hs
    · next halias =>
      simp only [bind_eq_ok, pure_eq_ok] at hs
      obtain ⟨rowids, hsc, rfl⟩ := hs
      obtain ⟨scan, hscan, rfl⟩ := scanned_eq_ok hsc
      refine .lower stmt deleted ?_ hscan
      intro hok
      simpa [RowidOk, halias] using hok
    · cases hs
      exact .quiet
  | call op =>
    simp only [step, bind_eq_ok, require_eq_ok, pure_eq_ok] at hs
    obtain ⟨-, hop, engine, he, rfl⟩ := hs
    exact .call op (.inl hop) he
  | publishSequences c =>
    simp only [step, bind_eq_ok] at hs
    obtain ⟨tx, -, hs⟩ := hs
    split at hs
    · cases hs
      exact .quiet
    · cases hs
  | endTransaction c =>
    simp only [step, bind_eq_ok] at hs
    obtain ⟨tx, -, hs⟩ := hs
    split at hs
    · cases hs
      exact .quiet
    · cases hs

/-! ### The counter stays above what is in use -/

structure ChoiceOk (e : Engine) (ch : Choice) : Prop where
  taken : ch.source = .counter → ch.rowid < e.heap.nextRow
  small : ch.source = .sequence → ch.rowid ≤ maxSequence
  free : ch.source ≠ .explicit → e.isLive ch.table.relationId ch.rowid = false

structure RowidInv (e : Engine) (choices : AList (fun _ : Nat => Choice))
    (lowered : List (Nat × Nat)) : Prop where
  live : Engine.LiveInv e
  bound : e.heap.nextRow ≤ maxRowId
  /-- Only rows being deleted under a lowered counter are at or above it. -/
  below : ∀ rel row, e.isLive rel row = true → row < e.heap.nextRow ∨ (rel, row) ∈ lowered
  choice : ∀ stmt ch, choices.lookup stmt = some ch → ChoiceOk e ch
  apart : ∀ stmt stmt' ch ch', choices.lookup stmt = some ch → choices.lookup stmt' = some ch' →
    stmt ≠ stmt' →
    ch.source ≠ .explicit → ch'.source ≠ .explicit → ch.table.relationId = ch'.table.relationId →
      ch.rowid ≠ ch'.rowid

def RowidsApart (s : Sql) : Prop := RowidInv s.engine s.choices s.lowered

section
variable {e e' : Engine} {choices : AList (fun _ : Nat => Choice)} {lowered : List (Nat × Nat)}
    {stmt : Nat} {ch : Choice}

theorem mem_liveRows {rel row : Nat} (h : s.engine.isLive rel row = true) :
    (rel, row) ∈ s.liveRows :=
  List.mem_filter.2 ⟨Engine.isLive_mem h, h⟩

theorem mem_entries (h : s.choices.lookup stmt = some ch) :
    (⟨stmt, ch⟩ : Sigma fun _ : Nat => Choice) ∈ s.choices.entries :=
  AList.mem_lookup_iff.1 h

theorem rowidsApart_create (relId lanes : Nat) (pageSize : PageSize)
    (segmentBytes walBufferBytes : Nat) :
    RowidsApart (create relId lanes pageSize segmentBytes walBufferBytes) := by
  refine ⟨Engine.liveInv_create .., Nat.one_le_two_pow.trans (by decide : 2 ^ 63 ≤ maxRowId),
    ?_, ?_, ?_⟩
  · intro rel row h
    exact absurd (Engine.isLive_mem h) (by simp [create, Engine.create, new])
  all_goals
    intro stmt
    intros
    simp_all [create]

theorem ChoiceOk.mono (h : ChoiceOk e ch) (hn : e.heap.nextRow ≤ e'.heap.nextRow)
    (hlive : ∀ rel row, e'.isLive rel row = true → e.isLive rel row = true) : ChoiceOk e' ch := by
  refine ⟨fun hsrc => (h.taken hsrc).trans_le hn, h.small, fun hsrc => Bool.eq_false_iff.2
    fun hl => ?_⟩
  exact Bool.eq_false_iff.1 (h.free hsrc) (hlive _ _ hl)

section
variable (hI : RowidInv e choices lowered)
include hI

theorem RowidInv.erase : RowidInv e (choices.erase stmt) lowered := by
  refine ⟨hI.live, hI.bound, hI.below, fun stmt' ch h => hI.choice stmt' ch
    (lookup_erase_eq_some.1 h).2, ?_⟩
  intro stmt₁ stmt₂ ch₁ ch₂ h₁ h₂
  exact hI.apart stmt₁ stmt₂ ch₁ ch₂ (lookup_erase_eq_some.1 h₁).2 (lookup_erase_eq_some.1 h₂).2

theorem RowidInv.call {op : Op} (hop : op.isCall = true ∨ ∃ iso, op = .begin iso)
    (he : e.step op = .ok e') : RowidInv e' choices lowered := by
  have hnext := Engine.step_nextRow hI.live.wf he hop
  have hno : ∀ key, ¬ op.insertsAt e.heap.relId key := by
    intro key h
    cases op with
    | insertForRelation => simp [Op.isCall] at hop
    | _ => exact h
  have hlive : ∀ rel row, e'.isLive rel row = true → e.isLive rel row = true :=
    fun rel row => hI.live.isLive_step he (hno (rel, row))
  refine ⟨hI.live.step he, hnext ▸ hI.bound, fun rel row h => ?_, fun stmt ch h => ?_, hI.apart⟩
  · rw [hnext]
    exact hI.below rel row (hlive rel row h)
  · exact (hI.choice stmt ch h).mono hnext.symm.le hlive

theorem RowidInv.raise {n : Nat} (hn : e.heap.nextRow ≤ n) (hmax : n ≤ maxRowId) :
    RowidInv { e with heap := { e.heap with nextRow := n } } choices lowered := by
  have hlive : ∀ rel row, Engine.isLive { e with heap := { e.heap with nextRow := n } } rel
      row = true →
      e.isLive rel row = true := by
    intro rel row h
    rwa [hI.live.isLive_setNextRow] at h
  refine ⟨hI.live.setNextRow n, hmax, fun rel row h => ?_,
    fun stmt ch h => (hI.choice stmt ch h).mono hn hlive, hI.apart⟩
  exact (hI.below rel row (hlive rel row h)).imp_left fun h => h.trans_le hn

/-- A new unfinished statement whose row id nobody sees and no other statement of the table has. -/
theorem RowidInv.choose (hok : ChoiceOk e ch)
    (hapart : ∀ stmt' ch', choices.lookup stmt' = some ch' → ch.source ≠ .explicit →
      ch'.source ≠ .explicit →
      ch.table.relationId = ch'.table.relationId → ch.rowid ≠ ch'.rowid) :
    RowidInv e (choices.insert stmt ch) lowered := by
  refine ⟨hI.live, hI.bound, hI.below, fun stmt' ch' h => ?_, ?_⟩
  · rcases lookup_insert_eq_some.1 h with ⟨-, rfl⟩ | ⟨-, h⟩
    · exact hok
    · exact hI.choice stmt' ch' h
  · intro stmt₁ stmt₂ ch₁ ch₂ h₁ h₂ hne hs₁ hs₂ hrel
    rcases lookup_insert_eq_some.1 h₁ with ⟨rfl, rfl⟩ | ⟨-, h₁'⟩
    · rcases lookup_insert_eq_some.1 h₂ with ⟨rfl, rfl⟩ | ⟨-, h₂⟩
      · exact absurd rfl hne
      · exact hapart stmt₂ ch₂ h₂ hs₁ hs₂ hrel
    · rcases lookup_insert_eq_some.1 h₂ with ⟨rfl, rfl⟩ | ⟨-, h₂⟩
      · exact (hapart stmt₁ ch₁ h₁' hs₂ hs₁ hrel.symm).symm
      · exact hI.apart stmt₁ stmt₂ ch₁ ch₂ h₁' h₂ hne hs₁ hs₂ hrel

end

variable {table : TableDef}
section
variable (hI : s.RowidsApart)
include hI

theorem RowidsApart.counter_free (hok : s.CounterOk table) :
    s.engine.isLive table.relationId s.engine.heap.nextRow = false ∧
      ∀ stmt ch, s.choices.lookup stmt = some ch → ch.source ≠ .explicit →
        table.relationId = ch.table.relationId →
        s.engine.heap.nextRow ≠ ch.rowid := by
  obtain ⟨-, hdel, hseq⟩ := hok
  constructor
  · rw [Bool.eq_false_iff]
    intro h
    rcases hI.below _ _ h with hlt | hmem
    · exact absurd hlt (lt_irrefl _)
    · exact hdel _ hmem rfl le_rfl (mem_liveRows h)
  · intro stmt ch hch hsrc hrel heq
    rcases hs : ch.source with _ | _ | _
    · exact hsrc hs
    · have := (hI.choice stmt ch hch).taken hs
      omega
    · exact hseq _ (mem_entries hch) hs hrel.symm heq.symm

theorem RowidsApart.reserve (hok : s.CounterOk table) :
    s.reserveRowId.2.engine.heap.nextRow = s.engine.heap.nextRow + 1 ∧
      (∀ rel row, s.reserveRowId.2.engine.isLive rel row = s.engine.isLive rel row) ∧
      RowidInv s.reserveRowId.2.engine s.choices s.lowered := by
  have hlt := hok.1
  have hmod : (s.engine.heap.nextRow + 1) % 2 ^ 64 = s.engine.heap.nextRow + 1 := by
    apply Nat.mod_eq_of_lt
    unfold maxRowId at hlt
    omega
  simp only [reserveRowId, PageBackedHeap.reserveRowId, hmod]
  exact ⟨trivial, hI.live.isLive_setNextRow _, hI.raise (Nat.le_succ _) hlt⟩

theorem RowidsApart.counter (hok : s.CounterOk ch.table) (hsrc : ch.source = .counter)
    (hrow : ch.rowid = s.engine.heap.nextRow) :
    RowidInv s.reserveRowId.2.engine (s.choices.insert stmt ch) s.lowered := by
  obtain ⟨hfree, hapart⟩ := hI.counter_free hok
  obtain ⟨hnext, hlive, hI'⟩ := hI.reserve hok
  refine hI'.choose ⟨fun _ => by omega, by simp [hsrc], fun _ => ?_⟩
    fun stmt' ch' h _ hsrc' hrel => ?_
  · rw [hlive, hrow]
    exact hfree
  · rw [hrow]
    exact hapart stmt' ch' h hsrc' hrel

theorem RowidsApart.sequence {c : Nat} {scan : Scan} (hok : s.SequenceOk c stmt ch.table)
    (hscan : s.scans.lookup stmt = some scan) (hsrc : ch.source = .sequence)
    (hbase : ch.rowid = max ((s.sessions c).sequences ch.table.relationId)
      (maxRowid scan.found) + 1)
    (hmax : ch.rowid ≤ maxSequence) : RowidInv s.engine (s.choices.insert stmt ch) s.lowered := by
  unfold SequenceOk at hok
  rw [hscan] at hok
  obtain ⟨hrows, hchoices⟩ := hok
  refine RowidInv.choose hI ⟨by simp [hsrc], fun _ => hmax, fun _ => ?_⟩
    fun stmt' ch' h _ hsrc' hrel => ?_
  · rw [Bool.eq_false_iff]
    intro h
    have := hrows _ (mem_liveRows h) rfl
    omega
  · have := hchoices _ (mem_entries h) hsrc' hrel.symm
    dsimp only at this
    omega

theorem RowidsApart.insert {payload : Bytes} (hch : s.choices.lookup stmt = some ch)
    (hok : ch.source = .explicit → s.ExplicitOk ch)
    (he : s.engine.insertForRelation ch.tx ch.table.relationId ch.rowid payload = .ok e) :
    RowidInv e (s.choices.erase stmt) (s.lowered.filter (· ≠ (ch.table.relationId, ch.rowid))) := by
  have hstep : s.engine.step (.insertForRelation ch.tx ch.table.relationId ch.rowid payload) =
      .ok e := he
  have hlt : ch.rowid < maxRowId := by
    rcases hs : ch.source with _ | _ | _
    · exact (hok hs).1
    · exact ((hI.choice stmt ch hch).taken hs).trans_le hI.bound
    · exact ((hI.choice stmt ch hch).small hs).trans_lt (by decide)
  have hnext : e.heap.nextRow = advanceRowPast s.engine.heap.nextRow ch.rowid := by
    obtain ⟨t, e1, -, -, heap, hins, heq⟩ := Engine.insertForRelation_eq_ok he
    rw [heq]
    exact insertForRelation_nextRow hI.live.wf hins
  have hle : s.engine.heap.nextRow ≤ e.heap.nextRow ∧ ch.rowid < e.heap.nextRow ∧
      e.heap.nextRow ≤ maxRowId := by
    have := hI.bound
    rw [hnext]
    unfold advanceRowPast
    omega
  have hlive : ∀ rel row, e.isLive rel row = true →
      (rel, row) = (ch.table.relationId, ch.rowid) ∨ s.engine.isLive rel row = true := by
    intro rel row h
    by_cases hk : (rel, row) = (ch.table.relationId, ch.rowid)
    · exact .inl hk
    · refine .inr (hI.live.isLive_step hstep ?_ h)
      intro hins
      simp only [Op.insertsAt, if_neg ch.table.relation_ne] at hins
      exact hk hins.symm
  refine ⟨hI.live.step hstep, hle.2.2, fun rel row h => ?_, fun stmt' ch' h => ?_, hI.erase.apart⟩
  · by_cases hk : (rel, row) = (ch.table.relationId, ch.rowid)
    · cases hk
      exact .inl hle.2.1
    · rcases hI.below rel row ((hlive rel row h).resolve_left hk) with hb | hb
      · exact .inl (hb.trans_le hle.1)
      · exact .inr (List.mem_filter.2 ⟨hb, decide_eq_true hk⟩)
  · obtain ⟨hne, h⟩ := lookup_erase_eq_some.1 h
    obtain ⟨htaken, hsmall, hfree⟩ := hI.choice stmt' ch' h
    refine ⟨fun hsrc => (htaken hsrc).trans_le hle.1, hsmall, fun hsrc => Bool.eq_false_iff.2
      fun hl' => ?_⟩
    rcases hlive _ _ hl' with hk | hk
    · -- the row just inserted is no other statement's
      simp only [Prod.mk.injEq] at hk
      by_cases hs : ch.source = .explicit
      · exact (hok hs).2 _ (mem_entries h) hsrc hk.1 hk.2
      · exact hI.apart stmt' stmt ch' ch h hch hne hsrc hs hk.1 hk.2
    · rw [hfree hsrc] at hk
      cases hk

theorem RowidsApart.lower {deleted : Nat} {scan : Scan} (hok : s.LowerOk stmt table deleted)
    (hscan : s.scans.lookup stmt = some scan) :
    RowidInv { s.engine with heap := (s.engine.heap.lowerNextRow
      (min (maxRowid (scan.found.filter (· ≠ deleted)) + 1) maxRowId)) } s.choices
      ((table.relationId, deleted) :: s.lowered) := by
  unfold LowerOk at hok
  rw [hscan] at hok
  obtain ⟨hrows, hchoices⟩ := hok
  have hmax := hI.bound
  unfold lowerNextRow
  refine ⟨hI.live.setNextRow _, (Nat.min_le_left _ _).trans hmax, fun rel row h => ?_,
    fun stmt' ch h => ?_, hI.apart⟩
  · rw [hI.live.isLive_setNextRow] at h
    by_cases hk : (rel, row) = (table.relationId, deleted)
    · rw [hk]
      exact .inr (List.mem_cons_self ..)
    · have hr := hrows _ (mem_liveRows h) hk
      rcases hI.below rel row h with hb | hb
      · left
        dsimp only at hr ⊢
        omega
      · exact .inr (List.mem_cons_of_mem _ hb)
  · obtain ⟨htaken, hsmall, hfree⟩ := hI.choice stmt' ch h
    refine ⟨fun hsrc => ?_, hsmall, fun hsrc => (hI.live.isLive_setNextRow ..).trans (hfree hsrc)⟩
    have h1 := htaken hsrc
    have h2 := hchoices _ (mem_entries h) hsrc
    dsimp only at h2 ⊢
    omega

theorem RowidsApart.effect {a : SqlAction} (hok : RowidOk s a) (he : Effect s a e choices lowered) :
    RowidInv e choices lowered := by
  cases he with
  | quiet => exact hI
  | call op hop he => exact RowidInv.call hI hop he
  | discard => exact RowidInv.erase hI
  | explicit hch =>
    exact RowidInv.choose hI ⟨by simp [hch], by simp [hch], by simp [hch]⟩ (by simp [hch])
  | sequence c stmt hok' hscan hch hbase hmax => exact hI.sequence (hok' hok) hscan hch hbase hmax
  | reserve hok' => exact (hI.reserve (hok' hok)).2.2
  | counter hok' hch hrow => exact hI.counter (hok' hok) hch hrow
  | insert hch hok' he => exact hI.insert hch (hok' hok) he
  | lower stmt deleted hok' hscan => exact hI.lower (hok' hok) hscan

end

theorem RowidsApart.of_run {relId lanes segmentBytes walBufferBytes : Nat} {pageSize : PageSize}
    {acts : List SqlAction}
    (hrun : Run Sql.step RowidOk (create relId lanes pageSize segmentBytes walBufferBytes) acts s) :
    s.RowidsApart :=
  hrun.invariant (I := fun _ s => s.RowidsApart) (rowidsApart_create ..) fun _ _ _ _ hI hok hs =>
    hI.effect hok (step_effect hs)

/-- From the choice of a row id by the engine up to the insert, no open transaction and no later
snapshot sees a row of the table under it, and no other unfinished statement has it. -/
theorem chosen_rowid_unused {relId lanes segmentBytes walBufferBytes : Nat} {pageSize : PageSize}
    {acts : List SqlAction}
    (hrun : Run Sql.step RowidOk (create relId lanes pageSize segmentBytes walBufferBytes) acts s)
    (hch : s.choices.lookup stmt = some ch) (hsrc : ch.source ≠ .explicit) :
    (∀ tx t, s.engine.txns.lookup tx = some t → t.phase ≠ .closed →
      s.engine.heap.getForRelation s.engine.txs t.snapshot (some tx) ch.table.relationId ch.rowid =
        .ok none) ∧
    (∀ snapshot, s.engine.txs.publishedCsn ≤ snapshot.visibleCsn →
      s.engine.heap.getForRelation s.engine.txs snapshot none ch.table.relationId ch.rowid =
        .ok none) ∧
    ∀ stmt' ch', s.choices.lookup stmt' = some ch' → stmt' ≠ stmt → ch'.source ≠ .explicit →
      ch'.table.relationId = ch.table.relationId → ch'.rowid ≠ ch.rowid := by
  have hI := RowidsApart.of_run hrun
  obtain ⟨hopen, hlater⟩ := hI.live.read_eq_none ((hI.choice stmt ch hch).free hsrc)
  refine ⟨hopen, hlater, ?_⟩
  intro stmt' ch' h hne hsrc' hrel
  exact hI.apart stmt' stmt ch' ch h hch hne hsrc' hsrc hrel

end

instance (s : Sql) (table : TableDef) : Decidable (s.CounterOk table) :=
  inferInstanceAs (Decidable (_ ∧ (∀ _ ∈ _, _) ∧ ∀ _ ∈ _, _))

instance (s : Sql) (ch : Choice) : Decidable (s.ExplicitOk ch) :=
  inferInstanceAs (Decidable (_ ∧ ∀ _ ∈ _, _))

instance (s : Sql) (c stmt : Nat) (table : TableDef) : Decidable (s.SequenceOk c stmt table) := by
  unfold SequenceOk
  split <;> infer_instance

instance (s : Sql) (stmt : Nat) (table : TableDef) (deleted : Nat) :
    Decidable (s.LowerOk stmt table deleted) := by
  unfold LowerOk
  split <;> infer_instance

instance (s : Sql) (a : SqlAction) : Decidable (s.RowidOk a) := by
  unfold RowidOk
  split
  · infer_instance
  · infer_instance
  · split <;> infer_instance
  · infer_instance
  · infer_instance

def small : Sql := create 1 1 .small 4096 4096

def aliasTable : TableDef := ⟨10001, true, false, by decide⟩
def plainTable : TableDef := ⟨10002, false, false, by decide⟩
def sequenceTable : TableDef := ⟨10003, true, true, by decide⟩

def insertInto (stmt : Nat) (table : TableDef) : List SqlAction :=
  [.chooseInsert 1 stmt table .null, .insert stmt [1]]

def commitOf (tx : Nat) : List SqlAction :=
  [.call (.appendCommit tx), .call (.finishCommit tx), .publishSequences 1]

def deleteFrom (tx n : Nat) (table : TableDef) (row : Nat) : List SqlAction :=
  .startScan 1 0 table :: List.replicate n (.scanNext 0) ++
    [.lowerAfterDelete 0 table row, .call (.deleteForRelation tx table.relationId row)]

def traceReused : List SqlAction :=
  [.loadSequences 1, .begin 1 .snapshot] ++ insertInto 1 plainTable ++ insertInto 2 aliasTable ++
    insertInto 3 aliasTable ++ commitOf 1 ++ [.begin 1 .snapshot] ++ deleteFrom 2 2 aliasTable 3 ++
      commitOf 2 ++
    [.begin 1 .readCommitted, .startScan 1 5 sequenceTable, .chooseInsert 1 5 sequenceTable .null,
      .chooseInsert 1 4 aliasTable .null]

def hasChosen (stmt rel rowid : Nat) (s : Sql) : Bool :=
  match s.choices.lookup stmt with
  | some ch => decide (ch.source ≠ .explicit ∧ ch.table.relationId = rel ∧ ch.rowid = rowid)
  | none => false

theorem of_hasChosen {s : Sql} {stmt rel rowid : Nat} (h : hasChosen stmt rel rowid s = true) :
    ∃ ch, s.choices.lookup stmt = some ch ∧ ch.source ≠ .explicit ∧ ch.table.relationId = rel ∧
      ch.rowid = rowid := by
  unfold hasChosen at h
  split at h
  · next ch hch => exact ⟨ch, hch, of_decide_eq_true h⟩
  · cases h

theorem chosen_rowid_unused_traceReused : ∃ s, Run Sql.step RowidOk small traceReused s ∧
    hasChosen 4 10001 3 s = true ∧
      ∀ snapshot, s.engine.txs.publishedCsn ≤ snapshot.visibleCsn →
        s.engine.heap.getForRelation s.engine.txs snapshot none 10001 3 = .ok none := by
  obtain ⟨s, hrun, hq⟩ : ∃ s, Run Sql.step RowidOk small traceReused s ∧
      hasChosen 4 10001 3 s = true := by
    decide +kernel
  obtain ⟨ch, hch, hsrc, hrel, hrow⟩ := of_hasChosen hq
  refine ⟨s, hrun, hq, ?_⟩
  have hlater := (chosen_rowid_unused hrun hch hsrc).2.1
  rw [hrel, hrow] at hlater
  exact hlater

def traceLowered : List SqlAction :=
  [.loadSequences 1, .begin 1 .snapshot] ++ insertInto 1 plainTable ++ insertInto 2 plainTable ++
    insertInto 3 aliasTable ++ commitOf 1 ++ [.begin 1 .snapshot] ++ deleteFrom 2 1 aliasTable 3 ++
      commitOf 2 ++
    [.begin 1 .readCommitted, .chooseInsert 1 4 plainTable .null]

/-- The next INSERT into the other table is given the id of a row that a new snapshot sees. -/
theorem chosen_rowid_in_use : ∃ s, Run Sql.step (fun _ _ => True) small traceLowered s ∧
    hasChosen 4 10002 1 s = true ∧
      s.engine.heap.getForRelation s.engine.txs s.engine.txs.snapshot none 10002 1 =
        .ok (some [1]) := by
  decide +kernel

end Sql
end RedlineDb
