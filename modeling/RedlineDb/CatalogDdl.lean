import RedlineDb.CatalogIds
import RedlineDb.Lib.Assoc

/-!
# Transactions with DDL statements

A transaction works on a private copy of the whole catalog, taken from the published one by its
first DDL statement, and publishes the copy when it commits. Publishing stores the version and then
the catalog, as two steps. Nothing compares the copy with what has been published since, so a copy
taken before another commit overwrites it: `Serial` asks that the catalog a transaction publishes
over is the one its copy was taken from.
-/

namespace RedlineDb.Catalog
open Lib List
open SchemaSnapshot

/-- `metaPageId`: the page `create_index` allocates. `legacy`: the thread's `legacy_alter_table`. -/
inductive Ddl
  | createTable (spec : CreateTableSpec)
  | dropTable (spec : DropSpec)
  | alterTable (legacy : Bool) (spec : AlterTableSpec)
  | createIndex (spec : CreateIndexSpec) (metaPageId : Nat)
  | dropIndex (spec : DropSpec)
  | renameIndex (oldFolded newName : String)
  | createView (spec : CreateViewSpec)
  | dropView (spec : DropSpec)
  | createTrigger (spec : CreateTriggerSpec)
  | dropTrigger (spec : DropSpec)
deriving DecidableEq

/-- The catalog part of `Engine::create_index`. The index created is taken to be the last one of the
snapshot. -/
def createIndex (s : SchemaSnapshot) (spec : CreateIndexSpec) (metaPageId : Nat) :
    Except Error (Option SchemaSnapshot) := do
  if spec.ifNotExists then
    let schemaId ← resolveSchemaId s spec.schema
    if (s.lookupIndex schemaId spec.name.folded).isSome then return none
  let next ← applyCreateIndex s spec
  let created ← next.indexes.getLast?.elim
    (.error (.catalogCorrupt "created index missing from snapshot")) .ok
  let next ← applySetIndexMetaPageId next created.indexId metaPageId
  return some next

/-- The snapshot a statement leaves in the transaction, if it sets one at all. -/
def Ddl.apply (s : SchemaSnapshot) : Ddl → Except Error (Option SchemaSnapshot)
  | .createTable spec => do
    let next ← applyCreateTable s spec
    require (next.tables ≠ []) (.catalogCorrupt "created table missing from snapshot")
    return some next
  | .dropTable spec => do return some (← applyDropTable s spec)
  | .alterTable legacy spec => do return some (← applyAlterTable legacy s spec)
  | .createIndex spec metaPageId => Catalog.createIndex s spec metaPageId
  | .dropIndex spec => do return some (← applyDropIndex s spec)
  | .renameIndex oldFolded newName => do return some (← applyRenameIndex s oldFolded newName)
  | .createView spec => do
    let next ← applyCreateView s spec
    require (next.views ≠ []) (.catalogCorrupt "created view missing from snapshot")
    return some next
  | .dropView spec => do return some (← applyDropView s spec)
  | .createTrigger spec => do
    let next ← applyCreateTrigger s spec
    require (next.triggers ≠ []) (.catalogCorrupt "created trigger missing from snapshot")
    return some next
  | .dropTrigger spec => do return some (← applyDropTrigger s spec)

/-- `by_trigger_name` has the name of a trigger to be created only if there is such a trigger. -/
def Ddl.NameOk (s : SchemaSnapshot) : Ddl → Prop
  | .createTrigger spec =>
    (∃ n ∈ s.triggerNames, n.2 = spec.name.folded) → ∃ t ∈ s.triggers, t.folded = spec.name.folded
  | _ => True

def replay (s : SchemaSnapshot) (ds : List Ddl) : Except Error SchemaSnapshot :=
  ds.foldlM (fun s d => do return (← d.apply s).getD s) s

/-- `base`, the catalog the copy was taken from, and `stmts`, the statements that went into it, are
not kept by the source. -/
structure DdlTx where
  pending : Option SchemaSnapshot
  base : SchemaSnapshot
  stmts : List Ddl
  publishing : Bool

/-- `published` and `committed`: the catalogs published so far and the statements of the
transactions that published them, in this order. -/
structure Manager where
  current : SchemaSnapshot
  version : Nat
  txs : AList (fun _ : Nat => DdlTx)
  published : List SchemaSnapshot
  committed : List Ddl

inductive DdlAction
  | begin (tx : Nat)
  | ddl (tx : Nat) (d : Ddl)
  | commit (tx : Nat)
  | install (tx : Nat)
  | rollback (tx : Nat)

namespace Manager

def start (initial : SchemaSnapshot) : Manager := ⟨initial, initial.schemaEpoch, ∅, [initial], []⟩

variable (m : Manager)

def snapshotFor (t : DdlTx) : SchemaSnapshot := t.pending.getD m.current

def setPending (tx : Nat) (t : DdlTx) (d : Ddl) (next : SchemaSnapshot) : Manager :=
  { m with
    txs := m.txs.insert tx
      { t with
        pending := some next
        base := if t.pending.isNone then m.current else t.base
        stmts := t.stmts ++ [d] } }

def openTx (tx : Nat) : Except Error DdlTx :=
  match m.txs.lookup tx with
  | some t => if t.publishing then .error .transactionClosed else .ok t
  | none => .error .transactionClosed

def step : DdlAction → Except Error Manager
  | .begin tx => do
    require (m.txs.lookup tx = none) .transactionClosed
    return { m with txs := m.txs.insert tx ⟨none, m.current, [], false⟩ }
  | .ddl tx d => do
    let t ← m.openTx tx
    match ← d.apply (m.snapshotFor t) with
    | none => return m
    | some next => return m.setPending tx t d next
  | .commit tx => do
    let t ← m.openTx tx
    match t.pending with
    | none => return { m with txs := m.txs.erase tx }
    | some next =>
      return { m with
        version := next.schemaEpoch, txs := m.txs.insert tx { t with publishing := true } }
  | .install tx =>
    match m.txs.lookup tx with
    | some ⟨some next, _, stmts, true⟩ =>
      .ok
        { m with
          current := next
          txs := m.txs.erase tx
          published := m.published ++ [next]
          committed := m.committed ++ stmts }
    | _ => .error .transactionClosed
  | .rollback tx => do
    let _ ← m.openTx tx
    return { m with txs := m.txs.erase tx }

/-- A transaction publishes over the catalog its copy was taken from, alone; the epoch is not near
its end; and a trigger name that `by_trigger_name` still has from a dropped trigger is not created
again. -/
def Serial : DdlAction → Prop
  | .ddl tx d =>
    match m.txs.lookup tx with
    | some t =>
      (m.snapshotFor t).schemaEpoch + 2 < 2 ^ 64 ∧
        d.NameOk (m.snapshotFor t)
    | none => True
  | .commit tx =>
    match m.txs.lookup tx with
    | some t => t.pending.isSome → t.base = m.current ∧ ∀ e ∈ m.txs.entries, e.2.publishing = false
    | none => True
  | _ => True

end Manager

def Ddl.Effect (before after : SchemaSnapshot) : Ddl → Prop
  | .createTable spec => ∃ t ∈ after.tables, t.folded = spec.name.folded
  | .dropTable spec => ∀ schemaId, resolveSchemaId before (some spec.name.schema) = .ok schemaId →
      ∀ t ∈ after.tables, ¬ (t.schemaId = schemaId ∧ t.folded = spec.name.name.folded)
  | .alterTable _ spec => ∀ schemaId, resolveSchemaId before (some spec.name.schema) =
      .ok schemaId →
      (∃ t ∈ before.tables, t.schemaId = schemaId ∧ t.folded = spec.name.name.folded) →
      ∃ t ∈ after.tables, t.folded = spec.newName.folded
  | .createIndex spec _ => ∃ i ∈ after.indexes, i.folded = spec.name.folded
  | .dropIndex spec => ∀ schemaId i, resolveSchemaId before (some spec.name.schema) = .ok schemaId →
      before.lookupIndex schemaId spec.name.name.folded = some i → ∀ i' ∈ after.indexes,
        i'.indexId ≠ i.indexId
  | .renameIndex _ newName => ∃ i ∈ after.indexes, i.folded = toAsciiLowercase newName
  | .createView spec => (∃ v ∈ after.views, v.folded = spec.name.folded) ∨ ∃ t ∈ after.tables,
      t.folded = spec.name.folded
  | .dropView spec => ∀ schemaId, resolveSchemaId before (some spec.name.schema) = .ok schemaId →
      ∀ v ∈ after.views, ¬ (v.schemaId = schemaId ∧ v.folded = spec.name.name.folded)
  | .createTrigger spec => ∃ t ∈ after.triggers, t.folded = spec.name.folded
  | .dropTrigger spec => ∀ schemaId, resolveSchemaId before (some spec.name.schema) = .ok schemaId →
      ∀ t ∈ after.triggers, ¬ (t.schemaId = schemaId ∧ t.folded = spec.name.name.folded)

section Apply
variable {s s' : SchemaSnapshot} {d : Ddl} {spec : CreateIndexSpec}

theorem createIndexWithPage_ok {metaPageId : Nat} (hcap : s.schemaEpoch + 2 < 2 ^ 64)
    (h : createIndex s spec metaPageId = .ok (some s')) :
    Next s s' ∧ ∃ i ∈ s'.indexes, i.folded = spec.name.folded := by
  have hmain : ∀ s1 created, applyCreateIndex s spec = .ok s1 →
      applySetIndexMetaPageId s1 created metaPageId = .ok s' →
      Next s s' ∧ ∃ i ∈ s'.indexes, i.folded = spec.name.folded := by
    intro s1 created h1 h2
    obtain ⟨hnext, hepoch, hex⟩ := createIndex_ok (Nat.lt_of_succ_lt hcap) h1
    obtain ⟨hnext', hkeep⟩ := setIndexMetaPageId_ok (by omega) h2
    exact ⟨hnext.trans hnext', hkeep _ hex⟩
  rw [createIndex] at h
  split at h
  case isTrue =>
    simp only [bind_eq_ok] at h
    obtain ⟨schemaId, -, h⟩ := h
    split at h
    · cases h
    · simp only [bind_eq_ok, pure_eq_ok, Option.some.injEq] at h
      obtain ⟨s1, h1, created, -, s2, h2, rfl⟩ := h
      exact hmain s1 _ h1 h2
  case isFalse =>
    simp only [bind_eq_ok, pure_eq_ok, Option.some.injEq] at h
    obtain ⟨s1, h1, created, -, s2, h2, rfl⟩ := h
    exact hmain s1 _ h1 h2

theorem createIndex_eq_none {metaPageId : Nat} (h : createIndex s spec metaPageId = .ok none) :
    ∃ i ∈ s.indexes, i.folded = spec.name.folded := by
  rw [createIndex] at h
  split at h
  case isTrue =>
    simp only [bind_eq_ok] at h
    obtain ⟨schemaId, -, h⟩ := h
    split at h
    case isTrue hsome => exact lookupIndex_isSome hsome
    case isFalse =>
      simp only [bind_eq_ok, pure_eq_ok] at h
      obtain ⟨s1, -, created, -, s2, -, h⟩ := h
      cases h
  case isFalse =>
    simp only [bind_eq_ok, pure_eq_ok] at h
    obtain ⟨s1, -, created, -, s2, -, h⟩ := h
    cases h

variable {x : Except Error SchemaSnapshot}

theorem of_changed (h : (x >>= fun s => pure (some s)) = .ok (some s')) : x = .ok s' := by
  obtain ⟨s1, hx, hs⟩ := bind_eq_ok.1 h
  rw [hx, Option.some.inj (pure_eq_ok.1 hs)]

theorem of_created {f : SchemaSnapshot → Except Error Unit}
    (h : (x >>= fun s => f s >>= fun _ => pure (some s)) = .ok (some s')) : x = .ok s' := by
  obtain ⟨s1, hx, h⟩ := bind_eq_ok.1 h
  obtain ⟨-, -, hs⟩ := bind_eq_ok.1 h
  rw [hx, Option.some.inj (pure_eq_ok.1 hs)]

theorem Ddl.apply_ok (hs : SnapshotOk s) (hcap : s.schemaEpoch + 2 < 2 ^ 64) (hname : d.NameOk s)
    (h : d.apply s = .ok (some s')) : Next s s' ∧ d.Effect s s' := by
  have hcap1 : s.schemaEpoch + 1 < 2 ^ 64 := Nat.lt_of_succ_lt hcap
  cases d with
  | createTable spec => exact createTable_ok hcap1 (of_created h)
  | dropTable spec => exact dropTable_ok hcap1 (of_changed h)
  | alterTable legacy spec => exact alterTable_ok hcap1 (of_changed h)
  | createIndex spec metaPageId => exact createIndexWithPage_ok hcap h
  | dropIndex spec => exact dropIndex_ok hcap1 hs (of_changed h)
  | renameIndex oldFolded newName => exact renameIndex_ok hcap1 (of_changed h)
  | createView spec => exact createView_ok hcap1 (of_created h)
  | dropView spec => exact dropView_ok hcap1 (of_changed h)
  | createTrigger spec => exact createTrigger_ok hcap1 hname (of_created h)
  | dropTrigger spec => exact dropTrigger_ok hcap1 (of_changed h)

theorem Ddl.apply_none (h : d.apply s = .ok none) : d.Effect s s := by
  cases d with
  | createIndex spec metaPageId => exact createIndex_eq_none h
  | createTable spec | createView spec | createTrigger spec =>
    simp only [Ddl.apply, bind_eq_ok, pure_eq_ok] at h
    obtain ⟨s1, -, -, -, h⟩ := h
    cases h
  | dropTable spec | alterTable legacy spec | dropIndex spec | renameIndex oldFolded newName
  | dropView spec
    | dropTrigger spec =>
    simp only [Ddl.apply, bind_eq_ok, pure_eq_ok] at h
    obtain ⟨s1, -, h⟩ := h
    cases h

theorem replay_concat {s1 : SchemaSnapshot} {ds : List Ddl} (h : replay s ds = .ok s1)
    (hd : d.apply s1 = .ok (some s')) :
    replay s (ds ++ [d]) = .ok s' := by
  rw [replay, foldlM_append, ← replay, h]
  simp only [bind, Except.bind, foldlM_cons, foldlM_nil, hd]
  rfl

theorem replay_append {s1 : SchemaSnapshot} {ds ds' : List Ddl} (h : replay s ds = .ok s1)
    (h' : replay s1 ds' = .ok s') : replay s (ds ++ ds') = .ok s' := by
  rw [replay, foldlM_append, ← replay, h]
  exact h'

end Apply

namespace Manager
variable {m m' : Manager} {n : Nat}

structure TxOk (m : Manager) (t : DdlTx) : Prop where
  base : ∀ p, t.pending = some p → t.base ∈ m.published ∧ Next t.base p ∧
    replay t.base t.stmts = .ok p
  fresh : t.pending = none → t.stmts = []

structure ManagerInv (initial : SchemaSnapshot) (m : Manager) : Prop where
  current : m.current ∈ m.published
  ok : ∀ c ∈ m.published, SnapshotOk c
  next : ∀ c ∈ m.published, Next c m.current
  epochs : ∀ c ∈ m.published, ∀ c' ∈ m.published, c.schemaEpoch = c'.schemaEpoch → c = c'
  replayed : replay initial m.committed = .ok m.current
  txs : ∀ tx t, m.txs.lookup tx = some t → m.TxOk t
  publishing : ∀ tx t, m.txs.lookup tx = some t → t.publishing = true →
    t.base = m.current ∧ (∀ p, t.pending = some p → m.version = p.schemaEpoch) ∧
      ∀ tx' t', m.txs.lookup tx' = some t' → t'.publishing = true → tx' = tx
  version : (∀ tx t, m.txs.lookup tx = some t → t.publishing = false) →
    m.version = m.current.schemaEpoch

theorem managerInv_start (n : Nat) :
    ManagerInv (bootstrapSchema n) (start (bootstrapSchema n)) := by
  have hok : SnapshotOk (bootstrapSchema n) := ⟨⟨nofun, nodup_nil, nodup_nil⟩, nofun⟩
  refine ⟨mem_singleton_self _, ?_, ?_, ?_, rfl, nofun, nofun, fun _ => rfl⟩
  · exact fun c hc => mem_singleton.1 hc ▸ hok
  · exact fun c hc => mem_singleton.1 hc ▸ Next.refl _
  · exact fun c hc c' hc' _ => (mem_singleton.1 hc).trans (mem_singleton.1 hc').symm

variable {t : DdlTx} {tx : Nat} {initial next : SchemaSnapshot}

theorem openTx_eq_ok (h : m.openTx tx = .ok t) :
    m.txs.lookup tx = some t ∧ t.publishing = false := by
  rw [openTx] at h
  split at h
  case h_1 t' ht' =>
    split at h
    · cases h
    case isFalse hp =>
      cases h
      exact ⟨ht', Bool.eq_false_iff.2 hp⟩
  case h_2 => cases h

theorem ManagerInv.replace {txs : AList (fun _ : Nat => DdlTx)} (hI : ManagerInv initial m)
    (hfrom : ∀ tx t, txs.lookup tx = some t → m.txs.lookup tx = some t ∨ m.TxOk t ∧
      t.publishing = false)
    (hkeep : ∀ tx t, m.txs.lookup tx = some t → t.publishing = true → txs.lookup tx = some t) :
    ManagerInv initial { m with txs } := by
  have hpub : ∀ {tx t}, txs.lookup tx = some t → t.publishing = true →
      m.txs.lookup tx = some t := by
    intro tx t h hp
    rcases hfrom tx t h with h | ⟨-, hno⟩
    · exact h
    · rw [hp] at hno
      cases hno
  refine ⟨hI.current, hI.ok, hI.next, hI.epochs, hI.replayed, fun tx t h => ?_, fun tx t h hp => ?_,
    fun hnone => ?_⟩
  · rcases hfrom tx t h with h | ⟨ht, -⟩
    · exact { hI.txs tx t h with }
    · exact { ht with }
  · obtain ⟨h1, h2, h3⟩ := hI.publishing tx t (hpub h hp) hp
    exact ⟨h1, h2, fun tx' t' h' hp' => h3 tx' t' (hpub h' hp') hp'⟩
  · refine hI.version fun tx t h => Bool.eq_false_iff.2 fun hp => ?_
    rw [hnone tx t (hkeep tx t h hp)] at hp
    cases hp

theorem ManagerInv.erase (hI : ManagerInv initial m) (ht : m.txs.lookup tx = some t)
    (hp : t.publishing = false) :
    ManagerInv initial { m with txs := m.txs.erase tx } := by
  refine hI.replace (fun tx' t' h => .inl (lookup_erase_eq_some.1 h).2) fun tx' t' h hpub =>
    lookup_erase_eq_some.2 ⟨?_, h⟩
  rintro rfl
  rw [ht] at h
  cases h
  rw [hp] at hpub
  cases hpub

theorem ManagerInv.insert (hI : ManagerInv initial m)
    (hold : ∀ t0, m.txs.lookup tx = some t0 → t0.publishing = false) (ht : m.TxOk t)
    (hp : t.publishing = false) :
    ManagerInv initial { m with txs := m.txs.insert tx t } := by
  refine hI.replace (fun tx' t' h => ?_) fun tx' t' h hpub => lookup_insert_eq_some.2 (.inr ⟨?_, h⟩)
  · rcases lookup_insert_eq_some.1 h with ⟨-, rfl⟩ | ⟨-, h⟩
    · exact .inr ⟨ht, hp⟩
    · exact .inl h
  · rintro rfl
    rw [hold t' h] at hpub
    cases hpub

theorem TxOk.setPending {d : Ddl} (hcur : m.current ∈ m.published) (ht : m.TxOk t)
    (hnext : Next (m.snapshotFor t) next)
    (hd : d.apply (m.snapshotFor t) = .ok (some next)) : m.TxOk
      { t with
        pending := some next
        base := if t.pending.isNone then m.current else t.base
        stmts := t.stmts ++ [d] } := by
  refine ⟨fun p hp => ?_, nofun⟩
  cases hp
  cases hpend : t.pending with
  | none =>
    rw [snapshotFor, hpend, Option.getD_none] at hnext hd
    have hreplay : replay m.current [] = .ok m.current := rfl
    rw [ht.fresh hpend]
    exact ⟨hcur, hnext, replay_concat hreplay hd⟩
  | some p =>
    obtain ⟨hmem, hn, hr⟩ := ht.base p hpend
    rw [snapshotFor, hpend, Option.getD_some] at hnext hd
    exact ⟨hmem, hn.trans hnext, replay_concat hr hd⟩

section
variable (hI : ManagerInv initial m)
include hI

/-- Storing the version: the transaction is the only one being published. -/
theorem ManagerInv.commit (ht : m.txs.lookup tx = some t) (hpend : t.pending = some next)
    (hbase : t.base = m.current) (halone : ∀ e ∈ m.txs.entries, e.2.publishing = false) :
    ManagerInv initial { m with
      version := next.schemaEpoch, txs := m.txs.insert tx { t with publishing := true } } := by
  rw [forall_entries_iff (p := fun _ t => DdlTx.publishing t = false)] at halone
  have hother : ∀ tx' t', (m.txs.insert tx { t with publishing := true }).lookup tx' = some t' →
      t'.publishing = true → tx' = tx ∧ t' = { t with publishing := true } := by
    intro tx' t' h hpub
    refine (lookup_insert_eq_some.1 h).resolve_right fun hr => ?_
    rw [halone tx' t' hr.2] at hpub
    cases hpub
  refine ⟨hI.current, hI.ok, hI.next, hI.epochs, hI.replayed, fun tx' t' h => ?_,
    fun tx' t' h hpub => ?_, fun hnone => ?_⟩
  · rcases lookup_insert_eq_some.1 h with ⟨-, rfl⟩ | ⟨-, h⟩
    · exact { hI.txs tx t ht with }
    · exact { hI.txs tx' t' h with }
  · obtain ⟨rfl, rfl⟩ := hother tx' t' h hpub
    refine ⟨hbase, fun p hp => ?_, fun tx1 t1 hl hpub1 => (hother tx1 t1 hl hpub1).1⟩
    rw [hpend] at hp
    cases hp
    rfl
  · have := hnone tx _ (AList.lookup_insert m.txs)
    cases this

theorem ManagerInv.install (ht : m.txs.lookup tx = some t) (hpend : t.pending = some next)
    (hpub : t.publishing = true) : ManagerInv initial
      { m with
        current := next
        txs := m.txs.erase tx
        published := m.published ++ [next]
        committed := m.committed ++ t.stmts } := by
  obtain ⟨hbase, hversion, halone⟩ := hI.publishing tx t ht hpub
  obtain ⟨-, hnext, hreplay⟩ := (hI.txs tx t ht).base next hpend
  rw [hbase] at hnext hreplay
  have hmem : ∀ c ∈ m.published ++ [next], c ∈ m.published ∨ c = next := fun c hc =>
    (mem_append.1 hc).imp_right mem_singleton.1
  have hall : ∀ c ∈ m.published, Next c next := fun c hc => (hI.next c hc).trans hnext
  refine ⟨by simp, fun c hc => ?_, fun c hc => ?_, fun c hc c' hc' heq => ?_,
    replay_append hI.replayed hreplay,
    fun tx' t' h => ?_, fun tx' t' h hp => ?_, fun _ => hversion next hpend⟩
  · rcases hmem c hc with hc | rfl
    · exact hI.ok c hc
    · exact hnext.snapshotOk (hI.ok _ hI.current)
  · rcases hmem c hc with hc | rfl
    · exact hall c hc
    · exact Next.refl c
  · -- a later catalog is the same or has a higher epoch
    rcases hmem c hc with h1 | rfl <;> rcases hmem c' hc' with h2 | rfl
    · exact hI.epochs c h1 c' h2 heq
    · rcases (hall c h1).epoch with h | h
      · exact h.symm
      · omega
    · rcases (hall c' h2).epoch with h | h
      · exact h
      · omega
    · rfl
  · obtain ⟨-, h⟩ := lookup_erase_eq_some.1 h
    refine ⟨fun p hp => ?_, (hI.txs tx' t' h).fresh⟩
    obtain ⟨hb, hn, hr⟩ := (hI.txs tx' t' h).base p hp
    exact ⟨mem_append_left _ hb, hn, hr⟩
  · obtain ⟨hne, h⟩ := lookup_erase_eq_some.1 h
    exact absurd (halone tx' t' h hp) hne

theorem ManagerInv.snapshotOk (ht : m.txs.lookup tx = some t) : SnapshotOk (m.snapshotFor t) := by
  rw [snapshotFor]
  cases hpend : t.pending with
  | none => exact hI.ok _ hI.current
  | some p =>
    obtain ⟨hmem, hn, -⟩ := (hI.txs tx t ht).base p hpend
    exact hn.snapshotOk (hI.ok _ hmem)

theorem ManagerInv.step {a : DdlAction} (hok : m.Serial a) (hs : m.step a = .ok m') :
    ManagerInv initial m' := by
  cases a with
  | begin tx =>
    obtain ⟨hnone, rfl⟩ := guarded_eq_ok.1 hs
    refine hI.insert (fun t0 h0 => ?_) ⟨by rintro p ⟨⟩, fun _ => rfl⟩ rfl
    rw [hnone] at h0
    cases h0
  | ddl tx d =>
    simp only [Manager.step, bind_eq_ok] at hs
    obtain ⟨t, ht, o, hd, hs⟩ := hs
    obtain ⟨hl, hp⟩ := openTx_eq_ok ht
    simp only [Serial, hl] at hok
    cases o with
    | none =>
      cases hs
      exact hI
    | some next =>
      cases hs
      refine hI.insert (fun t0 h0 => ?_)
        ((hI.txs tx t hl).setPending hI.current
        (Ddl.apply_ok (hI.snapshotOk hl) hok.1 hok.2 hd).1 hd) hp
      rw [hl] at h0
      cases h0
      exact hp
  | commit tx =>
    simp only [Manager.step, bind_eq_ok] at hs
    obtain ⟨t, ht, hs⟩ := hs
    obtain ⟨hl, hp⟩ := openTx_eq_ok ht
    simp only [Serial, hl] at hok
    split at hs
    case h_1 =>
      cases hs
      exact hI.erase hl hp
    case h_2 next hpend =>
      cases hs
      obtain ⟨hbase, halone⟩ := hok (by rw [hpend]; rfl)
      exact hI.commit hl hpend hbase halone
  | install tx =>
    rw [Manager.step] at hs
    split at hs
    case h_1 next base stmts hl =>
      cases hs
      exact hI.install hl rfl rfl
    case h_2 => cases hs
  | rollback tx =>
    simp only [Manager.step, bind_eq_ok, pure_eq_ok] at hs
    obtain ⟨t, ht, rfl⟩ := hs
    obtain ⟨hl, hp⟩ := openTx_eq_ok ht
    exact hI.erase hl hp

theorem ManagerInv.effect {d : Ddl} (hok : m.Serial (.ddl tx d))
    (hs : m.step (.ddl tx d) = .ok m') :
    ∃ t t', m.txs.lookup tx = some t ∧ m'.txs.lookup tx = some t' ∧
      d.Effect (m.snapshotFor t) (m'.snapshotFor t') := by
  simp only [Manager.step, bind_eq_ok] at hs
  obtain ⟨t, ht, o, hd, hs⟩ := hs
  obtain ⟨hl, -⟩ := openTx_eq_ok ht
  simp only [Serial, hl] at hok
  cases o with
  | none =>
    cases hs
    exact ⟨t, t, hl, hl, Ddl.apply_none hd⟩
  | some next =>
    cases hs
    exact ⟨t, _, hl, AList.lookup_insert .., (Ddl.apply_ok (hI.snapshotOk hl) hok.1 hok.2 hd).2⟩

end

/-- However transactions with DDL statements interleave: the published catalog is what all committed
statements make of the first one, each statement having had its effect; its tables and indexes have
ids of their own, and an id that an earlier catalog could have is the one it has there; no two
published catalogs share an epoch; and the version is that of the catalog whenever nobody is
publishing. -/
theorem committed_ddl_kept {acts : List DdlAction}
    (hrun : Run Manager.step Serial (start (bootstrapSchema n)) acts m) :
    replay (bootstrapSchema n) m.committed = .ok m.current ∧
      (∀ tx d m', m.Serial (.ddl tx d) → m.step (.ddl tx d) = .ok m' →
        ∃ t t', m.txs.lookup tx = some t ∧ m'.txs.lookup tx = some t' ∧
          d.Effect (m.snapshotFor t) (m'.snapshotFor t')) ∧
            IdsOk m.current.counters m.current.objects ∧
      (∀ c ∈ m.published, ∀ o ∈ m.current.objects, o.1 < c.nextObjectId → o ∈ c.objects) ∧
      (∀ c ∈ m.published, ∀ c' ∈ m.published, c.schemaEpoch = c'.schemaEpoch → c = c') ∧
      ((∀ tx t, m.txs.lookup tx = some t → t.publishing = false) →
        m.version = m.current.schemaEpoch) := by
  have hI : ManagerInv (bootstrapSchema n) m :=
    hrun.invariant (I := fun _ m => ManagerInv (bootstrapSchema n) m) (managerInv_start n)
      fun _ _ _ _ hI hok hs => hI.step hok hs
  exact ⟨hI.replayed, fun tx d m' hok hs => hI.effect hok hs, (hI.ok _ hI.current).ids,
    fun c hc o ho hlt => (hI.next c hc).grows.mem_of_lt ho hlt, hI.epochs, hI.version⟩

instance (s : SchemaSnapshot) (d : Ddl) : Decidable (d.NameOk s) := by
  unfold Ddl.NameOk
  split <;> infer_instance

instance (m : Manager) (a : DdlAction) : Decidable (m.Serial a) := by
  unfold Serial
  split
  · split <;> infer_instance
  · split <;> infer_instance
  · infer_instance

def createNamed (name : DbName) : Ddl :=
  .createTable
    { schema := none, name, ifNotExists := false
      columns := [{ name := ⟨"x", "x", by decide +kernel⟩, declaredType := none, constraints := []
                    defaultValue := none, autoincrement := false, generated := none }]
      constraints := [], strict := false, withoutRowid := false, normalizedSql := none }

def nameA : DbName := ⟨"a", "a", by decide +kernel⟩

def nameB : DbName := ⟨"b", "b", by decide +kernel⟩

def traceSerial : List DdlAction :=
  [.begin 1, .begin 2, .ddl 1 (createNamed nameA), .commit 1, .install 1,
    .ddl 2 (createNamed nameB), .commit 2,
    .install 2]

def tableNames (m : Manager) : List String := m.current.tables.map TableDef.folded

theorem committed_ddl_kept_traceSerial :
    ∃ m, Run Manager.step Serial (start (bootstrapSchema 1)) traceSerial m ∧
      decide (m.tableNames = ["a", "b"]) = true ∧ replay (bootstrapSchema 1) m.committed =
        .ok m.current := by
  obtain ⟨m, hrun, hq⟩ : ∃ m, Run Manager.step Serial (start (bootstrapSchema 1)) traceSerial m ∧
      decide (m.tableNames = ["a", "b"]) = true := by decide +kernel
  exact ⟨m, hrun, hq, (committed_ddl_kept hrun).1⟩

def traceOverlap : List DdlAction :=
  [.begin 1, .begin 2, .ddl 1 (createNamed nameA), .ddl 2 (createNamed nameB), .commit 1,
    .install 1, .commit 2,
    .install 2]

def lost (m : Manager) : Bool :=
  decide (m.committed = [createNamed nameA, createNamed nameB]) && decide (m.tableNames = ["b"]) &&
    decide (m.published.map
      (fun c => (c.schemaEpoch, c.tables.map fun t => (t.folded, t.tableId, t.relationId))) =
      [(1, []), (2, [("a", 10000, 1)]), (2, [("b", 10000, 1)])])

theorem committed_ddl_lost :
    ∃ m, Run Manager.step (fun _ _ => True) (start (bootstrapSchema 1)) traceOverlap m ∧
      m.lost = true := by
  decide +kernel

end Manager
end RedlineDb.Catalog
