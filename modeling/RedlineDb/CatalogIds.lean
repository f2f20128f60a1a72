import Mathlib.Data.List.Flatten
import Mathlib.Data.List.Nodup
import Mathlib.Data.List.Perm.Subperm
import RedlineDb.Catalog

/-!
# What a DDL statement does to the ids of a snapshot

Tables and indexes have an object id and a relation id. A statement keeps some of the old ones and
takes new ones from the counters (`Grows`), and raises the epoch unless it changes nothing.
-/

namespace RedlineDb.Catalog
open Lib List

structure Fresh (lo hi : Nat × Nat) (os : List (Nat × Nat)) : Prop where
  fst : lo.1 ≤ hi.1
  snd : lo.2 ≤ hi.2
  range : ∀ o ∈ os, (lo.1 ≤ o.1 ∧ o.1 < hi.1) ∧ lo.2 ≤ o.2 ∧ o.2 < hi.2
  nodup_fst : (os.map Prod.fst).Nodup
  nodup_snd : (os.map Prod.snd).Nodup

section Fresh
variable {lo mid hi : Nat × Nat} {os os' os'' : List (Nat × Nat)}

theorem fresh_nil (h1 : lo.1 ≤ hi.1) (h2 : lo.2 ≤ hi.2) : Fresh lo hi [] :=
  ⟨h1, h2, nofun, nodup_nil, nodup_nil⟩

theorem fresh_singleton {o : Nat × Nat} (h1 : lo.1 ≤ o.1) (h2 : o.1 < hi.1) (h3 : lo.2 ≤ o.2)
    (h4 : o.2 < hi.2) :
    Fresh lo hi [o] := by
  refine ⟨by omega, by omega, fun o' h => ?_, nodup_singleton _, nodup_singleton _⟩
  rw [mem_singleton.1 h]
  exact ⟨⟨h1, h2⟩, h3, h4⟩

theorem Fresh.append (h : Fresh lo mid os) (h' : Fresh mid hi os') : Fresh lo hi (os ++ os') := by
  have hf := h.fst
  have hs := h.snd
  have hf' := h'.fst
  have hs' := h'.snd
  refine ⟨by omega, by omega, fun o ho => ?_, ?_, ?_⟩
  · rcases mem_append.1 ho with ho | ho
    · have := h.range o ho
      omega
    · have := h'.range o ho
      omega
  all_goals
    rw [map_append, nodup_append]
  · refine ⟨h.nodup_fst, h'.nodup_fst, fun a ha b hb => ?_⟩
    obtain ⟨o, ho, rfl⟩ := mem_map.1 ha
    obtain ⟨o', ho', rfl⟩ := mem_map.1 hb
    have := h.range o ho
    have := h'.range o' ho'
    omega
  · refine ⟨h.nodup_snd, h'.nodup_snd, fun a ha b hb => ?_⟩
    obtain ⟨o, ho, rfl⟩ := mem_map.1 ha
    obtain ⟨o', ho', rfl⟩ := mem_map.1 hb
    have := h.range o ho
    have := h'.range o' ho'
    omega

def Grows (lo hi : Nat × Nat) (os os' : List (Nat × Nat)) : Prop :=
  ∃ fresh, os'.Subperm (os ++ fresh) ∧ Fresh lo hi fresh

theorem Grows.of_subperm (h1 : lo.1 ≤ hi.1) (h2 : lo.2 ≤ hi.2) (h : os'.Subperm os) :
    Grows lo hi os os' :=
  ⟨[], by rwa [append_nil], fresh_nil h1 h2⟩

theorem Grows.trans (h : Grows lo mid os os') (h' : Grows mid hi os' os'') :
    Grows lo hi os os'' := by
  obtain ⟨f, hsub, hf⟩ := h
  obtain ⟨f', hsub', hf'⟩ := h'
  refine ⟨f ++ f', hsub'.trans ?_, hf.append hf'⟩
  rw [← append_assoc]
  exact (subperm_append_right f').2 hsub

structure IdsOk (hi : Nat × Nat) (os : List (Nat × Nat)) : Prop where
  below : ∀ o ∈ os, o.1 < hi.1 ∧ o.2 < hi.2
  nodup_fst : (os.map Prod.fst).Nodup
  nodup_snd : (os.map Prod.snd).Nodup

theorem nodup_map_of_subperm {α β : Type} {f : α → β} {l l' : List α} (h : l.Subperm l')
    (hn : (l'.map f).Nodup) :
    (l.map f).Nodup := by
  obtain ⟨l1, hperm, hsub⟩ := h
  exact (hperm.map f).nodup_iff.1 ((hsub.map f).nodup hn)

theorem Grows.idsOk (h : Grows lo hi os os') (hos : IdsOk lo os) : IdsOk hi os' := by
  obtain ⟨f, hsub, hf⟩ := h
  have hall : Fresh (0, 0) hi (os ++ f) := by
    refine Fresh.append ⟨Nat.zero_le _, Nat.zero_le _, fun o ho => ?_, hos.nodup_fst,
      hos.nodup_snd⟩ hf
    have := hos.below o ho
    omega
  refine ⟨fun o ho => ?_, ?_, ?_⟩
  · have := hall.range o (hsub.subset ho)
    omega
  · exact nodup_map_of_subperm hsub hall.nodup_fst
  · exact nodup_map_of_subperm hsub hall.nodup_snd

theorem Grows.mem_of_lt (h : Grows lo hi os os') {o : Nat × Nat} (ho : o ∈ os') (hlt : o.1 < lo.1) :
    o ∈ os := by
  obtain ⟨f, hsub, hf⟩ := h
  rcases mem_append.1 (hsub.subset ho) with h | h
  · exact h
  · have := hf.range o h
    omega

end Fresh

/-! ### The ids of a snapshot -/

def IndexDef.object (i : IndexDef) : Nat × Nat := (i.indexId, i.relationId)

def TableDef.objects (t : TableDef) : List (Nat × Nat) :=
  (t.tableId, t.relationId) :: t.indexes.map IndexDef.object

def TableDef.Owns (t : TableDef) : Prop := ∀ i ∈ t.indexes, i.tableId = t.tableId

namespace SchemaSnapshot

def objects (s : SchemaSnapshot) : List (Nat × Nat) := s.tables.flatMap TableDef.objects

def counters (s : SchemaSnapshot) : Nat × Nat := (s.nextObjectId, s.nextRelationId)

end SchemaSnapshot

open SchemaSnapshot

structure Next (s s' : SchemaSnapshot) : Prop where
  epoch : s' = s ∨ s.schemaEpoch < s'.schemaEpoch
  grows : Grows s.counters s'.counters s.objects s'.objects
  owned : (∀ t ∈ s.tables, t.Owns) → ∀ t ∈ s'.tables, t.Owns

theorem Next.refl (s : SchemaSnapshot) : Next s s :=
  ⟨.inl rfl, .of_subperm le_rfl le_rfl (List.Subperm.refl _), id⟩

theorem Next.trans {s s' s'' : SchemaSnapshot} (h : Next s s') (h' : Next s' s'') : Next s s'' := by
  refine ⟨?_, h.grows.trans h'.grows, h'.owned ∘ h.owned⟩
  rcases h.epoch with rfl | h1
  · exact h'.epoch
  · rcases h'.epoch with rfl | h2
    · exact .inr h1
    · exact .inr (lt_trans h1 h2)

theorem next_bumped {s s1 : SchemaSnapshot} (hcap : s.schemaEpoch + 1 < 2 ^ 64)
    (hepoch : s1.schemaEpoch = s.schemaEpoch)
    (hgrows : Grows s.counters s1.counters s.objects s1.objects)
    (howned : (∀ t ∈ s.tables, t.Owns) → ∀ t ∈ s1.tables, t.Owns) : Next s s1.bumped := by
  refine ⟨.inr ?_, hgrows, howned⟩
  rw [bumped, hepoch]
  exact lt_min (Nat.lt_succ_self _) (by omega)

/-! ### Replacing a table -/

variable {f : TableDef → TableDef} {p : TableDef → Bool} {q : IndexDef → Bool}
    {l r ts ts' : List TableDef}
  {t t' : TableDef}

theorem replaceFirst_cases (h : replaceFirst p f ts = some ts') :
    ∃ l t r, ts = l ++ t :: r ∧ ts' = l ++ f t :: r ∧ p t = true ∧ ∀ t' ∈ l, p t' = false := by
  induction ts generalizing ts' with
  | nil => cases h
  | cons t ts ih =>
    rw [replaceFirst] at h
    split at h
    case isTrue hp =>
      cases h
      exact ⟨[], t, ts, rfl, rfl, hp, fun _ h => nomatch h⟩
    case isFalse hp =>
      obtain ⟨ts1, h1, rfl⟩ := Option.map_eq_some_iff.1 h
      obtain ⟨l, t1, r, rfl, rfl, hp1, hl⟩ := ih h1
      refine ⟨t :: l, t1, r, rfl, rfl, hp1, fun t' ht' => ?_⟩
      rcases mem_cons.1 ht' with rfl | ht'
      · exact Bool.eq_false_iff.2 hp
      · exact hl t' ht'

theorem replaceFirst_isSome (ht : t ∈ ts) (hp : p t = true) : replaceFirst p f ts ≠ none := by
  induction ts with
  | nil => cases ht
  | cons t1 ts ih =>
    rw [replaceFirst]
    split
    case isTrue => exact nofun
    case isFalse hp1 =>
      rw [Ne, Option.map_eq_none_iff]
      rcases mem_cons.1 ht with rfl | ht
      · exact absurd hp hp1
      · exact ih ht

theorem objects_replace {fresh : List (Nat × Nat)} (h : t'.objects.Subperm (t.objects ++ fresh)) :
    ((l ++ t' :: r).flatMap TableDef.objects).Subperm
    ((l ++ t :: r).flatMap TableDef.objects ++ fresh) := by
  simp only [flatMap_append, flatMap_cons]
  rw [append_assoc]
  refine (subperm_append_left _).2 ?_
  have h1 : (t'.objects ++ r.flatMap TableDef.objects).Subperm
      (t.objects ++ fresh ++ r.flatMap TableDef.objects) :=
    (subperm_append_right _).2 h
  refine h1.trans (List.Perm.subperm ?_)
  rw [append_assoc, append_assoc]
  exact (perm_append_comm).append_left _

theorem objects_filter (p : IndexDef → Bool) (t : TableDef) :
    ({ t with indexes := t.indexes.filter p } : TableDef).objects.Subperm t.objects :=
  ((filter_sublist.map _).cons_cons _).subperm

theorem map_replaceFirstIndex {p : IndexDef → Bool} {f : IndexDef → IndexDef} {β : Type}
    (g : IndexDef → β)
    (hf : ∀ i, g (f i) = g i) (is : List IndexDef) :
    (replaceFirstIndex p f is).map g = is.map g := by
  induction is with
  | nil => rfl
  | cons i is ih =>
    rw [replaceFirstIndex]
    split
    · rw [map_cons, map_cons, hf]
    · rw [map_cons, map_cons, ih]

namespace Build
variable {b b' b'' : Build} {tableId : Nat}

def counters (b : Build) : Nat × Nat := (b.nextObjectId, b.nextRelationId)

def Adds (tableId : Nat) (b b' : Build) : Prop :=
  ∃ new, b'.indexes = b.indexes ++ new ∧ Fresh b.counters b'.counters (new.map IndexDef.object) ∧
    ∀ i ∈ new, i.tableId = tableId

theorem Adds.refl (tableId : Nat) (b : Build) : Adds tableId b b :=
  ⟨[], (append_nil _).symm, fresh_nil le_rfl le_rfl, nofun⟩

theorem Adds.trans (h : Adds tableId b b') (h' : Adds tableId b' b'') : Adds tableId b b'' := by
  obtain ⟨new, hi, hfresh, ht⟩ := h
  obtain ⟨new', hi', hfresh', ht'⟩ := h'
  refine ⟨new ++ new', by rw [hi', hi, append_assoc], ?_, forall_mem_append.2 ⟨ht, ht'⟩⟩
  rw [map_append]
  exact hfresh.append hfresh'

theorem adds_of_indexes (hi : b'.indexes = b.indexes) (ho : b.nextObjectId ≤ b'.nextObjectId)
    (hr : b'.nextRelationId = b.nextRelationId) : Adds tableId b b' :=
  ⟨[], by rw [hi, append_nil], fresh_nil ho (le_of_eq hr.symm), nofun⟩

theorem adds_index {i : IndexDef} (hi : b'.indexes = b.indexes ++ [i]) (ht : i.tableId = tableId)
    (hid : i.indexId = b.nextObjectId + 1) (hrel : i.relationId = b.nextRelationId)
    (ho : b'.nextObjectId = b.nextObjectId + 2) (hr : b'.nextRelationId = b.nextRelationId + 1) :
    Adds tableId b b' := by
  refine ⟨[i], hi, fresh_singleton ?_ ?_ ?_ ?_, fun i' h => mem_singleton.1 h ▸ ht⟩
  all_goals
    simp only [counters, IndexDef.object, hid, hrel, ho, hr]
    omega

theorem adds_addColumnIndex (b : Build) (spec : CreateTableSpec) (tableId columnId ordinal : Nat)
    (origin : IndexOrigin)
    (kind : ConstraintKind) (sortDir : SortDir) (conflict : ConflictAction) :
    Adds tableId b (b.addColumnIndex spec tableId columnId ordinal origin kind sortDir conflict) :=
  adds_index rfl rfl rfl rfl rfl rfl

theorem adds_columnConstraint (spec : CreateTableSpec) (tableId columnId ordinal : Nat)
    (affinity : Affinity)
    (c : ColumnState) (k : ColumnConstraintSpec) :
    Adds tableId c.build (columnConstraint spec tableId columnId ordinal affinity c k).build := by
  cases k with
  | primaryKey sortDir conflict =>
    simp only [columnConstraint]
    split
    · exact (adds_of_indexes rfl le_rfl rfl).trans (adds_addColumnIndex ..)
    · exact adds_addColumnIndex ..
  | unique conflict => exact adds_addColumnIndex ..
  | notNull conflict => exact adds_of_indexes rfl (Nat.le_succ _) rfl
  | default expr => cases expr <;> exact Adds.refl ..
  | check expr => exact adds_of_indexes rfl (Nat.le_succ _) rfl

theorem adds_columnConstraints (spec : CreateTableSpec) (tableId columnId ordinal : Nat)
    (affinity : Affinity)
    (c : ColumnState) (ks : List ColumnConstraintSpec) :
    Adds tableId c.build
      (ks.foldl (columnConstraint spec tableId columnId ordinal affinity) c).build := by
  induction ks generalizing c with
  | nil => exact Adds.refl ..
  | cons k ks ih => exact (adds_columnConstraint ..).trans (ih _)

variable {spec : CreateTableSpec}

theorem adds_column {col : ColumnSpec} (h : column spec tableId b col = .ok b') :
    Adds tableId b b' := by
  simp only [column, bind_eq_ok, pure_eq_ok] at h
  obtain ⟨-, -, rfl⟩ := h
  have h1 : Adds tableId b { b with nextObjectId := b.nextObjectId + 1 } :=
    adds_of_indexes rfl (Nat.le_succ _) rfl
  exact (h1.trans (adds_columnConstraints spec tableId b.nextObjectId b.columns.length _
    ⟨{ b with nextObjectId := b.nextObjectId + 1 }, false, col.defaultValue, none⟩
      col.constraints)).trans
    (adds_of_indexes rfl le_rfl rfl)

theorem adds_addTableIndex {origin : IndexOrigin} {kind : ConstraintKind} {name : Option DbName}
    {indexName : Nat → String × String} {columns : List DbName} {conflict : ConflictAction}
    (h : b.addTableIndex tableId origin kind name indexName columns conflict = .ok b') :
    Adds tableId b b' := by
  simp only [addTableIndex, bind_eq_ok, pure_eq_ok] at h
  obtain ⟨ordinals, -, rfl⟩ := h
  exact adds_index rfl rfl rfl rfl rfl rfl

theorem adds_addForeignKey {missing : Error} {name : Option DbName} {columns : List DbName}
    {parentTable : DbName} {parentColumns : List DbName} {onDelete onUpdate : FkAction}
    {deferred : Bool}
    (h : b.addForeignKey missing name columns parentTable parentColumns onDelete onUpdate deferred =
      .ok b') :
    Adds tableId b b' := by
  simp only [addForeignKey, bind_eq_ok, pure_eq_ok] at h
  obtain ⟨ordinals, -, rfl⟩ := h
  exact adds_of_indexes rfl (Nat.le_succ _) rfl

theorem adds_addCheck (b : Build) (name : Option DbName) (expr : ExprAst) :
    Adds tableId b (b.addCheck name expr) :=
  adds_of_indexes rfl (Nat.le_succ _) rfl

theorem adds_tableConstraint {k : TableConstraintSpec}
    (h : tableConstraint spec tableId b k = .ok b') : Adds tableId b b' := by
  cases k with
  | primaryKey name columns conflict => exact adds_addTableIndex h
  | unique name columns conflict => exact adds_addTableIndex h
  | check name expr =>
    cases h
    exact adds_addCheck ..
  | foreignKey name columns parentTable parentColumns onDelete onUpdate deferred =>
    exact adds_addForeignKey h

theorem adds_foldlM {α : Type} {f : Build → α → Except Error Build}
    (hf : ∀ b a b', f b a = .ok b' → Adds tableId b b') {as : List α} (h : as.foldlM f b = .ok b') :
    Adds tableId b b' := by
  induction as generalizing b with
  | nil =>
    cases h
    exact Adds.refl ..
  | cons a as ih =>
    rw [foldlM_cons, bind_eq_ok] at h
    obtain ⟨b1, h1, h2⟩ := h
    exact (hf _ _ _ h1).trans (ih h2)

end Build

/-- `IF EXISTS` and `IF NOT EXISTS`: the statement is accepted and changes nothing, or goes on. -/
@[elab_as_elim] theorem of_unless {c : Prop} [Decidable c] {d : Bool} {e : Error}
    {s s' : SchemaSnapshot}
    {x : Except Error SchemaSnapshot} {P : SchemaSnapshot → Prop}
    (h : (if c then if d = true then pure s else throw e else x) = .ok s') (hc : c → P s)
    (hx : x = .ok s' → P s') :
    P s' := by
  split at h
  case isTrue hyes =>
    split at h
    · cases h
      exact hc hyes
    · cases h
  case isFalse => exact hx h

section Statements
variable {s s' : SchemaSnapshot}

theorem owns_replace (h : ∀ t1 ∈ l ++ t :: r, t1.Owns) (ht : t.Owns → t'.Owns) :
    ∀ t1 ∈ l ++ t' :: r, t1.Owns := by
  rw [forall_mem_append, forall_mem_cons] at h ⊢
  exact ⟨h.1, ht h.2.1, h.2.2⟩

section Lookup
variable {s : SchemaSnapshot} {schemaId : Nat} {name : DbName}

theorem lookupTable_isSome (h : (s.lookupTable schemaId name.folded).isSome = true) :
    ∃ t ∈ s.tables, t.folded = name.folded := by
  obtain ⟨t, ht⟩ := Option.isSome_iff_exists.1 h
  have hp := find?_some ht
  have hm := mem_of_find?_eq_some ht
  rw [name.lower] at hp
  exact ⟨t, mem_reverse.1 hm, (of_decide_eq_true hp).2⟩

theorem lookupView_isSome (h : (s.lookupView schemaId name.folded).isSome = true) :
    ∃ v ∈ s.views, v.folded = name.folded := by
  obtain ⟨v, hv⟩ := Option.isSome_iff_exists.1 h
  have hp := find?_some hv
  have hm := mem_of_find?_eq_some hv
  rw [name.lower] at hp
  exact ⟨v, mem_reverse.1 hm, (of_decide_eq_true hp).2⟩

theorem lookupIndex_eq_some {i : IndexDef} (h : s.lookupIndex schemaId name.folded = some i) :
    (∃ t ∈ s.tables, i ∈ t.indexes) ∧ i.folded = name.folded := by
  have hp := find?_some h
  have hm := mem_of_find?_eq_some h
  rw [name.lower] at hp
  obtain ⟨t, ht, hi⟩ := mem_flatMap.1 (mem_reverse.1 hm)
  exact ⟨⟨t, (mem_filter.1 ht).1, hi⟩, of_decide_eq_true hp⟩

theorem lookupIndex_isSome (h : (s.lookupIndex schemaId name.folded).isSome = true) :
    ∃ i ∈ s.indexes, i.folded = name.folded := by
  obtain ⟨i, hi⟩ := Option.isSome_iff_exists.1 h
  obtain ⟨⟨t, ht, hit⟩, hf⟩ := lookupIndex_eq_some hi
  exact ⟨i, mem_flatMap.2 ⟨t, ht, hit⟩, hf⟩

end Lookup

theorem not_mem_of_filter {α : Type} {l : List α} {p : α → Prop} [DecidablePred p]
    (h : (l.filter fun a => ¬ p a).length = l.length) : ∀ a ∈ l, ¬ p a := by
  intro a ha
  rw [← List.Sublist.eq_of_length filter_sublist h] at ha
  exact of_decide_eq_true (mem_filter.1 ha).2

theorem folded_modifyIndex {f : IndexDef → IndexDef}
    (h : replaceFirst p (fun t => { t with indexes := replaceFirstIndex q f t.indexes }) ts =
      some ts')
    (hf : ∀ i, (f i).folded = i.folded) :
    (ts'.flatMap TableDef.indexes).map IndexDef.folded =
    (ts.flatMap TableDef.indexes).map IndexDef.folded := by
  obtain ⟨l, t, r, rfl, rfl, -, -⟩ := replaceFirst_cases h
  simp only [flatMap_append, flatMap_cons, map_append, map_replaceFirstIndex IndexDef.folded hf]

theorem mem_replaceFirstIndex {f : IndexDef → IndexDef} {is : List IndexDef}
    (h : is.any q = true) : ∃ i, f i ∈ replaceFirstIndex q f is := by
  induction is with
  | nil => cases h
  | cons i is ih =>
    rw [replaceFirstIndex]
    split
    case isTrue => exact ⟨i, mem_cons_self ..⟩
    case isFalse hq =>
      rw [any_cons, Bool.eq_false_iff.2 hq, Bool.false_or] at h
      obtain ⟨i', hi'⟩ := ih h
      exact ⟨i', mem_cons_of_mem _ hi'⟩

structure SnapshotOk (s : SchemaSnapshot) : Prop where
  ids : IdsOk s.counters s.objects
  owns : ∀ t ∈ s.tables, t.Owns

theorem Next.snapshotOk (h : Next s s') (hs : SnapshotOk s) : SnapshotOk s' :=
  ⟨h.grows.idsOk hs.ids, h.owned hs.owns⟩

theorem object_mem_objects {i : IndexDef} (hi : i ∈ t.indexes) : i.object ∈ t.objects :=
  mem_cons_of_mem _ (mem_map_of_mem hi)

theorem IdsOk.ne_of_tables {hi : Nat × Nat}
    (h : IdsOk hi ((l ++ t :: r).flatMap TableDef.objects)) (ht' : t' ∈ l ++ r) {o o' : Nat × Nat}
    (ho : o ∈ t.objects)
    (ho' : o' ∈ t'.objects) : o'.1 ≠ o.1 := by
  have hn := h.nodup_fst
  have hperm : ((l ++ t :: r).flatMap TableDef.objects).Perm
      (t.objects ++ (l ++ r).flatMap TableDef.objects) := by
    simp only [flatMap_append, flatMap_cons]
    rw [← append_assoc, ← append_assoc]
    exact perm_append_comm.append_right _
  rw [(hperm.map Prod.fst).nodup_iff, map_append, nodup_append] at hn
  exact fun heq => hn.2.2 _ (mem_map_of_mem ho) _
    (mem_map_of_mem (mem_flatMap.2 ⟨t', ht', ho'⟩)) heq.symm

section Epoch
variable (hcap : s.schemaEpoch + 1 < 2 ^ 64)
include hcap

theorem next_replaceFirst {f : TableDef → TableDef} {s1 : SchemaSnapshot}
    {fresh : List (Nat × Nat)} (h : replaceFirst p f s.tables = some s1.tables)
    (hepoch : s1.schemaEpoch = s.schemaEpoch) (hfresh : Fresh s.counters s1.counters fresh)
    (hobj : ∀ t, p t = true → t ∈ s.tables → (f t).objects.Subperm (t.objects ++ fresh))
    (howns : ∀ t, p t = true → t.Owns → (f t).Owns) : Next s s1.bumped := by
  obtain ⟨l, t, r, hts, hts', hp, -⟩ := replaceFirst_cases h
  have ht : t ∈ s.tables := by rw [hts]; simp
  refine next_bumped hcap hepoch ⟨fresh, ?_, hfresh⟩ fun ho => ?_
  · rw [objects, objects, hts, hts']
    exact objects_replace (hobj t hp ht)
  · rw [hts']
    rw [hts] at ho
    exact owns_replace ho (howns t hp)

theorem createTable_ok {spec : CreateTableSpec} (h : applyCreateTable s spec = .ok s') :
    Next s s' ∧ ∃ t ∈ s'.tables, t.folded = spec.name.folded := by
  simp only [applyCreateTable, bind_eq_ok] at h
  obtain ⟨schemaId, -, h⟩ := h
  refine of_unless h (fun hsome => ⟨.refl s, lookupTable_isSome hsome⟩) fun h => ?_
  simp only [bind_eq_ok, pure_eq_ok] at h
  obtain ⟨b1, hcols, b2, hcons, rfl⟩ := h
  have hadds := (Build.adds_foldlM (fun _ _ _ => Build.adds_column) hcols).trans
    (Build.adds_foldlM (fun _ _ _ => Build.adds_tableConstraint) hcons)
  obtain ⟨new, hi, hfresh, ht⟩ := hadds
  rw [nil_append] at hi
  refine ⟨next_bumped hcap rfl ⟨(s.nextObjectId, s.nextRelationId) :: new.map IndexDef.object, ?_,
    ?_⟩ fun ho => ?_,
    _, mem_append_right _ (mem_singleton_self _), rfl⟩
  · simp only [objects, flatMap_append, flatMap_cons, flatMap_nil, append_nil, TableDef.objects, hi]
    exact List.Subperm.refl _
  · exact (fresh_singleton le_rfl (Nat.lt_succ_self _) le_rfl (Nat.lt_succ_self _)).append hfresh
  · exact forall_mem_append.2 ⟨ho, forall_mem_singleton.2 fun i h => ht i (hi ▸ h)⟩

variable {spec : DropSpec}

theorem dropTable_ok (h : applyDropTable s spec = .ok s') :
    Next s s' ∧ ∀ schemaId, resolveSchemaId s (some spec.name.schema) = .ok schemaId →
      ∀ t ∈ s'.tables, ¬ (t.schemaId = schemaId ∧ t.folded = spec.name.name.folded) := by
  simp only [applyDropTable, bind_eq_ok] at h
  obtain ⟨schemaId, hid, h⟩ := h
  simp only [hid, Except.ok.injEq, forall_eq']
  refine of_unless h (fun hlen => ⟨.refl s, not_mem_of_filter hlen⟩) fun h => ?_
  cases h
  refine ⟨next_bumped hcap rfl (.of_subperm le_rfl le_rfl ?_) fun ho t ht => ho t
    (mem_filter.1 ht).1,
    fun t ht => of_decide_eq_true (mem_filter.1 ht).2⟩
  exact (filter_sublist.flatMap _).subperm

theorem createIndex_ok {spec : CreateIndexSpec} (h : applyCreateIndex s spec = .ok s') :
    Next s s' ∧ s'.schemaEpoch ≤ s.schemaEpoch + 1 ∧ ∃ i ∈ s'.indexes,
      i.folded = spec.name.folded := by
  simp only [applyCreateIndex, bind_eq_ok] at h
  obtain ⟨schemaId, -, h⟩ := h
  refine of_unless h (fun hsome => ⟨.refl s, Nat.le_succ _, lookupIndex_isSome hsome⟩) fun h => ?_
  simp only [bind_eq_ok] at h
  obtain ⟨tableSchema, -, table, -, keys, -, h⟩ := h
  split at h
  case h_1 => cases h
  case h_2 tables htables =>
    cases h
    refine ⟨next_replaceFirst hcap htables rfl
      (fresh_singleton le_rfl (Nat.lt_succ_self _) le_rfl (Nat.lt_succ_self _)) ?_ ?_,
      Nat.min_le_left _ _, ?_⟩
    · intro t _ _
      simp only [TableDef.objects, map_append]
      exact List.Subperm.refl _
    · intro t hp ho
      exact forall_mem_append.2 ⟨ho, forall_mem_singleton.2 (of_decide_eq_true hp).symm⟩
    · obtain ⟨l, t, r, -, rfl, -, -⟩ := replaceFirst_cases htables
      simp only [indexes, bumped, flatMap_append, flatMap_cons]
      exact ⟨_, mem_append_right _ (mem_append_left _ (mem_append_right _ (mem_singleton_self _))),
        rfl⟩

theorem next_modifyIndex {f : IndexDef → IndexDef} {tables : List TableDef}
    (h : replaceFirst p (fun t => { t with indexes := replaceFirstIndex q f t.indexes }) s.tables =
      some tables)
    (hf : ∀ i, (f i).object = i.object) (hf' : ∀ i, (f i).tableId = i.tableId) :
    Next s (bumped { s with tables }) := by
  refine next_replaceFirst hcap h rfl (fresh_nil le_rfl le_rfl) ?_ ?_
  · intro t _ _
    simp only [TableDef.objects, map_replaceFirstIndex IndexDef.object hf, append_nil]
    exact List.Subperm.refl _
  · intro t _ ho i hi
    have hmem : i.tableId ∈ (replaceFirstIndex q f t.indexes).map IndexDef.tableId :=
      mem_map_of_mem hi
    rw [map_replaceFirstIndex IndexDef.tableId hf'] at hmem
    obtain ⟨i', hi', heq⟩ := mem_map.1 hmem
    exact heq.symm.trans (ho i' hi')

theorem setIndexMetaPageId_ok {indexId metaPageId : Nat}
    (h : applySetIndexMetaPageId s indexId metaPageId = .ok s') :
    Next s s' ∧ ∀ folded, (∃ i ∈ s.indexes, i.folded = folded) → ∃ i ∈ s'.indexes,
      i.folded = folded := by
  rw [applySetIndexMetaPageId] at h
  split at h
  case h_1 => cases h
  case h_2 tables htables =>
    cases h
    refine ⟨next_modifyIndex hcap htables (fun _ => rfl) fun _ => rfl, fun folded hex => ?_⟩
    have hmem : folded ∈ s.indexes.map IndexDef.folded := mem_map.2 hex
    rw [indexes, ← folded_modifyIndex htables fun _ => rfl] at hmem
    exact mem_map.1 hmem

theorem renameIndex_ok {oldFolded newName : String}
    (h : applyRenameIndex s oldFolded newName = .ok s') :
    Next s s' ∧ ∃ i ∈ s'.indexes, i.folded = toAsciiLowercase newName := by
  simp only [applyRenameIndex, bind_eq_ok] at h
  obtain ⟨schemaId, -, -, -, h⟩ := h
  split at h
  case h_1 => cases h
  case h_2 tables htables =>
    cases h
    refine ⟨next_modifyIndex hcap htables (fun _ => rfl) fun _ => rfl, ?_⟩
    obtain ⟨l, t, r, -, rfl, hp, -⟩ := replaceFirst_cases htables
    obtain ⟨i, hi⟩ := mem_replaceFirstIndex
      (f := fun i => { i with name := newName, folded := toAsciiLowercase newName }) hp
    refine ⟨{ i with name := newName, folded := toAsciiLowercase newName }, ?_, rfl⟩
    simp only [indexes, bumped, flatMap_append, flatMap_cons]
    exact mem_append_right _ (mem_append_left _ hi)

theorem dropIndex_ok (hs : SnapshotOk s) (h : applyDropIndex s spec = .ok s') :
    Next s s' ∧ ∀ schemaId i, resolveSchemaId s (some spec.name.schema) = .ok schemaId →
      s.lookupIndex schemaId spec.name.name.folded = some i → ∀ i' ∈ s'.indexes,
        i'.indexId ≠ i.indexId := by
  simp only [applyDropIndex, bind_eq_ok] at h
  obtain ⟨schemaId, hid, h⟩ := h
  simp only [forall_comm (α := IndexDef), hid, Except.ok.injEq, forall_eq']
  split at h
  case h_1 hnone =>
    split at h
    · cases h
      exact ⟨.refl s, fun i hi => by rw [hnone] at hi; cases hi⟩
    · cases h
  case h_2 i hi =>
    simp only [hi, Option.some.injEq, forall_eq']
    obtain ⟨⟨t0, ht0, hit0⟩, -⟩ := lookupIndex_eq_some hi
    have hown := hs.owns t0 ht0 i hit0
    simp only [bind_eq_ok] at h
    obtain ⟨-, -, h⟩ := h
    split at h
    case h_1 hnone => exact absurd hnone (replaceFirst_isSome ht0 (decide_eq_true hown.symm))
    case h_2 tables htables =>
      cases h
      refine ⟨next_replaceFirst hcap htables rfl (fresh_nil le_rfl le_rfl) ?_ fun t _ ho i hi =>
        ho i (mem_filter.1 hi).1, ?_⟩
      · intro t _ _
        rw [append_nil]
        exact objects_filter _ t
      obtain ⟨l, t, r, hts, rfl, hp, -⟩ := replaceFirst_cases htables
      have hids := hs.ids
      rw [objects, hts] at hids
      -- the table that is changed is the one with the index
      have htid : t.tableId = i.tableId := of_decide_eq_true hp
      have hin : t0 ∉ l ++ r := fun hmem =>
        hids.ne_of_tables hmem (mem_cons_self ..) (mem_cons_self ..) (hown.symm.trans htid.symm)
      have heq : t0 = t := by
        rw [hts] at ht0
        simp only [mem_append, mem_cons, not_or] at ht0 hin
        tauto
      subst heq
      intro i' hi'
      simp only [indexes, bumped, flatMap_append, flatMap_cons, mem_append] at hi'
      rcases hi' with hi' | hi' | hi'
      · obtain ⟨t', ht', hi'⟩ := mem_flatMap.1 hi'
        exact hids.ne_of_tables (mem_append_left _ ht') (object_mem_objects hit0)
          (object_mem_objects hi')
      · exact of_decide_eq_true (mem_filter.1 hi').2
      · obtain ⟨t', ht', hi'⟩ := mem_flatMap.1 hi'
        exact hids.ne_of_tables (mem_append_right _ ht') (object_mem_objects hit0)
          (object_mem_objects hi')

theorem next_of_tables {s1 : SchemaSnapshot} (ht : s1.tables = s.tables)
    (hepoch : s1.schemaEpoch = s.schemaEpoch)
    (ho : s.nextObjectId ≤ s1.nextObjectId) (hr : s1.nextRelationId = s.nextRelationId) :
    Next s s1.bumped := by
  refine next_bumped hcap hepoch (.of_subperm ho (le_of_eq hr.symm) ?_) fun h => ht ▸ h
  rw [objects, ht]
  exact List.Subperm.refl _

theorem createView_ok {spec : CreateViewSpec} (h : applyCreateView s spec = .ok s') : Next s s' ∧
    ((∃ v ∈ s'.views, v.folded = spec.name.folded) ∨ ∃ t ∈ s'.tables,
      t.folded = spec.name.folded) := by
  simp only [applyCreateView, bind_eq_ok] at h
  obtain ⟨schemaId, -, h⟩ := h
  refine of_unless h (fun hsome => ⟨.refl s, .inr (lookupTable_isSome hsome)⟩) fun h => ?_
  refine of_unless h (fun hsome => ⟨.refl s, .inl (lookupView_isSome hsome)⟩) fun h => ?_
  simp only [bind_eq_ok, pure_eq_ok] at h
  obtain ⟨-, -, rfl⟩ := h
  exact ⟨next_of_tables hcap rfl rfl (Nat.le_succ _) rfl,
    .inl ⟨_, mem_append_right _ (mem_singleton_self _), rfl⟩⟩

theorem dropView_ok (h : applyDropView s spec = .ok s') :
    Next s s' ∧ ∀ schemaId, resolveSchemaId s (some spec.name.schema) = .ok schemaId →
      ∀ v ∈ s'.views, ¬ (v.schemaId = schemaId ∧ v.folded = spec.name.name.folded) := by
  simp only [applyDropView, bind_eq_ok] at h
  obtain ⟨schemaId, hid, h⟩ := h
  simp only [hid, Except.ok.injEq, forall_eq']
  refine of_unless h (fun hlen => ⟨.refl s, not_mem_of_filter hlen⟩) fun h => ?_
  cases h
  exact ⟨next_of_tables hcap rfl rfl le_rfl rfl, fun v hv => of_decide_eq_true (mem_filter.1 hv).2⟩

theorem createTrigger_ok {spec : CreateTriggerSpec}
    (hname : (∃ n ∈ s.triggerNames, n.2 = spec.name.folded) → ∃ t ∈ s.triggers,
      t.folded = spec.name.folded)
    (h : applyCreateTrigger s spec = .ok s') : Next s s' ∧ ∃ t ∈ s'.triggers,
    t.folded = spec.name.folded := by
  simp only [applyCreateTrigger, bind_eq_ok] at h
  obtain ⟨schemaId, -, h⟩ := h
  refine of_unless h (fun hhas => ⟨.refl s, hname ⟨_, contains_iff_mem.1 hhas, spec.name.lower⟩⟩)
    fun h => ?_
  split at h
  all_goals
    simp only [bind_eq_ok, pure_eq_ok] at h
    obtain ⟨-, -, rfl⟩ := h
    exact ⟨next_of_tables hcap rfl rfl (Nat.le_succ _) rfl, _,
      mem_append_right _ (mem_singleton_self _), rfl⟩

theorem dropTrigger_ok (h : applyDropTrigger s spec = .ok s') :
    Next s s' ∧ ∀ schemaId, resolveSchemaId s (some spec.name.schema) = .ok schemaId →
      ∀ t ∈ s'.triggers, ¬ (t.schemaId = schemaId ∧ t.folded = spec.name.name.folded) := by
  simp only [applyDropTrigger, bind_eq_ok] at h
  obtain ⟨schemaId, hid, h⟩ := h
  simp only [hid, Except.ok.injEq, forall_eq']
  refine of_unless h (fun hlen => ⟨.refl s, not_mem_of_filter hlen⟩) fun h => ?_
  cases h
  exact ⟨next_of_tables hcap rfl rfl le_rfl rfl, fun t ht => of_decide_eq_true (mem_filter.1 ht).2⟩

end Epoch

def AlterTableSpec.newName (spec : AlterTableSpec) : DbName :=
  match spec.operation with
  | .renameTable tableName => tableName.name
  | _ => spec.name.name

structure AlterOk (s : SchemaSnapshot) (table : TableDef) (folded : String) (a : Altered) :
    Prop where
  epoch : a.snapshot.schemaEpoch = s.schemaEpoch
  objects : ∃ fresh, a.table.objects.Subperm (table.objects ++ fresh) ∧
    Fresh s.counters (a.nextObjectId, a.snapshot.nextRelationId) fresh
  owns : table.Owns → a.table.Owns
  folded : a.table.folded = folded

variable {table t : TableDef} {folded : String} {a : Altered}

theorem alterOk_of_new {new : List IndexDef} (hepoch : a.snapshot.schemaEpoch = s.schemaEpoch)
    (hid : a.table.tableId = table.tableId) (hrel : a.table.relationId = table.relationId)
    (hi : a.table.indexes = table.indexes ++ new)
    (hfresh : Fresh s.counters (a.nextObjectId, a.snapshot.nextRelationId)
      (new.map IndexDef.object))
    (ht : ∀ i ∈ new, i.tableId = table.tableId) (hf : a.table.folded = folded) :
    AlterOk s table folded a := by
  refine ⟨hepoch, ⟨_, ?_, hfresh⟩, fun h => ?_, hf⟩
  · rw [TableDef.objects, TableDef.objects, hid, hrel, hi, map_append]
    exact List.Subperm.refl _
  · rw [TableDef.Owns, hi, hid]
    exact forall_mem_append.2 ⟨h, ht⟩

theorem alterOk_of_indexes (hepoch : a.snapshot.schemaEpoch = s.schemaEpoch)
    (hr : a.snapshot.nextRelationId = s.nextRelationId)
    (ho : s.nextObjectId ≤ a.nextObjectId) (hid : a.table.tableId = table.tableId)
    (hrel : a.table.relationId = table.relationId) (hi : a.table.indexes = table.indexes)
    (hf : a.table.folded = folded) : AlterOk s table folded a :=
  alterOk_of_new hepoch hid hrel (hi.trans (append_nil _).symm) (fresh_nil ho (le_of_eq hr.symm))
    nofun hf

theorem alterOk_alterOnly (hid : t.tableId = table.tableId) (hrel : t.relationId = table.relationId)
    (hi : t.indexes = table.indexes) (hf : t.folded = folded) :
    AlterOk s table folded (alterOnly s t) :=
  alterOk_of_indexes rfl rfl le_rfl hid hrel hi hf

variable {spec : AlterTableSpec} {schemaId : Nat} {ifExists ifNotExists legacy : Bool}
  {columnName newName oldName : DbName}

theorem alterOk_renameTable {tableName : QualifiedName}
    (h : alterRenameTable s table legacy schemaId spec tableName = .ok a) :
    AlterOk s table tableName.name.folded a := by
  simp only [alterRenameTable, bind_eq_ok, pure_eq_ok] at h
  obtain ⟨targetSchema, -, -, -, -, -, rfl⟩ := h
  cases legacy <;> exact alterOk_of_indexes rfl rfl le_rfl rfl rfl rfl rfl

theorem alterOk_renameColumn
    (h : alterRenameColumn s table legacy schemaId oldName newName = .ok a) :
    AlterOk s table table.folded a := by
  simp only [alterRenameColumn, bind_eq_ok, pure_eq_ok] at h
  obtain ⟨-, -, -, -, rfl⟩ := h
  cases legacy <;> exact alterOk_of_indexes rfl rfl le_rfl rfl rfl rfl rfl

structure Widens (x x' : TableDef × Nat × Nat) : Prop where
  folded : x'.1.folded = x.1.folded
  tableId : x'.1.tableId = x.1.tableId
  relationId : x'.1.relationId = x.1.relationId
  adds : Build.Adds x.1.tableId (x.1.toBuild x.2.1 x.2.2) (x'.1.toBuild x'.2.1 x'.2.2)

theorem widens_addConstraint {table : TableDef} {o r : Nat} {x : TableDef × Nat × Nat}
    {constraint : TableConstraintSpec}
    (h : applyAlterAddConstraint table o r constraint ifNotExists = .ok x) :
    Widens (table, o, r) x := by
  rw [applyAlterAddConstraint] at h
  split at h
  case isTrue =>
    split at h
    · cases h
      exact ⟨rfl, rfl, rfl, .refl ..⟩
    · cases h
  case isFalse =>
    simp only [bind_eq_ok, pure_eq_ok] at h
    obtain ⟨b, hb, rfl⟩ := h
    have hadds : Build.Adds table.tableId (table.toBuild o r) b := by
      cases constraint with
      | primaryKey name columns conflict => cases hb
      | unique name columns conflict => exact Build.adds_addTableIndex hb
      | check name expr =>
        cases hb
        exact Build.adds_addCheck ..
      | foreignKey name columns parentTable parentColumns onDelete onUpdate deferred =>
        exact Build.adds_addForeignKey hb
    exact ⟨rfl, rfl, rfl, hadds⟩

theorem widens_addForeignKeys {ks : List TableConstraintSpec} {x x' : TableDef × Nat × Nat}
    (h : ks.foldlM alterAddForeignKey x = .ok x') : Widens x x' := by
  induction ks generalizing x with
  | nil =>
    cases h
    exact ⟨rfl, rfl, rfl, .refl ..⟩
  | cons k ks ih =>
    rw [foldlM_cons, bind_eq_ok] at h
    obtain ⟨x₁, h1, h2⟩ := h
    obtain ⟨hname, hid, hrel, hadds⟩ := ih h2
    have hk : applyAlterAddConstraint x.1 x.2.1 x.2.2 k false = .ok x₁ := by
      cases k with
      | foreignKey name columns parentTable parentColumns onDelete onUpdate deferred => exact h1
      | primaryKey name columns conflict => cases h1
      | unique name columns conflict => cases h1
      | check name expr => cases h1
    obtain ⟨hname1, hid1, hrel1, hadds1⟩ := widens_addConstraint hk
    exact ⟨hname.trans hname1, hid.trans hid1, hrel.trans hrel1, hadds1.trans (hid1 ▸ hadds)⟩

theorem alterOk_addColumn {column : ColumnSpec} {tableConstraints : List TableConstraintSpec}
    (h : alterAddColumn s table column ifNotExists tableConstraints = .ok (some a)) :
    AlterOk s table table.folded a := by
  rw [alterAddColumn] at h
  split at h
  case isTrue =>
    split at h
    · cases h
    · cases h
  case isFalse =>
    simp only [bind_eq_ok, pure_eq_ok, Option.some.injEq] at h
    obtain ⟨-, -, -, -, -, -, ⟨t1, o1, r1⟩, hfold, rfl⟩ := h
    obtain ⟨hname, hid, hrel, new, hi, hfresh, ht⟩ := widens_addForeignKeys hfold
    refine alterOk_of_new rfl hid hrel hi ?_ ht hname
    have hcol : Fresh s.counters (s.nextObjectId + 1, s.nextRelationId) [] :=
      fresh_nil (Nat.le_succ _) le_rfl
    exact hcol.append hfresh

theorem objects_renumber (t : TableDef) (n : Nat) :
    (t.indexes.map (TableDef.renumberIndex n)).map IndexDef.object =
    t.indexes.map IndexDef.object := by
  rw [map_map]
  rfl

theorem alterOk_dropColumn {folded : String} (h : table.dropColumn folded ifExists = .ok t) :
    AlterOk s table table.folded (alterOnly s t) := by
  rw [TableDef.dropColumn] at h
  split at h
  case h_1 dropOrdinal dropped _ _ =>
    simp only [bind_eq_ok, pure_eq_ok] at h
    obtain ⟨-, -, -, -, -, -, -, -, rfl⟩ := h
    refine ⟨rfl, ⟨[], ?_, fresh_nil le_rfl le_rfl⟩, fun ho i hi => ?_, rfl⟩
    · rw [append_nil, alterOnly, TableDef.objects, TableDef.objects]
      rw [objects_renumber]
    · obtain ⟨i', hi', rfl⟩ := mem_map.1 hi
      exact ho i' hi'
  case h_2 =>
    split at h
    · cases h
      exact alterOk_alterOnly rfl rfl rfl rfl
    · cases h

theorem alterOk_setColumnNotNull (h : alterSetColumnNotNull s table columnName = .ok a) :
    AlterOk s table table.folded a := by
  rw [alterSetColumnNotNull] at h
  split at h
  case h_1 => cases h
  case h_2 =>
    dsimp only at h
    split at h
    · cases h
      exact alterOk_alterOnly rfl rfl rfl rfl
    · cases h
      exact alterOk_of_indexes rfl rfl (Nat.le_succ _) rfl rfl rfl rfl

theorem alterOk_dropColumnNotNull (h : alterDropColumnNotNull s table columnName = .ok a) :
    AlterOk s table table.folded a := by
  rw [alterDropColumnNotNull] at h
  split at h
  · cases h
  · cases h
    exact alterOk_alterOnly rfl rfl rfl rfl

theorem alterOk_dropConstraint {name : DbName}
    (h : alterDropConstraint s table name ifExists = .ok a) :
    AlterOk s table table.folded a := by
  simp only [alterDropConstraint, bind_eq_ok, pure_eq_ok] at h
  obtain ⟨-, -, rfl⟩ := h
  refine ⟨rfl, ⟨[], ?_, fresh_nil le_rfl le_rfl⟩, fun ho i hi => ho i (mem_filter.1 hi).1, rfl⟩
  rw [append_nil]
  exact objects_filter _ table

theorem alterOk_renameConstraint (h : alterRenameConstraint s table oldName newName = .ok a) :
    AlterOk s table table.folded a := by
  simp only [alterRenameConstraint, bind_eq_ok, pure_eq_ok] at h
  obtain ⟨-, -, rfl⟩ := h
  exact alterOk_alterOnly rfl rfl rfl rfl

theorem alterOk_column {f : ColumnDef → ColumnDef} (h : alterColumn s table columnName f = .ok a) :
    AlterOk s table table.folded a := by
  simp only [alterColumn, bind_eq_ok, pure_eq_ok] at h
  obtain ⟨-, -, rfl⟩ := h
  exact alterOk_alterOnly rfl rfl rfl rfl

theorem map_eq_ok {α β : Type} {f : α → β} {x : Except Error α} {y : β} :
    f <$> x = .ok y ↔ ∃ a, x = .ok a ∧ f a = y := by
  cases x <;> simp [Functor.map, Except.map]

theorem map_some_eq_ok {α : Type} {x : Except Error α} {a : α} (h : some <$> x = .ok (some a)) :
    x = .ok a := by
  obtain ⟨a', h, heq⟩ := map_eq_ok.1 h
  cases heq
  exact h

theorem alterOk_operation
    (hname : table.folded = spec.name.name.folded)
    (h : alterOperation s table legacy schemaId spec = .ok (some a)) :
    AlterOk s table spec.newName.folded a := by
  have hnew : (∀ n, spec.operation ≠ .renameTable n) → spec.newName.folded = table.folded := by
    intro hne
    rw [AlterTableSpec.newName, hname]
    split
    case h_1 n heq => exact absurd heq (hne n)
    case h_2 => rfl
  rw [alterOperation] at h
  split at h
  case h_1 tableName hop =>
    rw [AlterTableSpec.newName, hop]
    exact alterOk_renameTable (map_some_eq_ok h)
  all_goals
    rename_i hop
    rw [hnew fun n => by rw [hop]; exact nofun]
  case h_2 oldName newName => exact alterOk_renameColumn (map_some_eq_ok h)
  case h_3 => exact alterOk_addColumn h
  case h_4 =>
    obtain ⟨t, hdrop, heq⟩ := map_eq_ok.1 h
    cases heq
    exact alterOk_dropColumn hdrop
  case h_5 | h_6 | h_14 => exact alterOk_column (map_some_eq_ok h)
  case h_7 => exact alterOk_dropColumnNotNull (map_some_eq_ok h)
  case h_8 => exact alterOk_setColumnNotNull (map_some_eq_ok h)
  case h_9 =>
    simp only [bind_eq_ok, pure_eq_ok, Option.some.injEq] at h
    obtain ⟨⟨t1, o1, r1⟩, h1, rfl⟩ := h
    obtain ⟨hf, hid, hrel, new, hi, hfresh, ht⟩ := widens_addConstraint h1
    exact alterOk_of_new rfl hid hrel hi hfresh ht hf
  case h_10 => exact alterOk_dropConstraint (map_some_eq_ok h)
  case h_11 => exact alterOk_renameConstraint (map_some_eq_ok h)
  case h_12 | h_13 =>
    simp only [bind_eq_ok, pure_eq_ok, Option.some.injEq] at h
    obtain ⟨-, -, rfl⟩ := h
    exact alterOk_alterOnly rfl rfl rfl rfl

theorem replaceFirst_find_eq
    (h : (l ++ t :: r).find? p = some t') (hp : p t = true) (hl : ∀ t1 ∈ l, p t1 = false) :
    t' = t := by
  rw [find?_append, find?_eq_none.2 fun x hx => by simp [hl x hx], Option.none_or,
    find?_cons_of_pos hp] at h
  exact (Option.some.inj h).symm

theorem alterTable_cases
    (hid : resolveSchemaId s (some spec.name.schema) = .ok schemaId)
    (h : applyAlterTable legacy s spec = .ok s') :
    s' = s ∧ ((∀ t ∈ s.tables, ¬ (t.schemaId = schemaId ∧ t.folded = spec.name.name.folded)) ∨
        ∃ t ∈ s.tables, t.folded = spec.newName.folded) ∨
      ∃ l t r a, s.tables = l ++ t :: r ∧ AlterOk s t spec.newName.folded a ∧
        s' = bumped { a.snapshot with
          tables := l ++ a.table :: r, nextObjectId := a.nextObjectId } := by
  simp only [applyAlterTable, hid, bind, Except.bind] at h
  split at h
  case h_1 hnone =>
    split at h
    · cases h
      refine .inl ⟨rfl, .inl fun t ht hp => ?_⟩
      exact find?_eq_none.1 hnone t ht (decide_eq_true hp)
    · cases h
  case h_2 table hfind =>
    have hfound := find?_some hfind
    have hname : table.folded = spec.name.name.folded := (of_decide_eq_true hfound).2
    split at h
    · cases h
    case h_2 oa hop =>
      cases oa with
      | none =>
        cases h
        refine .inl ⟨rfl, .inr ⟨table, mem_of_find?_eq_some hfind, ?_⟩⟩
        rw [AlterTableSpec.newName]
        split
        case h_1 n hn =>
          simp only [alterOperation, hn] at hop
          obtain ⟨a, -, heq⟩ := map_eq_ok.1 hop
          cases heq
        case h_2 => exact hname
      | some a =>
        cases h
        obtain ⟨tables, htables⟩ := Option.ne_none_iff_exists'.1
          (replaceFirst_isSome
            (p := fun t => decide (t.schemaId = schemaId ∧ t.folded = spec.name.name.folded))
            (f := fun _ => a.table) (mem_of_find?_eq_some hfind) hfound)
        obtain ⟨l, t, r, hts, rfl, hp, hl⟩ := replaceFirst_cases htables
        obtain rfl := replaceFirst_find_eq (hts ▸ hfind) hp hl
        refine .inr ⟨l, table, r, a, hts, alterOk_operation hname hop, ?_⟩
        rw [htables, Option.getD_some]

theorem alterTable_ok (hcap : s.schemaEpoch + 1 < 2 ^ 64)
    (h : applyAlterTable legacy s spec = .ok s') :
    Next s s' ∧ ∀ schemaId, resolveSchemaId s (some spec.name.schema) = .ok schemaId →
      (∃ t ∈ s.tables, t.schemaId = schemaId ∧ t.folded = spec.name.name.folded) →
      ∃ t ∈ s'.tables, t.folded = spec.newName.folded := by
  have hh := h
  simp only [applyAlterTable, bind_eq_ok] at hh
  obtain ⟨schemaId, hid, -⟩ := hh
  simp only [hid, Except.ok.injEq, forall_eq']
  rcases alterTable_cases hid h with ⟨rfl, hcase⟩ | ⟨l, t, r, a, hts, hok, rfl⟩
  · exact ⟨.refl s', fun ⟨t, ht, hp⟩ => hcase.resolve_left fun hnone => hnone t ht hp⟩
  · obtain ⟨fresh, hsub, hfresh⟩ := hok.objects
    refine ⟨next_bumped hcap hok.epoch ⟨fresh, ?_, hfresh⟩ fun ho => ?_,
      fun _ => ⟨a.table, by simp [bumped], hok.folded⟩⟩
    · rw [objects, objects, hts]
      exact objects_replace hsub
    · rw [hts] at ho
      exact owns_replace ho hok.owns

end Statements
end RedlineDb.Catalog
