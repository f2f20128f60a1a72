import Mathlib.Data.List.Basic
import Mathlib.Logic.Function.Basic

/-!
# JSON paths

`json/path.rs`: the value a path leads to, and the updates at a path of `json_set`, `json_insert`,
`json_replace` and `json_remove`. An update goes down one child after the other and leaves the
document as it is where a step does not apply; only the last step is the update's own.
-/

namespace RedlineDb.JsonPath
open Function List

inductive PathSegment
  | key (k : List Char)
  | index (i : Nat)
  | append
  | fromEnd (n : Nat)
deriving DecidableEq

inductive PathError
  | empty
  | missingRoot
  | unterminated
  | syntaxError (message : String)

inductive MutationMode
  | set
  | insert
  | replace

/-- Whether a value is written where there is one already, or there is none. -/
def MutationMode.writes : MutationMode → Bool → Bool
  | .set, _ => true
  | .insert, found => !found
  | .replace, found => found

/-- A document. Its objects are known by their lookups. -/
inductive Json (S : Type)
  | scalar (value : S)
  | array (elements : List (Json S))
  | object (members : List Char → Option (Json S))

variable {S : Type}
namespace Json

def child : Json S → PathSegment → Option (Json S)
  | .object m, .key k => m k
  | .array a, .index i => a[i]?
  | .array a, .fromEnd n => if n = 0 ∨ a.length < n then none else a[a.length - n]?
  | _, _ => none

/-- A child that is there is replaced. -/
def setChild : Json S → PathSegment → Json S → Json S
  | .object m, .key k, value => .object (update m k (some value))
  | .array a, .index i, value => .array (a.set i value)
  | .array a, .fromEnd n, value => .array (a.set (a.length - n) value)
  | current, _, _ => current

def write (current : Json S) (value : Json S) (mode : MutationMode) (seg : PathSegment) : Json S :=
  match current, seg with
  | .object m, .key k => if mode.writes (m k).isSome then .object (update m k (some value))
      else .object m
  | .array a, .index i =>
    if i < a.length then if mode.writes true then .array (a.set i value) else .array a
    else if i = a.length ∧ mode.writes false then .array (a ++ [value])
    else .array a
  | .array a, .append => if mode.writes false then .array (a ++ [value]) else .array a
  | .array a, .fromEnd n =>
    if n = 0 ∨ a.length < n then .array a
    else if mode.writes true then .array (a.set (a.length - n) value)
    else .array a
  | current, _ => current

def erase : Json S → PathSegment → Json S × Bool
  | .object m, .key k => (.object (update m k none), (m k).isSome)
  | .array a, .index i => if i < a.length then (.array (a.eraseIdx i), true) else (.array a, false)
  | .array a, .fromEnd n =>
    if n = 0 ∨ a.length < n then (.array a, false) else (.array (a.eraseIdx (a.length - n)), true)
  | current, _ => (current, false)

end Json

def resolve (root : Json S) : List PathSegment → Option (Json S)
  | [] => some root
  | seg :: rest => (root.child seg).bind (resolve · rest)

/-- `mutate_recursive` and `remove_recursive`, with what they do and answer at the last step, and
their answer where the path ends before it. -/
def descend {α : Type} (missing : α) (leaf : Json S → PathSegment → Json S × α) (current : Json S) :
    List PathSegment → Json S × α
  | [] => (current, missing)
  | [seg] => leaf current seg
  | seg :: rest =>
    match current.child seg with
    | some c =>
      let (c, answer) := descend missing leaf c rest
      (current.setChild seg c, answer)
    | none => (current, missing)

def mutateRecursive (current : Json S) (path : List PathSegment) (value : Json S)
    (mode : MutationMode) : Json S :=
  (descend () (fun current seg => (current.write value mode seg, ())) current path).1

/-- The root is always there. Nothing is ever answered but `Ok`. -/
def mutate (root : Json S) (path : List PathSegment) (value : Json S) (mode : MutationMode) :
    Except PathError (Json S) :=
  if path.isEmpty then .ok (if mode.writes true then value else root)
    else .ok (mutateRecursive root path value mode)

def remove (root : Json S) (path : List PathSegment) : Json S × Bool :=
  descend false Json.erase root path

/-- A member or an index. -/
def PathSegment.IsStep : PathSegment → Prop
  | .key _ | .index _ => True
  | .append | .fromEnd _ => False

variable {j c v w : Json S} {s b : PathSegment} {p q r : List PathSegment}

/-! ### One step -/

section
variable (hs : s.IsStep)
include hs

theorem child_setChild (h : j.child s = some c) : (j.setChild s v).child s = some v := by
  cases j <;> cases s <;> first | cases h | exact False.elim hs | skip
  · next a i =>
    have hi := (List.getElem?_eq_some_iff.1 h).1
    simp [Json.child, Json.setChild, hi]
  · simp [Json.child, Json.setChild]

theorem child_setChild_ne (hb : b.IsStep) (hne : s ≠ b) : (j.setChild s v).child b = j.child b := by
  cases j <;> cases s <;> cases b <;> first | rfl | exact False.elim hs | exact False.elim hb | skip
  · exact getElem?_set_ne fun h => hne (congrArg _ h)
  · exact update_of_ne (fun h => hne (congrArg _ h.symm)) _ _

theorem setChild_child (h : j.child s = some c) : j.setChild s c = j := by
  cases j <;> cases s <;> first | cases h | exact False.elim hs | skip
  · next a i =>
    obtain ⟨hi, rfl⟩ := List.getElem?_eq_some_iff.1 h
    exact congrArg Json.array (set_getElem_self hi)
  · next m k =>
    have h : m k = some c := h
    rw [Json.setChild, ← h, update_eq_self]

/-- Where `json_set` can put a value: at any key of an object, and up to the end of an array. -/
def Json.Takes : Json S → PathSegment → Prop
  | .object _, .key _ => True
  | .array a, .index i => i ≤ a.length
  | _, _ => False

theorem child_write_set : (c.write v .set s).child s = some v ↔ c.Takes s := by
  cases c <;> cases s <;> first | exact False.elim hs |
    simp [Json.child, Json.write, Json.Takes, MutationMode.writes]
  next a i =>
    rcases Nat.lt_trichotomy i a.length with hi | rfl | hi
    · simp [hi, Nat.le_of_lt hi]
    · simp
    · simp [Nat.not_lt_of_gt hi, Nat.ne_of_gt hi, hi]

theorem write_eq_self {mode : MutationMode}
    (h : mode.writes (c.child s).isSome = false ∨ ¬ c.Takes s) : c.write v mode s = c := by
  cases c <;> cases s <;> first | rfl | exact False.elim hs | skip
  · next a i =>
    simp only [Json.child, Json.Takes] at h
    simp only [Json.write]
    grind
  · next m k => simp_all [Json.child, Json.write, Json.Takes]

theorem child_write_ne {mode : MutationMode} (hb : b.IsStep) (hne : s ≠ b) :
    (c.write v mode s).child b = c.child b := by
  cases c <;> cases s <;> cases b <;> first | rfl | exact False.elim hs | exact False.elim hb | skip
  all_goals simp only [Json.write]
  all_goals grind [Json.child]

end

theorem child_erase_key {k : List Char} : (c.erase (.key k)).1.child (.key k) = none := by
  cases c <;> simp [Json.erase, Json.child]

theorem child_erase_index {i : Nat} (h : c.child (.index i) ≠ none) (n : Nat) :
    (c.erase (.index i)).1.child (.index (i + n)) = c.child (.index (i + n + 1)) := by
  cases c with
  | array a =>
    have hi : i < a.length := by simpa [Json.child] using h
    simp only [Json.erase, hi, if_true, Json.child]
    exact getElem?_eraseIdx_of_ge (Nat.le_add_right i n)
  | _ => exact absurd rfl h

theorem child_erase_ne (hs : s.IsStep) (hb : b.IsStep) (hne : s ≠ b)
    (hle : ∀ i k, s = .index i → b = .index k → k ≤ i) :
    (c.erase s).1.child b = c.child b := by
  cases c <;> cases s <;> cases b <;> first | rfl | exact False.elim hs | exact False.elim hb | skip
  · simp only [Json.erase]
    split <;> rfl
  · next a i k =>
    have hne : k ≠ i := fun h => hne (congrArg _ h.symm)
    have hlt : k < i := Nat.lt_of_le_of_ne (hle i k rfl rfl) hne
    simp only [Json.erase]
    split
    · exact getElem?_eraseIdx_of_lt hlt
    · rfl
  · exact update_of_ne (fun h => hne (congrArg _ h.symm)) _ _

/-! ### Down the path -/

def Steps (path : List PathSegment) : Prop := ∀ s ∈ path, s.IsStep

@[simp] theorem resolve_singleton : resolve j [s] = j.child s := Option.bind_fun_some _

theorem resolve_append : resolve j (q ++ r) = (resolve j q).bind (resolve · r) := by
  induction q generalizing j with
  | nil => rfl
  | cons s q ih => simp only [cons_append, resolve, ih, Option.bind_assoc]

section Descend
variable {α : Type} {missing : α} {leaf : Json S → PathSegment → Json S × α}

theorem descend_cons (hr : r ≠ []) : (descend missing leaf j (s :: r)).1 =
    ((j.child s).map fun c => j.setChild s (descend missing leaf c r).1).getD j := by
  obtain ⟨b, r, rfl⟩ := exists_cons_of_ne_nil hr
  cases hd : j.child s <;> simp [descend, hd]

theorem resolve_descend (hq : Steps q) (h : resolve j q = some c) :
    resolve (descend missing leaf j (q ++ [s])).1 q = some (leaf c s).1 := by
  induction q generalizing j with
  | nil =>
    cases h
    rfl
  | cons b q ih =>
    obtain ⟨hb, hq⟩ := forall_mem_cons.1 hq
    obtain ⟨d, hd, h⟩ := Option.bind_eq_some_iff.1 h
    rw [cons_append, descend_cons (by simp), hd, Option.map_some, Option.getD_some, resolve,
      child_setChild hb hd]
    exact ih hq h

theorem descend_eq_self (hq : Steps q) (h : ∀ c, resolve j q = some c → (leaf c s).1 = c) :
    (descend missing leaf j (q ++ [s])).1 = j := by
  induction q generalizing j with
  | nil => exact h j rfl
  | cons b q ih =>
    obtain ⟨hb, hq⟩ := forall_mem_cons.1 hq
    rw [cons_append, descend_cons (by simp)]
    cases hd : j.child b with
    | none => rfl
    | some d =>
      rw [Option.map_some, Option.getD_some, ih hq fun c hc => h c (by rw [resolve, hd]; exact hc)]
      exact setChild_child hb hd

theorem resolve_descend_ne (hp : Steps (q ++ s :: p)) (hr : Steps (q ++ b :: r)) (hne : s ≠ b)
    (hleaf : p = [] → ∀ c : Json S, (leaf c s).1.child b = c.child b) :
    resolve (descend missing leaf j (q ++ s :: p)).1 (q ++ b :: r) = resolve j (q ++ b :: r) := by
  induction q generalizing j with
  | nil =>
    rw [nil_append, nil_append, resolve, resolve]
    cases p with
    | nil => rw [descend, hleaf rfl]
    | cons a p =>
      rw [descend_cons (by simp)]
      cases j.child s with
      | none => rfl
      | some d => rw [Option.map_some, Option.getD_some, child_setChild_ne (hp s (by
          simp)) (hr b (by simp)) hne]
  | cons a q ih =>
    obtain ⟨ha, hp⟩ := forall_mem_cons.1 hp
    rw [cons_append, cons_append, descend_cons (by simp), resolve, resolve]
    cases hd : j.child a with
    | none => rw [Option.map_none, Option.getD_none, hd]
    | some d =>
      rw [Option.map_some, Option.getD_some, child_setChild ha hd]
      exact ih hp (forall_mem_cons.1 hr).2

end Descend

theorem exists_parting {α : Type} : ∀ {p r : List α}, ¬ p <+: r → ¬ r <+: p →
    ∃ q s p' b r', p = q ++ s :: p' ∧ r = q ++ b :: r' ∧ s ≠ b
  | [], r, hp, _ => absurd nil_prefix hp
  | p, [], _, hr => absurd nil_prefix hr
  | s :: p, b :: r, hp, hr => by
    by_cases heq : s = b
    · subst heq
      rw [prefix_cons_inj] at hp hr
      obtain ⟨q, a, p', d, r', rfl, rfl, hne⟩ := exists_parting hp hr
      exact ⟨s :: q, a, p', d, r', rfl, rfl, hne⟩
    · exact ⟨[], s, p, b, r, rfl, rfl, heq⟩

/-- The root, or a place in a container that takes the value. -/
def Writable (doc : Json S) (path : List PathSegment) : Prop :=
  ∀ s ∈ path.getLast?, ∃ c, resolve doc path.dropLast = some c ∧ c.Takes s

section Updates
variable {mode : MutationMode}

theorem mutate_of_ne_nil (hp : p ≠ []) : mutate j p v mode = .ok (mutateRecursive j p v mode) := by
  simp [mutate, hp]

theorem resolve_mutate_set (hp : Steps p) (hm : mutate j p v .set = .ok w) :
    resolve w p = some v ↔ Writable j p := by
  rcases eq_nil_or_concat' p with rfl | ⟨q, s, rfl⟩
  · cases hm
    simp [Writable, resolve, MutationMode.writes]
  · obtain ⟨hq, hs⟩ := forall_mem_append.1 hp
    rw [mutate_of_ne_nil (by simp), Except.ok.injEq] at hm
    subst hm
    rw [resolve_append]
    cases h : resolve j q with
    | none => simp [mutateRecursive, descend_eq_self hq, h, Writable]
    | some c => simp [mutateRecursive, resolve_descend hq h, child_write_set (hs s (by
        simp)), h, Writable]

theorem mutate_skipped (hp : Steps p)
    (hskip : mode.writes (resolve j p).isSome = false ∨ ¬ Writable j p) :
    mutate j p v mode = .ok j := by
  rcases eq_nil_or_concat' p with rfl | ⟨q, s, rfl⟩
  · have hw : mode.writes true = false := by simpa [Writable, resolve] using hskip
    simp [mutate, hw]
  · obtain ⟨hq, hs⟩ := forall_mem_append.1 hp
    rw [mutate_of_ne_nil (by simp), mutateRecursive, descend_eq_self hq]
    intro c hc
    exact write_eq_self (hs s (by simp)) (by simpa [Writable, resolve_append, hc] using hskip)

end Updates

theorem json_path_updates (doc v : Json S) (p : List PathSegment) (hp : Steps p) :
    (∀ mode, ∃ doc', mutate doc p v mode = .ok doc' ∧
      (mode = .set → (resolve doc' p = some v ↔ Writable doc p) ∧ (¬ Writable doc p → doc' = doc)) ∧
      (mode = .insert → resolve doc p ≠ none → doc' = doc) ∧
      (mode = .replace → resolve doc p = none → doc' = doc) ∧
      ∀ r, Steps r → ¬ p <+: r → ¬ r <+: p → resolve doc' r = resolve doc r) ∧
    (∀ q k, p = q ++ [.key k] → resolve doc p ≠ none → resolve (remove doc p).1 p = none) ∧
    (∀ q i, p = q ++ [.index i] → resolve doc p ≠ none → ∀ n r,
      resolve (remove doc p).1 (q ++ .index (i + n) :: r) =
        resolve doc (q ++ .index (i + n + 1) :: r)) ∧
    ∀ r, Steps r → ¬ p <+: r → ¬ r <+: p →
      (∀ q i k t, p = q ++ [.index i] → r = q ++ .index k :: t → k ≤ i) →
      resolve (remove doc p).1 r = resolve doc r := by
  have hparent : ∀ q s, p = q ++ [s] → resolve doc p ≠ none → ∃ c, resolve doc q = some c ∧
      c.child s ≠ none := by
    rintro q s rfl hne
    rw [resolve_append] at hne
    cases h : resolve doc q with
    | none => simp [h] at hne
    | some c => exact ⟨c, rfl, by simpa [h] using hne⟩
  refine ⟨fun mode => ?_, ?_, ?_, ?_⟩
  · obtain ⟨doc', hm⟩ : ∃ doc', mutate doc p v mode = .ok doc' := by
      unfold mutate
      split <;> exact ⟨_, rfl⟩
    have hskip (h : mode.writes (resolve doc p).isSome = false ∨ ¬ Writable doc p) : doc' = doc :=
      Except.ok.inj (hm.symm.trans (mutate_skipped hp h))
    refine ⟨doc', hm, ?_, ?_, ?_, fun r hr hpr hrp => ?_⟩
    · rintro rfl
      exact ⟨resolve_mutate_set hp hm, fun h => hskip (.inr h)⟩
    · rintro rfl h
      exact hskip (.inl (by simp [Option.isSome_iff_ne_none.2 h, MutationMode.writes]))
    · rintro rfl h
      exact hskip (.inl (by rw [h]; rfl))
    · obtain ⟨q, s, p, b, r, rfl, rfl, hne⟩ := exists_parting hpr hrp
      rw [mutate_of_ne_nil (by simp)] at hm
      cases hm
      exact resolve_descend_ne hp hr hne fun _ c => child_write_ne (hp s (by simp))
        (hr b (by simp)) hne
  · rintro q k rfl hne
    obtain ⟨c, hc, -⟩ := hparent q _ rfl hne
    simp [remove, resolve_append, resolve_descend (forall_mem_append.1 hp).1 hc, child_erase_key]
  · rintro q i rfl hne n r
    obtain ⟨c, hc, hne⟩ := hparent q _ rfl hne
    simp [remove, resolve_append, resolve_descend (forall_mem_append.1 hp).1 hc, hc, resolve,
      child_erase_index hne]
  · intro r hr hpr hrp hle
    obtain ⟨q, s, p, b, r, rfl, rfl, hne⟩ := exists_parting hpr hrp
    refine resolve_descend_ne hp hr hne ?_
    rintro rfl c
    exact child_erase_ne (hp s (by simp)) (hr b (by simp)) hne fun i k hi hk =>
      hle q i k r (by rw [hi]) (by rw [hk])

/-- The second element of an array of two is overwritten. -/
theorem json_path_updates_second :
    ∃ doc', mutate (.array [.scalar 1, .scalar 2]) [.index 1] (.scalar 3) .set = .ok doc' ∧
    resolve doc' [.index 1] = some (.scalar 3) := by
  obtain ⟨doc', hm, hset, -⟩ :=
    (json_path_updates (.array [.scalar 1, .scalar 2]) (.scalar 3) [.index 1]
    (by simp [Steps, PathSegment.IsStep])).1 .set
  exact ⟨doc', hm, (hset rfl).1.2 (by simp [Writable, resolve, Json.Takes])⟩

/-- `json_set` at a member of a number: `Ok`, and nothing is there. -/
theorem json_set_skipped : mutate (.scalar 1) [.key ['a']] (.scalar 3) .set = .ok (.scalar 1) ∧
    resolve (.scalar 1) [.key ['a']] = none := ⟨rfl, rfl⟩

end RedlineDb.JsonPath
