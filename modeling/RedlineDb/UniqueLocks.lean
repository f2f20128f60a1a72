import RedlineDb.Format
import RedlineDb.Lib.Run
import RedlineDb.Lib.Waiters

/-!
# Locks on unique keys

`UniqueKeyLockTable` of `index/locks.rs`. A call that finds its key taken parks on a condition
variable of its own at the end of the key's queue; the number of the call stands for the variable.
The owner may lock its key again, and each success gives a guard. The critical sections of the shard
mutex are the steps: `lock` up to its return or first wait, `wake` from the end of a wait to the
return or the next wait, and the drop of a guard.

Calls wake as with row locks. An entry is dropped from the map when it is the default one, so the
map is a function.
-/

namespace RedlineDb.UniqueLocks
open Lib Function

structure UniqueKeyLockState where
  owner : Option Nat := none
  depth : Nat := 0
  waiters : List Nat := []
deriving DecidableEq

/-- A call that waits on its condition variable. `notified`: its wake-up is pending. -/
structure Parked where
  key : Bytes
  owner : Nat
  notified : Bool
deriving DecidableEq

/-- `guards` is not in the source: how many guards of a key an owner has. -/
structure UniqueKeyLockTable where
  keys : Bytes → UniqueKeyLockState
  parked : Nat → Option Parked
  nextCall : Nat
  guards : Bytes → Nat → Nat

inductive Act
  | lock (key : Bytes) (owner : Nat)
  | wake (call : Nat)
  | drop (key : Bytes) (owner : Nat)

namespace UniqueKeyLockTable

def new : UniqueKeyLockTable where
  keys := fun _ => {}
  parked := fun _ => none
  nextCall := 0
  guards := fun _ _ => 0

variable (m : UniqueKeyLockTable)

def setKey (key : Bytes) (st : UniqueKeyLockState) : UniqueKeyLockTable :=
  { m with keys := update m.keys key st }

def setParked (call : Nat) (p : Option Parked) : UniqueKeyLockTable :=
  { m with parked := update m.parked call p }

def setGuards (key : Bytes) (owner n : Nat) : UniqueKeyLockTable :=
  { m with guards := update m.guards key (update (m.guards key) owner n) }

def grant (key : Bytes) (owner : Nat) (st : UniqueKeyLockState) : UniqueKeyLockTable :=
  (m.setKey key { st with owner := some owner }).setGuards key owner (m.guards key owner + 1)

def lock (key : Bytes) (owner : Nat) : UniqueKeyLockTable :=
  let st := m.keys key
  match st.owner with
  | none => m.grant key owner { st with depth := 1 }
  | some current =>
    if current = owner then m.grant key owner { st with depth := st.depth + 1 }
    else
      ({ m with nextCall := m.nextCall + 1 }.setKey key
        { st with waiters := st.waiters ++ [m.nextCall] }).setParked
        m.nextCall (some ⟨key, owner, false⟩)

def wake (call : Nat) : Except Error UniqueKeyLockTable :=
  match m.parked call with
  | none => .error .lockTimeout
  | some p =>
    let st := m.keys p.key
    match st.owner with
    | none =>
      if st.waiters.head? = some call then
        .ok ((m.setParked call none).grant p.key p.owner
          { st with depth := 1, waiters := st.waiters.tail })
      else if call ∈ st.waiters then
        .ok ((m.setParked call none).grant p.key p.owner { st with depth := 1 })
      else
        .ok ((m.setKey p.key { st with waiters := st.waiters ++ [call] }).setParked call
          (some { p with notified := false }))
    | some current =>
      if current = p.owner then
        .ok ((m.setParked call none).grant p.key p.owner
          { st with depth := st.depth + 1, waiters := st.waiters.erase call })
      else .ok (m.setParked call (some { p with notified := false }))

/-- `notify_one` on the condition variable at the front of the queue. -/
def notifyFront : List Nat → UniqueKeyLockTable
  | [] => m
  | next :: _ => m.setParked next ((m.parked next).map fun p => { p with notified := true })

def unlock (key : Bytes) (owner : Nat) : UniqueKeyLockTable :=
  let st := m.keys key
  let m := m.setGuards key owner (m.guards key owner - 1)
  if st.owner = some owner then
    if st.depth - 1 = 0 then (m.setKey key { st with owner := none, depth := 0 }).notifyFront
      st.waiters
    else m.setKey key { st with depth := st.depth - 1 }
  else m

def step : Act → Except Error UniqueKeyLockTable
  | .lock key owner => .ok (m.lock key owner)
  | .wake call => m.wake call
  | .drop key owner => do
    require (0 < m.guards key owner) .lockTimeout
    return m.unlock key owner

def BlockedOn (key : Bytes) (call : Nat) : Prop := ∃ p, m.parked call = some p ∧ p.key = key

structure Orderly (m : UniqueKeyLockTable) : Prop where
  oneOwner : ∀ key owner, 0 < m.guards key owner → (m.keys key).owner = some owner
  depth : ∀ key owner, (m.keys key).owner = some owner → (m.keys key).depth = m.guards key owner
  queue : ∀ key, ∀ call ∈ (m.keys key).waiters, m.BlockedOn key call
  /-- When the drop of a guard frees the key, a call that is still parked is notified. -/
  handoff : ∀ key owner, 0 < m.guards key owner → ((m.unlock key owner).keys key).owner = none →
    (m.keys key).waiters ≠ [] → ∃ call p, (m.unlock key owner).parked call = some p ∧ p.key = key ∧
    p.notified = true

/-- A call that wakes while its key is free is the first of the queue. -/
def InTurn : Act → Prop
  | .wake call => ∀ p ∈ m.parked call, (m.keys p.key).owner = none →
      (m.keys p.key).waiters.head? = some call
  | _ => True

instance (m : UniqueKeyLockTable) (a : Act) : Decidable (m.InTurn a) :=
  match a with
  | .wake call => inferInstanceAs (Decidable (∀ p ∈ m.parked call, _))
  | .lock .. | .drop .. => inferInstanceAs (Decidable True)

variable {m} {m' : UniqueKeyLockTable} {key : Bytes} {owner call o : Nat} {p : Parked}
    {st : UniqueKeyLockState}
  {guards : Nat → Nat}

def Held (st : UniqueKeyLockState) (guards : Nat → Nat) : Prop :=
  ∀ o, guards o = if st.owner = some o then st.depth else 0

theorem Held.grant (h : Held st guards) (hfree : st.owner = none ∨ st.owner = some o)
    (waiters : List Nat) :
    Held ⟨some o, guards o + 1, waiters⟩ (update guards o (guards o + 1)) := by
  intro o'
  by_cases ho : o' = o
  · simp [ho]
  · have hother : st.owner ≠ some o' := by
      rcases hfree with hf | hf <;> simp [hf, Ne.symm ho]
    rw [update_of_ne ho, h o', if_neg hother]
    exact (if_neg fun hc => ho (Option.some.inj hc).symm).symm

theorem Held.drop (h : Held st guards) (ho : st.owner = some o) :
    Held (if st.depth - 1 = 0 then { st with owner := none, depth := 0 }
      else { st with depth := st.depth - 1 })
      (update guards o (guards o - 1)) := by
  have hguards : guards o = st.depth := by rw [h, if_pos ho]
  have hother : ∀ o', o' ≠ o → guards o' = 0 := by
    intro o' hne
    rw [h, ho, if_neg fun hc => hne (Option.some.inj hc).symm]
  intro o'
  split
  · next hd =>
    by_cases hne : o' = o
    · simpa [hne, hguards] using hd
    · simp [update_of_ne hne, hother o' hne]
  · by_cases hne : o' = o
    · simp [hne, hguards, ho]
    · simp [update_of_ne hne, hother o' hne, ho, Ne.symm hne]

structure Inv (m : UniqueKeyLockTable) : Prop where
  held : ∀ key, Held (m.keys key) (m.guards key)
  queues : Queues Parked.key m.parked m.nextCall fun k => (m.keys k).waiters

theorem inv_new : Inv new := by
  refine ⟨fun key o => ?_, ⟨fun _ => List.nodup_nil, fun key c => ?_, nofun⟩⟩
  · simp [new]
  · simp [new]

section
variable (h : Inv m)
include h

theorem Inv.write (hkeys : m'.keys = update m.keys key st)
    (hguards : m'.guards = update m.guards key guards)
    (hheld : Held st guards)
    (hq : Queues Parked.key m'.parked m'.nextCall
      (update (fun k => (m.keys k).waiters) key st.waiters)) : Inv m' := by
  constructor
  · intro k
    rw [hkeys, hguards]
    by_cases hk : k = key
    · rw [hk, update_self, update_self]
      exact hheld
    · rw [update_of_ne hk, update_of_ne hk]
      exact h.held k
  · have hw : (fun k => (m'.keys k).waiters) = update (fun k => (m.keys k).waiters) key
        st.waiters :=
      hkeys ▸ comp_update UniqueKeyLockState.waiters m.keys key st
    rw [hw]
    exact hq

theorem Inv.grant {d : Nat} (hfree : (m.keys key).owner = none ∨ (m.keys key).owner = some owner)
    (hd : d = m.guards key owner + 1) : Inv (m.grant key owner { m.keys key with depth := d }) := by
  subst hd
  refine h.write rfl rfl ((h.held key).grant hfree _) ?_
  rw [update_eq_self]
  exact h.queues

theorem Inv.claim (hp : m.parked call = some p) {d : Nat}
    (hfree : (m.keys p.key).owner = none ∨ (m.keys p.key).owner = some p.owner)
    (hd : d = m.guards p.key p.owner + 1) :
    Inv ((m.setParked call none).grant p.key p.owner
      { m.keys p.key with depth := d, waiters := (m.keys p.key).waiters.erase call }) := by
  subst hd
  exact h.write rfl rfl ((h.held p.key).grant hfree _) (h.queues.leave hp)

theorem Inv.note {f : Parked → Parked} (hf : ∀ p, (f p).key = p.key) :
    Inv (m.setParked call ((m.parked call).map f)) :=
  ⟨h.held, h.queues.note hf⟩

theorem Inv.notifyFront (l : List Nat) : Inv (m.notifyFront l) := by
  cases l with
  | nil => exact h
  | cons next rest => exact h.note fun _ => rfl

theorem Inv.unlock : Inv (m.unlock key owner) := by
  have hset : ∀ {st}, Held st (update (m.guards key) owner (m.guards key owner - 1)) →
      st.waiters = (m.keys key).waiters →
        Inv ((m.setGuards key owner (m.guards key owner - 1)).setKey key st) := by
    intro st hst hw
    refine h.write rfl rfl hst ?_
    rw [hw, update_eq_self]
    exact h.queues
  unfold UniqueKeyLockTable.unlock
  dsimp only
  by_cases ho : (m.keys key).owner = some owner
  · have hkey := (h.held key).drop ho
    rw [if_pos ho]
    split
    · next hd =>
      rw [if_pos hd] at hkey
      exact (hset hkey rfl).notifyFront _
    · next hd =>
      rw [if_neg hd] at hkey
      exact hset hkey rfl
  · -- nobody drops a guard of a key that is another's
    have hzero : m.guards key owner = 0 := by rw [h.held, if_neg ho]
    have hsame : m.setGuards key owner (m.guards key owner - 1) = m := by
      rw [setGuards, show m.guards key owner - 1 = m.guards key owner by omega, update_eq_self,
        update_eq_self]
    rw [if_neg ho, hsame]
    exact h

theorem Inv.step {a : Act} (hturn : m.InTurn a) (hstep : m.step a = .ok m') : Inv m' := by
  cases a with
  | lock key owner =>
    cases hstep
    unfold lock
    have hheld := h.held key owner
    dsimp only
    split
    · next ho =>
      rw [ho, if_neg (by simp)] at hheld
      exact h.grant (.inl ho) (by rw [hheld])
    · next current ho =>
      split
      · next hc =>
        rw [ho, hc, if_pos rfl] at hheld
        exact h.grant (.inr (by rw [ho, hc])) (by rw [hheld])
      · exact h.write rfl (update_eq_self ..).symm (h.held key) (h.queues.join ⟨key, owner, false⟩)
  | wake call =>
    simp only [UniqueKeyLockTable.step, wake] at hstep
    cases hp : m.parked call with
    | none =>
      rw [hp] at hstep
      cases hstep
    | some p =>
      have hheld := h.held p.key p.owner
      rw [hp] at hstep
      dsimp only at hstep
      split at hstep
      · next ho =>
        have hhead := hturn p hp ho
        have herase : (m.keys p.key).waiters.tail = (m.keys p.key).waiters.erase call := by
          obtain ⟨rest, hw⟩ := List.head?_eq_some_iff.1 hhead
          simp [hw]
        rw [ho, if_neg (by simp)] at hheld
        rw [if_pos hhead, herase] at hstep
        cases hstep
        exact h.claim hp (.inl ho) (by rw [hheld])
      · next current ho =>
        split at hstep
        · next hc =>
          rw [ho, hc, if_pos rfl] at hheld
          cases hstep
          exact h.claim hp (.inr (by rw [ho, hc])) (by rw [hheld])
        · cases hstep
          have hnote : Inv
              (m.setParked call ((m.parked call).map fun p => { p with notified := false })) :=
            h.note fun _ => rfl
          rwa [hp] at hnote
  | drop key owner =>
    obtain ⟨-, rfl⟩ := guarded_eq_ok.1 hstep
    exact h.unlock

theorem Inv.owner_of_guards (hpos : 0 < m.guards key owner) : (m.keys key).owner = some owner := by
  by_contra ho
  rw [h.held, if_neg ho] at hpos
  exact Nat.lt_irrefl _ hpos

theorem Inv.orderly : Orderly m where
  oneOwner _ _ hpos := h.owner_of_guards hpos
  depth key owner ho := by rw [h.held, if_pos ho]
  queue key call hc := (h.queues.mem key call).1 hc
  handoff key owner hpos hfree hne := by
    have ho := h.owner_of_guards hpos
    obtain ⟨next, rest, hw⟩ := List.exists_cons_of_ne_nil hne
    obtain ⟨p, hp, hk⟩ := (h.queues.mem key next).1 (by simp [hw])
    by_cases hd : (m.keys key).depth - 1 = 0
    · refine ⟨next, { p with notified := true }, ?_, hk, rfl⟩
      simp [UniqueKeyLockTable.unlock, ho, hd, hw, UniqueKeyLockTable.notifyFront, setParked,
        setKey, setGuards, hp]
    · simp [UniqueKeyLockTable.unlock, ho, hd, setKey] at hfree

end

/-- In every run whose calls take a free key in turn, a key has one owner, as many guards as its
depth says, a queue of calls that are still parked, and one of them is notified when the key becomes
free. -/
theorem unique_locks_orderly {acts : List Act} (hrun : Run step InTurn new acts m) : Orderly m :=
  (hrun.invariant (I := fun _ m => Inv m) inv_new fun _ _ _ _ h hturn hstep =>
    h.step hturn hstep).orderly

/-! ### A stale place in the queue -/

def contested : Bytes := [1]

def waiting : List Act :=
  [.lock contested 1, .lock contested 1, .lock contested 2, .lock contested 3, .drop contested 1]

def inTurnTrace : List Act :=
  waiting ++ [.wake 1, .drop contested 1, .wake 0, .drop contested 2, .wake 1]

theorem unique_locks_orderly_inTurn : ∃ m, Run step InTurn new inTurnTrace m ∧
    m.guards contested 3 = 1 ∧ m.Orderly := by
  obtain ⟨m, hrun, hm⟩ : ∃ m, Run step InTurn new inTurnTrace m ∧ m.guards contested 3 = 1 := by
    decide +kernel
  exact ⟨m, hrun, hm, unique_locks_orderly hrun⟩

def spuriousTrace : List Act :=
  waiting ++ [.drop contested 1, .wake 1, .wake 0, .drop contested 3, .wake 0, .lock contested 4,
    .drop contested 2]

/-- The last drop notifies the condition variable of call 1, on which nobody waits any more; the key
is free and the call of owner 4 is not going to wake. -/
theorem drop_notifies_stale_waiter : ∃ m, Run step (fun _ _ => True) new spuriousTrace m ∧
    m.keys contested = ⟨none, 0, [1, 2]⟩ ∧ m.parked 1 = none ∧
      m.parked 2 = some ⟨contested, 4, false⟩ ∧ ¬ m.Orderly := by
  obtain ⟨m, hrun, hst, h1, h2⟩ : ∃ m, Run step (fun _ _ => True) new spuriousTrace m ∧
      m.keys contested = ⟨none, 0, [1, 2]⟩ ∧ m.parked 1 = none ∧
        m.parked 2 = some ⟨contested, 4, false⟩ := by
    decide +kernel
  refine ⟨m, hrun, hst, h1, h2, fun horderly => ?_⟩
  obtain ⟨p, hp, -⟩ := horderly.queue contested 1 (by simp [hst])
  rw [h1] at hp
  cases hp

end UniqueKeyLockTable
end RedlineDb.UniqueLocks
