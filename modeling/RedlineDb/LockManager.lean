import RedlineDb.Format
import RedlineDb.Lib.Run
import RedlineDb.Lib.Waiters

/-!
# The row lock manager

`RowLockManager` of `engine/lock.rs`. A call of `lock` that finds the row taken makes a condition
variable, appends it to the row's queue and parks; the number of the call stands for its condition
variable. The critical sections of the shard mutex are the steps: `lock` up to its return or its
first wait, `wake` from the return of a wait to the call's return or its next wait, `unlock`. A
parked call may wake at any time, notified or not; `timedOut` is the answer of the wait and
`expired` the test against the deadline.

A call that wakes while the row is free takes the row from any place in the queue, and only at the
front is it removed from the queue (`unlock_notifies_stale_waiter`).
-/

namespace RedlineDb.LockManager
open Lib Function

structure RowKey where
  relId : Nat
  rowId : Nat
deriving DecidableEq

/-- `waiters` is the queue of condition variables, front first. -/
structure RowLockState where
  owner : Option Nat := none
  waiters : List Nat := []
deriving DecidableEq

def RowLockState.dequeue (st : RowLockState) (call : Nat) : RowLockState :=
  { st with waiters := st.waiters.erase call }

def RowLockState.claimed (st : RowLockState) (call : Nat) : RowLockState :=
  if st.waiters.head? = some call then { st with waiters := st.waiters.tail }
  else if call ∈ st.waiters then st
  else { st with waiters := st.waiters ++ [call] }

/-- A call that waits on its condition variable. `notified`: its wake-up is pending. -/
structure Parked where
  key : RowKey
  tx : Nat
  notified : Bool
deriving DecidableEq

inductive Outcome
  | granted | timedOut | waiting
deriving DecidableEq

/-- `rows` are the maps of the shards. `holds` is not in the source: the transactions to which
`lock` returned `Ok` and which have not called `unlock` since. -/
structure RowLockManager where
  rows : RowKey → Option RowLockState
  parked : Nat → Option Parked
  nextCall : Nat
  holds : RowKey → Nat → Bool

inductive Act
  | lock (key : RowKey) (tx : Nat) (expired : Bool)
  | wake (call : Nat) (timedOut expired : Bool)
  | unlock (key : RowKey) (tx : Nat)
deriving DecidableEq

namespace RowLockManager

def new : RowLockManager where
  rows := fun _ => none
  parked := fun _ => none
  nextCall := 0
  holds := fun _ _ => false

variable (m : RowLockManager)

def state (key : RowKey) : RowLockState := (m.rows key).getD {}

def setRow (key : RowKey) (st : RowLockState) : RowLockManager :=
  { m with rows := update m.rows key (some st) }

def removeRow (key : RowKey) : RowLockManager :=
  { m with rows := update m.rows key none }

def setHolds (key : RowKey) (tx : Nat) (b : Bool) : RowLockManager :=
  { m with holds := fun k x => if k = key ∧ x = tx then b else m.holds k x }

def setParked (call : Nat) (p : Option Parked) : RowLockManager :=
  { m with parked := update m.parked call p }

/-- `notify_one` on the condition variable at the front of the queue: the call that waits on it, if
there is one, will wake. -/
def notifyFront : List Nat → RowLockManager
  | [] => m
  | next :: _ => m.setParked next ((m.parked next).map fun p => { p with notified := true })

def dequeueWaiter (key : RowKey) (call : Nat) : RowLockManager :=
  match m.rows key with
  | none => m
  | some st =>
    let st := st.dequeue call
    let m := m.setRow key st
    let m := if st.owner.isNone then m.notifyFront st.waiters else m
    if st.owner.isNone && st.waiters.isEmpty then m.removeRow key else m

def grant (key : RowKey) (tx : Nat) (st : RowLockState) : RowLockManager :=
  (m.setRow key { st with owner := some tx }).setHolds key tx true

def lock (key : RowKey) (tx : Nat) (expired : Bool) : Outcome × RowLockManager :=
  let st := m.state key
  match st.owner with
  | none => (.granted, m.grant key tx st)
  | some owner =>
    if owner = tx then (.granted, m.grant key tx st)
    else
      let call := m.nextCall
      let m := { m with nextCall := call + 1 }.setRow key
        { st with waiters := st.waiters ++ [call] }
      if expired then (.timedOut, m.dequeueWaiter key call)
      else (.waiting, m.setParked call (some ⟨key, tx, false⟩))

def wake (call : Nat) (timedOut expired : Bool) : Except Error (Outcome × RowLockManager) :=
  match m.parked call with
  | none => .error .lockTimeout
  | some p =>
    let m := m.setParked call none
    if timedOut then .ok (.timedOut, m.dequeueWaiter p.key call)
    else
      let st := m.state p.key
      match st.owner with
      | none => .ok (.granted, m.grant p.key p.tx (st.claimed call))
      | some owner =>
        if owner = p.tx then .ok (.granted, m.grant p.key p.tx (st.dequeue call))
        else if expired then .ok (.timedOut, m.dequeueWaiter p.key call)
        else .ok (.waiting, m.setParked call (some { p with notified := false }))

def unlock (key : RowKey) (tx : Nat) : RowLockManager :=
  let m := m.setHolds key tx false
  match m.rows key with
  | none => m
  | some st =>
    let released := st.owner = some tx
    let st := if released then { st with owner := none } else st
    let m := if released then (m.setRow key st).notifyFront st.waiters else m
    if st.owner.isNone && st.waiters.isEmpty then m.removeRow key else m

def step : Act → Except Error RowLockManager
  | .lock key tx expired => .ok (m.lock key tx expired).2
  | .wake call timedOut expired => (m.wake call timedOut expired).map (·.2)
  | .unlock key tx => .ok (m.unlock key tx)

def BlockedOn (key : RowKey) (call : Nat) : Prop :=
  ∃ p, m.parked call = some p ∧ p.key = key

def WakePending (key : RowKey) (call : Nat) : Prop :=
  ∃ p, m.parked call = some p ∧ p.key = key ∧ p.notified = true

structure Orderly (m : RowLockManager) : Prop where
  oneOwner : ∀ key tx tx', m.holds key tx = true → m.holds key tx' = true → tx = tx'
  owner : ∀ key tx, (m.state key).owner = some tx ↔ m.holds key tx = true
  reentrant : ∀ key tx expired, m.holds key tx = true → (m.lock key tx expired).1 = .granted
  queue : ∀ key, (m.state key).waiters.Nodup ∧ ∀ call, call ∈ (m.state key).waiters ↔
    m.BlockedOn key call
  wakeup : ∀ key call, (m.state key).owner = none → m.BlockedOn key call →
    ∃ next ∈ (m.state key).waiters, m.WakePending key next
  claim : ∀ key call expired, (m.state key).owner = none → m.WakePending key call →
    (m.wake call false expired).map (·.1) = .ok .granted

/-- A call that wakes while its row is free is the first of the queue. -/
def InTurn : Act → Prop
  | .wake call false _ =>
    match m.parked call with
    | some p => (m.state p.key).owner = none → (m.state p.key).waiters.head? = some call
    | none => True
  | _ => True

instance (m : RowLockManager) (a : Act) : Decidable (m.InTurn a) := by
  unfold InTurn
  split
  · split <;> infer_instance
  · infer_instance

variable {m} {m' : RowLockManager} {key k : RowKey} {tx call c : Nat} {p : Parked}
    {st : RowLockState} {ws : List Nat}
  {parked : Nat → Option Parked}

structure Inv (m : RowLockManager) : Prop where
  holds : ∀ key x, m.holds key x = true ↔ (m.state key).owner = some x
  queues : Queues Parked.key m.parked m.nextCall fun k => (m.state k).waiters
  front : ∀ key, (m.state key).owner = none → ∀ c, (m.state key).waiters.head? = some c →
    m.WakePending key c

theorem inv_new : Inv new := by
  constructor
  · simp [new, state]
  · exact ⟨fun _ => List.nodup_nil, fun _ _ => by simp [new, state], nofun⟩
  · simp [new, state]

theorem Inv.same_queue (h : Inv m) (key : RowKey) :
    Queues Parked.key m.parked m.nextCall
      (update (fun k => (m.state k).waiters) key (m.state key).waiters) := by
  rw [update_eq_self]
  exact h.queues

theorem state_setRow : (m.setRow key st).state = update m.state key st := by
  funext k
  by_cases hk : k = key
  · simp [state, setRow, hk]
  · simp [state, setRow, hk]

theorem state_removeRow : (m.removeRow key).state = update m.state key {} := by
  funext k
  by_cases hk : k = key
  · simp [state, removeRow, hk]
  · simp [state, removeRow, hk]

@[simp] theorem state_notifyFront : (m.notifyFront ws).state = m.state := by cases ws <;> rfl

/-- A step at the row `key`: what is written there, and that the calls which wait for other rows are
parked as before. -/
structure Wrote (m : RowLockManager) (key : RowKey) (st : RowLockState) (m' : RowLockManager) :
    Prop where
  state : m'.state = update m.state key st
  holds : ∀ k, k ≠ key → m'.holds k = m.holds k
  owner : ∀ x, m'.holds key x = true ↔ st.owner = some x
  queues : Queues Parked.key m'.parked m'.nextCall
    (update (fun k => (m.state k).waiters) key st.waiters)
  parked : ∀ c p, p.key ≠ key → m.parked c = some p → m'.parked c = some p

section
variable (h : Inv m)
include h

theorem Inv.wrote (hw : Wrote m key st m')
    (hfront : st.owner = none → ∀ c, st.waiters.head? = some c → m'.WakePending key c) :
    Inv m' := by
  constructor
  · intro k x
    rw [hw.state]
    by_cases hk : k = key
    · rw [hk, update_self]
      exact hw.owner x
    · rw [update_of_ne hk, hw.holds k hk]
      exact h.holds k x
  · have he : (fun k => (m'.state k).waiters) = update (fun k => (m.state k).waiters) key
        st.waiters :=
      hw.state ▸ comp_update RowLockState.waiters m.state key st
    rw [he]
    exact hw.queues
  · intro k ho c hc
    rw [hw.state] at ho hc
    by_cases hk : k = key
    · rw [hk, update_self] at ho hc
      exact hk ▸ hfront ho c hc
    · rw [update_of_ne hk] at ho hc
      obtain ⟨p, hp, rfl, hn⟩ := h.front k ho c hc
      exact ⟨p, hw.parked c p hk hp, rfl, hn⟩

theorem Inv.notify (hw : Wrote m key st m') :
    Inv (if st.owner.isNone then m'.notifyFront st.waiters else m') := by
  split
  · cases hq : st.waiters with
    | nil => exact h.wrote hw fun _ c hc => by simp [hq] at hc
    | cons next rest =>
      obtain ⟨p, hp, hk⟩ := (hw.queues.mem key next).1 (by simp [hq])
      refine h.wrote { hw with
        queues := hw.queues.note fun _ => rfl, parked := fun c q hc hq' => ?_ } fun _ c hc => ?_
      · have hne : c ≠ next := by
          rintro rfl
          rw [hw.parked c q hc hq'] at hp
          cases hp
          exact hc hk
        simpa [notifyFront, setParked, hne] using hw.parked c q hc hq'
      · cases (congrArg List.head? hq).symm.trans hc
        exact ⟨{ p with notified := true }, by simp [notifyFront, setParked, hp], hk, rfl⟩
  · next ho => exact h.wrote hw fun h => absurd (by simp [h]) ho

theorem Inv.cleanup (st : RowLockState) (hst : m.state key = st) :
    Inv (if st.owner.isNone && st.waiters.isEmpty then m.removeRow key else m) := by
  split
  · next hd =>
    obtain ⟨owner, waiters⟩ := st
    obtain ⟨rfl, rfl⟩ : owner = none ∧ waiters = [] := by simpa using hd
    have hs : (m.removeRow key).state = m.state := by rw [state_removeRow, ← hst, update_eq_self]
    exact ⟨hs ▸ h.holds, hs ▸ h.queues, hs ▸ h.front⟩
  · exact h

theorem Inv.dequeue (hr : m'.rows key = some st)
    (hw : Wrote m key (st.dequeue call) (m'.setRow key (st.dequeue call))) :
    Inv (m'.dequeueWaiter key call) := by
  simp only [dequeueWaiter, hr]
  refine (h.notify hw).cleanup _ ?_
  split <;> simp [state_setRow]

omit h in
theorem parked_update (hp : m.parked call = some p) (q : Option Parked) (c : Nat) (p' : Parked)
    (hk : p'.key ≠ p.key)
    (hp' : m.parked c = some p') : update m.parked call q c = some p' := by
  rw [update_of_ne, hp']
  rintro rfl
  cases hp.symm.trans hp'
  exact hk rfl

theorem Inv.giveUp (hp : m.parked call = some p) :
    Inv ((m.setParked call none).dequeueWaiter p.key call) := by
  have hmem := (h.queues.mem p.key call).2 ⟨p, hp, rfl⟩
  cases hr : m.rows p.key with
  | none => simp [state, hr] at hmem
  | some st =>
    have hst : m.state p.key = st := by simp [state, hr]
    subst hst
    exact h.dequeue hr ⟨state_setRow, fun _ _ => rfl, h.holds p.key, h.queues.leave hp,
      parked_update hp none⟩

theorem Inv.expire :
    Inv (({ m with nextCall := m.nextCall + 1 }.setRow key
      { m.state key with waiters := (m.state key).waiters ++ [m.nextCall] }).dequeueWaiter key
        m.nextCall) := by
  have hnew : m.nextCall ∉ (m.state key).waiters := by simp [h.queues.mem key, h.queues.not_parked]
  refine h.dequeue (update_self ..) ⟨?_, fun _ _ => rfl, h.holds key, ?_, fun _ _ _ => id⟩
  · rw [state_setRow, state_setRow, update_idem]
    rfl
  · rw [RowLockState.dequeue, List.erase_append_right _ hnew]
    simpa using { h.queues with lt := fun c p hp => Nat.lt_succ_of_lt (h.queues.lt c p hp) }

theorem Inv.enqueue (ho : (m.state key).owner ≠ none) :
    Inv (({ m with nextCall := m.nextCall + 1 }.setRow key
      { m.state key with waiters := (m.state key).waiters ++ [m.nextCall] }).setParked m.nextCall
        (some ⟨key, tx, false⟩)) := by
  refine h.wrote ⟨state_setRow, fun _ _ => rfl, h.holds key, h.queues.join ⟨key, tx, false⟩,
    fun c p _ hp => ?_⟩
    fun hfree => absurd hfree ho
  exact (update_of_ne (Nat.ne_of_lt (h.queues.lt c p hp)) ..).trans hp

theorem Inv.waitAgain (hp : m.parked call = some p) (ho : (m.state p.key).owner ≠ none) :
    Inv (m.setParked call (some { p with notified := false })) := by
  have hnote : Queues Parked.key
      (update m.parked call ((m.parked call).map fun p => { p with notified := false }))
      m.nextCall fun k => (m.state k).waiters := h.queues.note fun _ => rfl
  rw [hp] at hnote
  refine h.wrote ⟨(update_eq_self p.key m.state).symm, fun _ _ => rfl, h.holds p.key, ?_,
    parked_update hp _⟩
    fun hfree => absurd hfree ho
  rw [update_eq_self]
  exact hnote

theorem Inv.unlock : Inv (m.unlock key tx) := by
  have hother : ∀ k, k ≠ key → (m.setHolds key tx false).holds k = m.holds k :=
    fun k hk => funext fun _ => if_neg fun h => hk h.1
  have hh : ∀ x, (m.setHolds key tx false).holds key x = true ↔ x ≠ tx ∧
      (m.state key).owner = some x := by
    intro x
    rw [← h.holds]
    by_cases hx : x = tx <;> simp [setHolds, hx]
  -- another transaction's row, or nobody's
  have hsame : (m.state key).owner ≠ some tx → Inv (m.setHolds key tx false) := fun ho =>
    h.wrote ⟨(update_eq_self ..).symm, hother,
      fun x => (hh x).trans ⟨And.right, fun hx => ⟨fun he => ho (he ▸ hx), hx⟩⟩, h.same_queue key,
        fun _ _ _ => id⟩
      (h.front key)
  simp only [RowLockManager.unlock, show (m.setHolds key tx false).rows = m.rows from rfl]
  cases hr : m.rows key with
  | none => exact hsame (by simp [state, hr])
  | some st =>
    have hst : m.state key = st := by simp [state, hr]
    by_cases ho : st.owner = some tx
    · have hw : Wrote m key { st with owner := none }
          ((m.setHolds key tx false).setRow key { st with owner := none }) :=
        ⟨state_setRow, hother, fun x => (hh x).trans (by simp [hst, ho, eq_comm]),
          hst ▸ h.same_queue key, fun _ _ _ => id⟩
      simp only [ho, if_true]
      refine (h.notify hw).cleanup { st with owner := none } ?_
      simp [state_setRow]
    · simp only [ho, if_false]
      exact (hsame (hst ▸ ho)).cleanup st hst

theorem Inv.grant (hfree : (m.state key).owner = none ∨ (m.state key).owner = some tx)
    (hq : Queues Parked.key parked m.nextCall (update (fun k => (m.state k).waiters) key ws))
    (hp : ∀ c p, p.key ≠ key → m.parked c = some p → parked c = some p) :
    Inv ({ m with parked }.grant key tx { m.state key with waiters := ws }) := by
  refine h.wrote ⟨state_setRow, fun k hk => ?_, fun x => ?_, hq, hp⟩ nofun
  · exact funext fun _ => if_neg fun h => hk h.1
  · by_cases hx : x = tx
    · simp [RowLockManager.grant, setHolds, hx]
    · have hno : m.holds key x ≠ true := by
        rw [Ne, h.holds]
        rcases hfree with ho | ho <;> simp [ho, Ne.symm hx]
      simpa [RowLockManager.grant, setHolds, setRow, hx, Ne.symm hx] using hno

theorem Inv.step {a : Act} (hturn : m.InTurn a) (hstep : m.step a = .ok m') : Inv m' := by
  cases a with
  | lock key tx expired =>
    simp only [RowLockManager.step, Except.ok.injEq] at hstep
    subst hstep
    unfold lock
    rcases ho : (m.state key).owner with _ | owner
    · simp only [ho]
      exact h.grant (.inl ho) (h.same_queue _) fun _ _ _ => id
    · simp only [ho]
      by_cases hown : owner = tx
      · rw [if_pos hown]
        exact h.grant (.inr (by rw [ho, hown])) (h.same_queue _) fun _ _ _ => id
      · rw [if_neg hown]
        cases expired with
        | true => exact ho ▸ h.expire
        | false => exact ho ▸ h.enqueue (by simp [ho])
  | wake call timedOut expired =>
    simp only [RowLockManager.step, wake] at hstep
    rcases hp : m.parked call with _ | p
    · simp [hp, Except.map] at hstep
    · have hst : (m.setParked call none).state p.key = m.state p.key := rfl
      simp only [hp, hst] at hstep
      cases timedOut with
      | true =>
        simp only [if_true, Except.map, Except.ok.injEq] at hstep
        rw [← hstep]
        exact h.giveUp hp
      | false =>
        simp only [Bool.false_eq_true, if_false] at hstep
        rcases ho : (m.state p.key).owner with _ | owner
        · simp only [ho, Except.map, Except.ok.injEq] at hstep
          rw [← hstep]
          have hhead : (m.state p.key).waiters.head? = some call := by
            simp only [InTurn, hp] at hturn
            exact hturn ho
          have hclaimed : (m.state p.key).claimed call = (m.state p.key).dequeue call := by
            rw [RowLockState.claimed, if_pos hhead, RowLockState.dequeue]
            cases hw : (m.state p.key).waiters with
            | nil => simp [hw] at hhead
            | cons next rest =>
              simp only [hw, List.head?_cons, Option.some.injEq] at hhead
              simp [hhead]
          rw [hclaimed]
          exact h.grant (.inl ho) (h.queues.leave hp) (parked_update hp none)
        · simp only [ho] at hstep
          by_cases hown : owner = p.tx
          · simp only [hown, if_true, Except.map, Except.ok.injEq] at hstep
            rw [← hstep]
            exact h.grant (.inr (by rw [ho, hown])) (h.queues.leave hp) (parked_update hp none)
          · cases expired with
            | true =>
              simp only [hown, if_false, if_true, Except.map, Except.ok.injEq] at hstep
              rw [← hstep]
              exact h.giveUp hp
            | false =>
              simp only [hown, if_false, Bool.false_eq_true, Except.map, Except.ok.injEq] at hstep
              rw [← hstep]
              have hagain := h.waitAgain hp (by simp [ho])
              simpa [setParked] using hagain
  | unlock key tx =>
    simp only [RowLockManager.step, Except.ok.injEq] at hstep
    rw [← hstep]
    exact h.unlock

theorem Inv.orderly : Orderly m where
  oneOwner key tx tx' ht ht' := by
    rw [h.holds] at ht ht'
    exact Option.some.inj (ht.symm.trans ht')
  owner key tx := (h.holds key tx).symm
  reentrant key tx expired ht := by
    rw [h.holds] at ht
    simp [lock, ht]
  queue key := ⟨h.queues.nodup key, h.queues.mem key⟩
  wakeup key call hfree hb := by
    cases hw : (m.state key).waiters with
    | nil => simpa [hw] using (h.queues.mem key call).2 hb
    | cons next rest => exact ⟨next, by simp, h.front key hfree next (by simp [hw])⟩
  claim key call expired hfree hpending := by
    obtain ⟨p, hp, rfl, -⟩ := hpending
    have ho : ((m.setParked call none).state p.key).owner = none := hfree
    simp [wake, hp, ho, Except.map]

end

/-- In every run whose calls take a free row in turn, at most one transaction holds a row, its owner
may lock it again, the queue of a row names exactly the calls that wait for it, and a free row that
is waited for has a waiter that is going to wake and will then take it. -/
theorem lock_manager_orderly {acts : List Act} (hrun : Run step InTurn new acts m) : Orderly m := by
  have hinv : Inv m := hrun.invariant (I := fun _ m => Inv m) inv_new
    fun _ _ _ _ h hturn hstep => h.step hturn hstep
  exact hinv.orderly

/-! ### A stale place in the queue -/

def contested : RowKey := ⟨1, 1⟩

def waiting : List Act :=
  [.lock contested 1 false, .lock contested 2 false, .lock contested 3 false]

def inTurnTrace : List Act :=
  waiting ++ [.wake 1 false false, .unlock contested 1, .wake 0 false false, .unlock contested 2,
    .wake 1 false false]

def spuriousTrace : List Act :=
  waiting ++ [.unlock contested 1, .wake 1 false false, .wake 0 false false, .unlock contested 3,
    .wake 0 false false, .lock contested 4 false, .unlock contested 2]

/-- The last `unlock` notifies the condition variable of call 1, on which nobody waits any more. The
row is free, transaction 4 waits for it, and no call of the queue is going to wake. -/
theorem unlock_notifies_stale_waiter : ∃ m, Run step (fun _ _ => True) new spuriousTrace m ∧
    (1 ∈ (m.state contested).waiters ∧ m.parked 1 = none) ∧
    (m.state contested).owner = none ∧ m.parked 2 = some ⟨contested, 4, false⟩ ∧
    (∀ call ∈ (m.state contested).waiters, ¬ m.WakePending contested call) ∧ ¬ m.Orderly := by
  obtain ⟨m, hrun, hst, h1, h2⟩ : ∃ m, Run step (fun _ _ => True) new spuriousTrace m ∧
      m.state contested = ⟨none, [1, 2]⟩ ∧ m.parked 1 = none ∧
        m.parked 2 = some ⟨contested, 4, false⟩ := by decide
  refine ⟨m, hrun, ⟨by simp [hst], h1⟩, by rw [hst], h2, ?_, ?_⟩
  · intro call hc
    simp only [hst, List.mem_cons, List.not_mem_nil, or_false] at hc
    rcases hc with rfl | rfl
    · simp [WakePending, h1]
    · simp [WakePending, h2]
  · intro horderly
    have hb := ((horderly.queue contested).2 1).1 (by simp [hst])
    simp [BlockedOn, h1] at hb

theorem lock_manager_orderly_inTurn : ∃ m, Run step InTurn new inTurnTrace m ∧
    m.holds contested 3 = true ∧
    m.Orderly := by
  obtain ⟨m, hrun, hm⟩ : ∃ m, Run step InTurn new inTurnTrace m ∧
      m.holds contested 3 = true := by decide
  exact ⟨m, hrun, hm, lock_manager_orderly hrun⟩

end RowLockManager
end RedlineDb.LockManager
