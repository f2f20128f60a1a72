import Mathlib.Order.Bounds.Basic
import RedlineDb.Storage
import RedlineDb.Tx

/-!
# Calls on the CSN frontier, interleaved

`reserve_commit_csn`, `publish_commit` and `cancel_reserved_csn` are not atomic: a CSN is drawn from
the counter before the frontier's mutex is taken, the state of a transaction is set before its CSN
is completed, and the advance loop stores the published CSN once a round while snapshots read it
without the mutex. The machine takes these steps one by one, for any number of transactions.
-/

namespace RedlineDb
open Lib ConcurrentTxStatus
namespace ConcurrentTxStatus

/-- One round of `advance_published_csn`; none when the loop ends. -/
def advanceOnce (t : ConcurrentTxStatus) : Option ConcurrentTxStatus :=
  let next := t.publishedCsn + 1
  if next ∈ t.completed then
    some { t with completed := t.completed.erase next, publishedCsn := next }
  else if next ∈ t.skipped then
    some { t with skipped := t.skipped.erase next, publishedCsn := next }
  else none

variable {t t' : ConcurrentTxStatus}

theorem advanceOnce_eq_some (h : t.advanceOnce = some t') :
    t'.states = t.states ∧ t'.nextTx = t.nextTx ∧ t'.nextCsn = t.nextCsn ∧
      t'.publishedCsn = t.publishedCsn + 1 ∧
      t'.activeSnapshots = t.activeSnapshots ∧
        (t.publishedCsn + 1 ∈ t.completed ∨ t.publishedCsn + 1 ∈ t.skipped) ∧
      ∀ c, c ≠ t.publishedCsn + 1 →
        (c ∈ t'.completed ∨ c ∈ t'.skipped ↔ c ∈ t.completed ∨ c ∈ t.skipped) := by
  unfold advanceOnce at h
  dsimp only at h
  split at h
  · next hmem =>
    cases h
    exact ⟨rfl, rfl, rfl, rfl, rfl, .inl hmem, fun c hc => by simp [List.mem_erase_of_ne hc]⟩
  · split at h
    · next hmem =>
      cases h
      exact ⟨rfl, rfl, rfl, rfl, rfl, .inr hmem, fun c hc => by simp [List.mem_erase_of_ne hc]⟩
    · cases h

theorem isTxVisible_congr {tx : Nat} (h : t'.state tx = t.state tx) (sn : Snapshot)
    (owner : Option Nat) : t'.isTxVisible tx sn owner = t.isTxVisible tx sn owner := by
  unfold isTxVisible
  rw [h]

theorem isTxVisible_eq_false {t : ConcurrentTxStatus} {tx : Nat} {sn : Snapshot}
    {owner : Option Nat}
    (ho : some tx ≠ owner) (h : ∀ c, t.state tx = .committed c → sn.visibleCsn < c) :
    t.isTxVisible tx sn owner = false := by
  unfold isTxVisible
  rw [if_neg ho]
  split
  · next c hc => exact decide_eq_false (not_le.2 (h c hc))
  · rfl
  · rfl

end ConcurrentTxStatus

/-- Where a transaction stands. `drawn` is inside `reserve_commit_csn`, after the counter and before
the mutex; `stated` inside `publish_commit`, before the mutex; `publishing` and `cancelling` hold
it. -/
inductive CsnCall
  | fresh
  | active
  | drawn (csn : Nat)
  | reserved (csn : Nat)
  | stated (csn : Nat)
  | publishing
  | cancelling
  | published
  | cancelled
  | closed
deriving DecidableEq

def CsnCall.csn? : CsnCall → Option Nat
  | drawn csn | reserved csn | stated csn => some csn
  | _ => none

def CsnCall.uncommitted : CsnCall → Bool
  | fresh | active | drawn _ | reserved _ | cancelling | cancelled => true
  | _ => false

/-- The table with the calls under way. `mutex` is who holds the frontier's mutex; `settled` records
the CSNs that have been published or cancelled. -/
structure CsnCalls where
  status : ConcurrentTxStatus
  calls : Nat → CsnCall
  mutex : Option Nat
  settled : List Nat

inductive CsnAction
  | begin
  | drawCsn (tx : Nat)
  | insertPending (tx csn : Nat)
  | setCommitted (tx csn : Nat)
  | completeCsn (tx csn : Nat)
  | skipCsn (tx csn : Nat)
  | advance (tx : Nat)
  | unregister (tx : Nat)
  | abort (tx : Nat)
deriving DecidableEq

namespace CsnCalls

def start : CsnCalls where
  status := .new
  calls := fun _ => .fresh
  mutex := none
  settled := []

variable (s : CsnCalls)

def setCall (tx : Nat) (c : CsnCall) : CsnCalls := { s with calls := Function.update s.calls tx c }

/-- One round of the loop in the mutex, or its end: the mutex is given back and the call goes on. -/
def advance (tx : Nat) : CsnCalls :=
  match s.status.advanceOnce with
  | some status => { s with status }
  | none => { s with mutex := none }.setCall tx
      (if s.calls tx = CsnCall.publishing then .published else .cancelled)

/-- A step that has to wait for the mutex, or that the transaction is not at, is not accepted. -/
def step : CsnAction → Except Error CsnCalls
  | .begin => .ok ({ s with status := s.status.begin.2 }.setCall s.status.nextTx .active)
  | .drawCsn tx => do
    require (s.calls tx = .active) .transactionClosed
    return { s with status := { s.status with nextCsn := s.status.nextCsn + 1 } }.setCall tx
      (.drawn s.status.nextCsn)
  | .insertPending tx csn => do
    require (s.calls tx = .drawn csn ∧ s.mutex = none) .lockTimeout
    return { s with status := { s.status with pending := s.status.pending.insert csn } }.setCall tx
      (.reserved csn)
  | .setCommitted tx csn => do
    require (s.calls tx = .reserved csn) .transactionClosed
    return { s with status := s.status.setState tx (.committed csn) }.setCall tx (.stated csn)
  | .completeCsn tx csn => do
    require (s.calls tx = .stated csn ∧ s.mutex = none) .lockTimeout
    return { s with
      status := { s.status with
        pending := s.status.pending.erase csn, completed := s.status.completed.insert csn }
      mutex := some tx
      settled := csn :: s.settled }.setCall tx .publishing
  | .skipCsn tx csn => do
    require (s.calls tx = .reserved csn ∧ s.mutex = none) .lockTimeout
    return { s with
      status := { s.status with
        pending := s.status.pending.erase csn, skipped := s.status.skipped.insert csn }
      mutex := some tx
      settled := csn :: s.settled }.setCall tx .cancelling
  | .advance tx => do
    require (s.mutex = some tx) .lockTimeout
    return s.advance tx
  | .unregister tx => do
    require (s.calls tx = .published) .transactionClosed
    return { s with status := s.status.unregisterActive tx }.setCall tx .closed
  | .abort tx => do
    require (s.calls tx = .active ∨ s.calls tx = .cancelled) .transactionClosed
    return { s with status := s.status.abort tx }.setCall tx .closed

structure Waits (s : CsnCalls) : Prop where
  settled : ∀ c, c ∈ s.settled ↔
    (0 < c ∧ c ≤ s.status.publishedCsn) ∨ c ∈ s.status.completed ∨ c ∈ s.status.skipped
  settled_lt : ∀ c ∈ s.settled, c < s.status.nextCsn
  stuck : s.mutex = none →
    s.status.publishedCsn + 1 ∉ s.status.completed ∧ s.status.publishedCsn + 1 ∉ s.status.skipped
  nextCsn : 0 < s.status.nextCsn

structure CallOk (s : CsnCalls) (tx : Nat) (k : CsnCall) : Prop where
  owned : ∀ c, k.csn? = some c → 0 < c ∧ c < s.status.nextCsn ∧ c ∉ s.settled
  state : k.uncommitted = true → ∀ c, s.status.state tx ≠ .committed c
  fresh : s.status.nextTx ≤ tx → k = .fresh
  holder : s.mutex = some tx → k = .publishing ∨ k = .cancelling

structure Inv (s : CsnCalls) : Prop extends Waits s where
  call : ∀ tx, CallOk s tx (s.calls tx)
  distinct : ∀ tx tx' c, (s.calls tx).csn? = some c → (s.calls tx').csn? = some c → tx = tx'

variable {s} {s' s₀ s₁ : CsnCalls} {a : CsnAction} {tx tx' csn c : Nat}
    {acts acts' : List CsnAction}

@[simp] theorem status_setCall (s : CsnCalls) (tx : Nat) (k : CsnCall) :
    (s.setCall tx k).status = s.status := rfl

theorem inv_start : Inv start where
  settled c := by simp [start, new]; omega
  settled_lt := by simp [start]
  stuck := by simp [start, new]
  nextCsn := by simp [start, new]
  call tx := ⟨by simp [start, CsnCall.csn?], by simp [start], fun _ => rfl, by simp [start]⟩
  distinct := by simp [start, CsnCall.csn?]

/-! ### One transaction moves -/

variable {k : CsnCall} {status : ConcurrentTxStatus}
section
variable (h : Inv s)
include h

theorem Inv.move (hw : Waits s') (hcalls : s'.calls = Function.update s.calls tx k)
    (hother : ∀ tx', tx' ≠ tx → s'.status.state tx' = s.status.state tx' ∧
      (s'.mutex = some tx' → s.mutex = some tx'))
    (htx : s.status.nextTx ≤ s'.status.nextTx) (hcsn : s.status.nextCsn ≤ s'.status.nextCsn)
    (hsettled : ∀ c ∈ s'.settled, c ∈ s.settled ∨ (s.calls tx).csn? = some c) (hok : CallOk s' tx k)
    (hk : ∀ c, k.csn? = some c → (s.calls tx).csn? = some c ∨ c = s.status.nextCsn) : Inv s' := by
  have hself : s'.calls tx = k := hcalls ▸ Function.update_self ..
  have hold : ∀ tx', tx' ≠ tx → s'.calls tx' = s.calls tx' :=
    fun tx' hne => hcalls ▸ Function.update_of_ne hne ..
  have hone : ∀ tx' c, tx' ≠ tx → (s'.calls tx').csn? = some c → (s'.calls tx).csn? ≠ some c := by
    intro tx' c hne hc hc'
    rw [hold tx' hne] at hc
    rw [hself] at hc'
    rcases hk c hc' with hc' | rfl
    · exact hne (h.distinct tx' tx c hc hc')
    · exact lt_irrefl _ ((h.call tx').owned _ hc).2.1
  refine ⟨hw, fun tx' => ?_, fun tx₁ tx₂ c h₁ h₂ => ?_⟩
  · by_cases he : tx' = tx
    · rw [he, hself]
      exact hok
    · obtain ⟨howned, hstate, hfresh, hholder⟩ := h.call tx'
      rw [hold tx' he]
      refine ⟨fun c hc => ?_, (hother tx' he).1 ▸ hstate, fun hn => hfresh (htx.trans hn),
        fun hm => hholder ((hother tx' he).2 hm)⟩
      obtain ⟨h1, h2, h3⟩ := howned c hc
      refine ⟨h1, h2.trans_le hcsn, fun hm => ?_⟩
      rcases hsettled c hm with hm | hm
      · exact h3 hm
      · exact he (h.distinct tx' tx c hc hm)
  · by_cases he₁ : tx₁ = tx
    · by_contra hne
      exact hone tx₂ c (fun he₂ => hne (he₁.trans he₂.symm)) h₂ (he₁ ▸ h₁)
    · by_cases he₂ : tx₂ = tx
      · exact absurd (he₂ ▸ h₂) (hone tx₁ c he₁ h₁)
      · rw [hold tx₁ he₁] at h₁
        rw [hold tx₂ he₂] at h₂
        exact h.distinct tx₁ tx₂ c h₁ h₂

theorem Inv.published_lt (hc : (s.calls tx).csn? = some csn) : s.status.publishedCsn < csn := by
  obtain ⟨hpos, -, hns⟩ := (h.call tx).owned csn hc
  by_contra hle
  exact hns ((h.settled csn).2 (.inl ⟨hpos, not_lt.1 hle⟩))

theorem Inv.begin :
    Inv ({ s with status := s.status.begin.2 }.setCall s.status.nextTx .active) := by
  refine h.move { h.toWaits with } rfl (fun tx' he => ⟨?_, id⟩) (Nat.le_succ _) le_rfl
    (fun _ => .inl)
    ⟨nofun, fun _ c => ?_, fun hn => absurd hn (Nat.not_succ_le_self _), fun hm => ?_⟩ nofun
  · show (s.status.begin.2).state tx' = s.status.state tx'
    simp [he]
  · show (s.status.begin.2).state s.status.nextTx ≠ .committed c
    simp
  · have hf := (h.call s.status.nextTx).fresh le_rfl
    rcases (h.call s.status.nextTx).holder hm with hh | hh
    · cases hf.symm.trans hh
    · cases hf.symm.trans hh

/-- A transaction outside the mutex moves and the frontier stays: it may take a new CSN from the
counter. -/
theorem Inv.outside (hw : Waits { s with status }) (htx : status.nextTx = s.status.nextTx)
    (hcsn : s.status.nextCsn ≤ status.nextCsn)
    (hother : ∀ tx', tx' ≠ tx → status.state tx' = s.status.state tx')
    (hfree : s.calls tx ≠ .fresh ∧ s.calls tx ≠ .publishing ∧ s.calls tx ≠ .cancelling)
    (hk : ∀ c, k.csn? = some c → (s.calls tx).csn? = some c ∨ c = s.status.nextCsn ∧
      c < status.nextCsn)
    (hst : k.uncommitted = true → ∀ c, status.state tx ≠ .committed c) :
    Inv ({ s with status }.setCall tx k) := by
  refine h.move { hw with } rfl (fun tx' he => ⟨hother tx' he, id⟩) htx.symm.le hcsn (fun _ => .inl)
    ⟨fun c hc => ?_, hst, fun hn => ?_, fun hm => ?_⟩ fun c hc => (hk c hc).imp id And.left
  · rcases hk c hc with hold | ⟨rfl, hlt⟩
    · obtain ⟨h1, h2, h3⟩ := (h.call tx).owned c hold
      exact ⟨h1, h2.trans_le hcsn, h3⟩
    · exact ⟨h.nextCsn, hlt, fun hm => lt_irrefl _ (h.settled_lt _ hm)⟩
  · exact absurd ((h.call tx).fresh (htx.symm.le.trans hn)) hfree.1
  · rcases (h.call tx).holder hm with hh | hh
    · exact absurd hh hfree.2.1
    · exact absurd hh hfree.2.2

theorem Inv.settle (hown : (s.calls tx).csn? = some csn)
    (hpub : status.publishedCsn = s.status.publishedCsn) (htx : status.nextTx = s.status.nextTx)
    (hcsn : status.nextCsn = s.status.nextCsn)
    (hstate : ∀ tx', status.state tx' = s.status.state tx')
    (hwait : ∀ c, c ∈ status.completed ∨ c ∈ status.skipped ↔ c = csn ∨ c ∈ s.status.completed ∨
      c ∈ s.status.skipped)
    (hk : k = .publishing ∨ k = .cancelling ∧ (s.calls tx).uncommitted = true) :
    Inv ({ s with status, mutex := some tx, settled := csn :: s.settled }.setCall tx k) := by
  have hkcsn : k.csn? = none := by rcases hk with rfl | ⟨rfl, -⟩ <;> rfl
  have hnone : ∀ c, k.csn? ≠ some c := by simp [hkcsn]
  refine h.move ⟨fun c => ?_, fun c hc => ?_, nofun, hcsn ▸ h.nextCsn⟩ rfl
    (fun tx' he => ⟨hstate tx', fun hm => ?_⟩)
    htx.symm.le hcsn.symm.le (fun c hc => ?_)
    ⟨fun c hc => absurd hc (hnone c), fun hu c => ?_, fun hn => ?_, fun _ => hk.imp id And.left⟩
      fun c hc => absurd hc (hnone c)
  · show c ∈ csn :: s.settled ↔ (0 < c ∧ c ≤ status.publishedCsn) ∨ c ∈ status.completed ∨
        c ∈ status.skipped
    rw [hwait c, hpub, List.mem_cons, h.settled c]
    exact or_left_comm
  · show c < status.nextCsn
    rw [hcsn]
    rcases List.mem_cons.1 hc with rfl | hc
    · exact ((h.call tx).owned c hown).2.1
    · exact h.settled_lt c hc
  · exact absurd (Option.some.inj hm).symm he
  · rcases List.mem_cons.1 hc with rfl | hc
    · exact .inr hown
    · exact .inl hc
  · show status.state tx ≠ .committed c
    rw [hstate tx]
    rcases hk with rfl | ⟨-, hun⟩
    · cases hu
    · exact (h.call tx).state hun c
  · rw [(h.call tx).fresh (htx ▸ hn)] at hown
    cases hown

theorem Inv.advanceOnce (hm : s.mutex ≠ none)
    (hs : s.status.advanceOnce = some status) : Inv { s with status } := by
  obtain ⟨hstates, htx, hcsn, hpub, -, hmem, hwait⟩ := advanceOnce_eq_some hs
  have hsub : ∀ c, c ∈ status.completed ∨ c ∈ status.skipped → c ∈ s.settled := by
    intro c hc
    by_cases he : c = s.status.publishedCsn + 1
    · exact (h.settled c).2 (.inr (he ▸ hmem))
    · exact (h.settled c).2 (.inr ((hwait c he).1 hc))
  refine ⟨⟨?_, fun c hc => hcsn ▸ h.settled_lt c hc, fun hn => absurd hn hm, hcsn ▸ h.nextCsn⟩,
    fun tx => ?_, h.distinct⟩
  · intro c
    rw [hpub]
    constructor
    · intro hc
      by_cases he : c = s.status.publishedCsn + 1
      · exact .inl ⟨by omega, by omega⟩
      · rcases (h.settled c).1 hc with ⟨h1, h2⟩ | h'
        · exact .inl ⟨h1, by omega⟩
        · exact .inr ((hwait c he).2 h')
    · rintro (⟨h1, h2⟩ | hc)
      · rcases lt_or_ge s.status.publishedCsn c with hlt | hle
        · obtain rfl : c = s.status.publishedCsn + 1 := by omega
          exact (h.settled _).2 (.inr hmem)
        · exact (h.settled c).2 (.inl ⟨h1, hle⟩)
      · exact hsub c hc
  · obtain ⟨howned, hstate, hfresh, hholder⟩ := h.call tx
    refine ⟨fun c hc => hcsn ▸ howned c hc, ?_, fun hn => hfresh (htx ▸ hn), hholder⟩
    rw [ConcurrentTxStatus.state, hstates]
    exact hstate

theorem Inv.unlock (hm : s.mutex = some tx) (hs : s.status.advanceOnce = none) :
    Inv ({ s with mutex := none }.setCall tx
      (if s.calls tx = CsnCall.publishing then .published else .cancelled)) := by
  have hstuck : s.status.publishedCsn + 1 ∉ s.status.completed ∧
      s.status.publishedCsn + 1 ∉ s.status.skipped := by
    unfold ConcurrentTxStatus.advanceOnce at hs
    dsimp only at hs
    split at hs
    · cases hs
    · next hc =>
      split at hs
      · cases hs
      · next hk => exact ⟨hc, hk⟩
  have hold := (h.call tx).holder hm
  have hnone : ∀ c,
      (if s.calls tx = CsnCall.publishing then CsnCall.published else .cancelled).csn? ≠
      some c := by
    intro c hc
    split at hc <;> cases hc
  refine h.move ⟨h.settled, h.settled_lt, fun _ => hstuck, h.nextCsn⟩ rfl
    (fun _ _ => ⟨rfl, nofun⟩) le_rfl
    le_rfl (fun _ => .inl) ⟨fun c hc => absurd hc (hnone c), fun hu => ?_, fun hn => ?_, nofun⟩
    fun c hc => absurd hc (hnone c)
  · refine (h.call tx).state ?_
    rcases hold with hh | hh
    · rw [if_pos hh] at hu
      cases hu
    · rw [hh]
      rfl
  · have hf := (h.call tx).fresh hn
    rcases hold with hh | hh
    · cases hf.symm.trans hh
    · cases hf.symm.trans hh

theorem Inv.advance (hm : s.mutex = some tx) : Inv (s.advance tx) := by
  unfold CsnCalls.advance
  split
  · next hs => exact h.advanceOnce (by rw [hm]; nofun) hs
  · next hs => exact h.unlock hm hs

theorem Inv.step (hs : s.step a = .ok s') : Inv s' := by
  cases a with
  | begin =>
    cases hs
    exact h.begin
  | drawCsn tx =>
    obtain ⟨hc, rfl⟩ := guarded_eq_ok.1 hs
    refine h.outside ⟨h.settled, fun c hc => Nat.lt_succ_of_lt (h.settled_lt c hc), h.stuck,
      Nat.succ_pos _⟩ rfl (Nat.le_succ _) (fun _ _ => rfl) (by simp [hc]) ?_
      fun _ => (h.call tx).state (by rw [hc]; rfl)
    intro c hk
    exact .inr ⟨(Option.some.inj hk).symm, by have := Option.some.inj hk; dsimp only; omega⟩
  | insertPending tx csn =>
    obtain ⟨⟨hc, -⟩, rfl⟩ := guarded_eq_ok.1 hs
    exact h.outside { h.toWaits with } rfl le_rfl (fun _ _ => rfl) (by simp [hc])
      (fun c hk => .inl (by rw [hc]; exact hk))
      fun _ => (h.call tx).state (by rw [hc]; rfl)
  | setCommitted tx csn =>
    obtain ⟨hc, rfl⟩ := guarded_eq_ok.1 hs
    exact h.outside { h.toWaits with } rfl le_rfl (fun tx' hne => by simp [hne]) (by simp [hc])
      (fun c hk => .inl (by rw [hc]; exact hk)) nofun
  | completeCsn tx csn =>
    obtain ⟨⟨hc, -⟩, rfl⟩ := guarded_eq_ok.1 hs
    exact h.settle (by rw [hc]; rfl) rfl rfl rfl (fun _ => rfl) (fun c => by simp [or_assoc])
      (.inl rfl)
  | skipCsn tx csn =>
    obtain ⟨⟨hc, -⟩, rfl⟩ := guarded_eq_ok.1 hs
    exact h.settle (by rw [hc]; rfl) rfl rfl rfl (fun _ => rfl) (fun c => by simp [or_left_comm])
      (.inr ⟨rfl, by rw [hc]; rfl⟩)
  | advance tx =>
    obtain ⟨hm, rfl⟩ := guarded_eq_ok.1 hs
    exact h.advance hm
  | unregister tx =>
    obtain ⟨hc, rfl⟩ := guarded_eq_ok.1 hs
    exact h.outside { h.toWaits with } rfl le_rfl (fun _ _ => rfl) (by simp [hc]) nofun nofun
  | abort tx =>
    obtain ⟨hc, rfl⟩ := guarded_eq_ok.1 hs
    exact h.outside { h.toWaits with } rfl le_rfl (fun tx' hne => by simp [hne])
      (by rcases hc with hc | hc <;> simp [hc])
      nofun nofun

/-! ### What a step does to a snapshot -/

omit h in
theorem publishedCsn_le_advance (s : CsnCalls) (tx : Nat) :
    s.status.publishedCsn ≤ (s.advance tx).status.publishedCsn ∧
      (s.advance tx).status.states = s.status.states := by
  unfold CsnCalls.advance
  split
  · next status hs =>
    obtain ⟨hstates, -, -, hpub, -⟩ := advanceOnce_eq_some hs
    exact ⟨hpub ▸ Nat.le_succ _, hstates⟩
  · exact ⟨le_rfl, rfl⟩

/-- A step keeps the published CSN or raises it, and a state it changes is that of a transaction no
snapshot taken so far may see, neither before nor after. -/
theorem Inv.step_state (hs : s.step a = .ok s') : s.status.publishedCsn ≤ s'.status.publishedCsn ∧
    ∀ tx, s'.status.state tx = s.status.state tx ∨
      (∀ c, s.status.state tx ≠ .committed c) ∧ ∀ c, s'.status.state tx = .committed c →
      s.status.publishedCsn < c := by
  cases a with
  | begin =>
    cases hs
    refine ⟨le_rfl, fun tx => ?_⟩
    by_cases he : tx = s.status.nextTx
    · have hf := (h.call tx).fresh he.symm.le
      exact .inr ⟨(h.call tx).state (by rw [hf]; rfl), fun c hc => by simp [he] at hc⟩
    · exact .inl (by simp [he])
  | drawCsn tx | insertPending tx csn | unregister tx | completeCsn tx csn | skipCsn tx csn =>
    obtain ⟨-, rfl⟩ := guarded_eq_ok.1 hs
    exact ⟨le_rfl, fun _ => .inl rfl⟩
  | setCommitted tx csn =>
    obtain ⟨hc, rfl⟩ := guarded_eq_ok.1 hs
    refine ⟨le_rfl, fun tx' => ?_⟩
    by_cases he : tx' = tx
    · -- the CSN is still owned, so it lies above every published one
      subst he
      refine .inr ⟨(h.call tx').state (by rw [hc]; rfl), fun c hst => ?_⟩
      obtain rfl : csn = c := by simpa using hst
      exact h.published_lt (show (s.calls tx').csn? = some csn by rw [hc]; rfl)
    · exact .inl (by simp [he])
  | advance tx =>
    obtain ⟨-, rfl⟩ := guarded_eq_ok.1 hs
    obtain ⟨hle, hst⟩ := publishedCsn_le_advance s tx
    exact ⟨hle, fun tx' => .inl (by rw [ConcurrentTxStatus.state, hst]; rfl)⟩
  | abort tx =>
    obtain ⟨hc, rfl⟩ := guarded_eq_ok.1 hs
    refine ⟨le_rfl, fun tx' => ?_⟩
    by_cases he : tx' = tx
    · subst he
      refine .inr ⟨(h.call tx').state (by rcases hc with hc | hc <;> rw [hc] <;> rfl),
        fun c hst => by simp at hst⟩
    · exact .inl (by simp [he])

theorem Inv.isTxVisible_step (hs : s.step a = .ok s') {sn : Snapshot} {owner : Option Nat}
    (hsn : sn.visibleCsn ≤ s.status.publishedCsn) (ho : some tx ≠ owner) :
    s'.status.isTxVisible tx sn owner = s.status.isTxVisible tx sn owner := by
  rcases (h.step_state hs).2 tx with heq | ⟨hbefore, hafter⟩
  · exact isTxVisible_congr heq sn owner
  · rw [isTxVisible_eq_false ho fun c hc => absurd hc (hbefore c),
      isTxVisible_eq_false ho fun c hc => hsn.trans_lt (hafter c hc)]

end

theorem inv_run (hrun : Run step (fun _ _ => True) start acts s) : Inv s :=
  hrun.invariant (I := fun _ s => Inv s) inv_start fun _ _ _ _ h _ hs => h.step hs

/-- From a state of a run on: the published CSN only grows, and what a snapshot sees of others
stays. -/
theorem Inv.run (h : Inv s₀) (hrun : Run CsnCalls.step (fun _ _ => True) s₀ acts s₁) :
    s₀.status.publishedCsn ≤ s₁.status.publishedCsn ∧
    ∀ sn : Snapshot, sn.visibleCsn = s₀.status.publishedCsn → ∀ owner tx, some tx ≠ owner →
      s₁.status.isTxVisible tx sn owner = s₀.status.isTxVisible tx sn owner := by
  refine (hrun.invariant (I := fun _ s => Inv s ∧ s₀.status.publishedCsn ≤ s.status.publishedCsn ∧
    ∀ sn : Snapshot, sn.visibleCsn = s₀.status.publishedCsn → ∀ owner tx, some tx ≠ owner →
      s.status.isTxVisible tx sn owner = s₀.status.isTxVisible tx sn owner)
        ⟨h, le_rfl, fun _ _ _ _ _ => rfl⟩ ?_).2
  rintro - s a s' ⟨hI, hle, hvis⟩ - hs
  refine ⟨hI.step hs, hle.trans (hI.step_state hs).1, fun sn hsn owner tx ho => ?_⟩
  rw [hI.isTxVisible_step hs (hsn ▸ hle) ho]
  exact hvis sn hsn owner tx ho

/-- While no call is inside the frontier's mutex, the published CSN is the last of the settled ones
that follow each other from one. -/
theorem Inv.isGreatest (h : Inv s) (hm : s.mutex = none) :
    IsGreatest {n | ∀ c, 0 < c → c ≤ n → c ∈ s.settled} s.status.publishedCsn := by
  refine ⟨fun c h1 h2 => (h.settled c).2 (.inl ⟨h1, h2⟩), fun n hn => ?_⟩
  by_contra hlt
  obtain ⟨hc, hk⟩ := h.stuck hm
  rcases (h.settled _).1 (hn (s.status.publishedCsn + 1) (Nat.succ_pos _) (by omega)) with ⟨-,
    hle⟩ | h' | h'
  · omega
  · exact hc h'
  · exact hk h'

/-- In any interleaving of the steps of the calls: the CSNs up to the published one are settled, and
when the mutex is free it is the largest such number; it never decreases, and what a snapshot taken
at any point sees of a transaction other than its owner never changes. -/
theorem frontier_exact_and_snapshots_stable (h₀ : Run step (fun _ _ => True) start acts s₀)
    (h₁ : Run step (fun _ _ => True) s₀ acts' s₁) :
    (∀ c, 0 < c → c ≤ s₀.status.publishedCsn → c ∈ s₀.settled) ∧
    (s₀.mutex = none →
      IsGreatest {n | ∀ c, 0 < c → c ≤ n → c ∈ s₀.settled} s₀.status.publishedCsn) ∧
    s₀.status.publishedCsn ≤ s₁.status.publishedCsn ∧
    ∀ sn : Snapshot, sn.visibleCsn = s₀.status.publishedCsn → ∀ owner tx, some tx ≠ owner →
      s₁.status.isTxVisible tx sn owner = s₀.status.isTxVisible tx sn owner := by
  have hinv := inv_run h₀
  exact ⟨fun c h1 h2 => (hinv.settled c).2 (.inl ⟨h1, h2⟩), hinv.isGreatest, hinv.run h₁⟩

def outOfOrder : List CsnAction :=
  [.begin, .begin, .drawCsn 1, .drawCsn 2, .insertPending 2 2, .insertPending 1 1,
    .setCommitted 2 2,
    .completeCsn 2 2, .advance 2]

def thenCancelled : List CsnAction := [.skipCsn 1 1, .advance 1, .advance 1, .advance 1]

theorem frontier_exact_and_snapshots_stable_outOfOrder : ∃ s₀ s₁,
    Run step (fun _ _ => True) start outOfOrder s₀ ∧
      Run step (fun _ _ => True) s₀ thenCancelled s₁ ∧
    IsGreatest {n | ∀ c, 0 < c → c ≤ n → c ∈ s₀.settled} s₀.status.publishedCsn ∧
      s₁.status.publishedCsn = 2 ∧
    s₁.status.isTxVisible 2 s₀.status.snapshot none = s₀.status.isTxVisible 2 s₀.status.snapshot
      none := by
  obtain ⟨s₀, h₀, hmutex, s₁, h₁, hp⟩ : ∃ s₀, Run step (fun _ _ => True) start outOfOrder s₀ ∧
      s₀.mutex = none ∧
      ∃ s₁, Run step (fun _ _ => True) s₀ thenCancelled s₁ ∧ s₁.status.publishedCsn = 2 := by
        decide +kernel
  have h := frontier_exact_and_snapshots_stable h₀ h₁
  exact ⟨s₀, s₁, h₀, h₁, h.2.1 hmutex, hp, h.2.2.2 _ rfl none 2 (by simp)⟩

end CsnCalls
end RedlineDb
