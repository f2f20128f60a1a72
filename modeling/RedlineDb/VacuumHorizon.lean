import RedlineDb.CsnFrontier

/-!
# The vacuum horizon

`begin_txn` reads the published CSN and registers it as the transaction's active snapshot in two
steps, and `oldest_active_snapshot_csn` takes the least registered snapshot, or the published CSN
when none is registered, as the horizon that `Engine::vacuum` passes to the heap. The machine
interleaves these steps with commits, whose frontier advances round by round, for any number of
transactions. `oldest_active_snapshot_csn` keeps the mutex of the active snapshots while it reads
the published CSN; who needs the mutex waits.
-/

namespace RedlineDb
open Lib Function ConcurrentTxStatus

/-- Where a transaction stands. `retaking` has read the CSN `next` for its new snapshot and not
registered it; `completing` is in `publish_commit` before `unregister_active`. -/
inductive SnapshotCall
  | fresh
  | begun
  | taken (csn : Nat)
  | active (csn : Nat)
  | retaking (csn next : Nat)
  | reserved (csn commitCsn : Nat)
  | completing (csn : Nat)
  | ended
deriving DecidableEq

namespace SnapshotCall

def registered? : SnapshotCall → Option Nat
  | active csn | retaking csn _ | reserved csn _ | completing csn => some csn
  | _ => none

def unregistered? : SnapshotCall → Option Nat
  | taken csn => some csn
  | _ => none

def snapshots : SnapshotCall → List Nat
  | taken csn | active csn | reserved csn _ | completing csn => [csn]
  | retaking csn next => [csn, next]
  | _ => []

end SnapshotCall

/-- `mutex` is held by `oldest_active_snapshot_csn` with the minimum it has found; `horizons`
records what was passed to the heap. -/
structure SnapshotCalls where
  status : ConcurrentTxStatus
  calls : Nat → SnapshotCall
  mutex : Option (Option Nat)
  horizons : List Nat

inductive SnapshotAction
  | begin
  | takeSnapshot (tx : Nat)
  | register (tx : Nat)
  | retake (tx : Nat)
  | replace (tx : Nat)
  | reserve (tx : Nat)
  | complete (tx : Nat)
  | advance
  | unregister (tx : Nat)
  | cancel (tx : Nat)
  | abort (tx : Nat)
  | lockActive
  | loadHorizon
deriving DecidableEq

namespace SnapshotCalls
open SnapshotCall

def start : SnapshotCalls where
  status := .new
  calls := fun _ => .fresh
  mutex := none
  horizons := []

def setCall (s : SnapshotCalls) (tx : Nat) (c : SnapshotCall) : SnapshotCalls :=
  { s with calls := update s.calls tx c }

def oldest (t : ConcurrentTxStatus) : Option Nat := (t.activeSnapshots.entries.map (·.2)).min?

/-- A step that has to wait for the mutex, or that the transaction is not at, is not accepted. -/
def step (s : SnapshotCalls) : SnapshotAction → Except Error SnapshotCalls
  | .begin => .ok ({ s with status := s.status.begin.2 }.setCall s.status.nextTx .begun)
  | .takeSnapshot tx => do
    require (s.calls tx = .begun) .transactionClosed
    return s.setCall tx (.taken s.status.snapshot.visibleCsn)
  | .register tx =>
    match s.calls tx, s.mutex with
    | .taken csn, none =>
        .ok ({ s with status := s.status.setActiveSnapshot tx csn }.setCall tx (.active csn))
    | _, _ => .error .transactionClosed
  | .retake tx =>
    match s.calls tx with
    | .active csn => .ok (s.setCall tx (.retaking csn s.status.snapshot.visibleCsn))
    | _ => .error .transactionClosed
  | .replace tx =>
    match s.calls tx, s.mutex with
    | .retaking _ next, none =>
      .ok ({ s with status := s.status.setActiveSnapshot tx next }.setCall tx (.active next))
    | _, _ => .error .transactionClosed
  | .reserve tx =>
    match s.calls tx with
    | .active csn =>
      .ok ({ s with status := s.status.reserveCommitCsn.2 }.setCall tx
        (.reserved csn s.status.reserveCommitCsn.1))
    | _ => .error .transactionClosed
  | .complete tx =>
    match s.calls tx with
    | .reserved csn commitCsn =>
      let status := s.status.setState tx (.committed commitCsn)
      .ok ({ s with status := { status with
        pending := status.pending.erase commitCsn
        completed := status.completed.insert commitCsn } }.setCall tx (.completing csn))
    | _ => .error .transactionClosed
  | .advance =>
    match s.status.advanceOnce with
    | some status => .ok { s with status }
    | none => .error .lockTimeout
  | .unregister tx =>
    match s.calls tx, s.mutex with
    | .completing _,
        none => .ok ({ s with status := s.status.unregisterActive tx }.setCall tx .ended)
    | _, _ => .error .transactionClosed
  | .cancel tx =>
    match s.calls tx with
    | .reserved csn commitCsn =>
      .ok ({ s with status := { s.status with
        pending := s.status.pending.erase commitCsn
        skipped := s.status.skipped.insert commitCsn } }.setCall tx (.active csn))
    | _ => .error .transactionClosed
  | .abort tx =>
    match s.calls tx, s.mutex with
    | .active _, none => .ok ({ s with status := s.status.abort tx }.setCall tx .ended)
    | _, _ => .error .transactionClosed
  | .lockActive => do
    require (s.mutex = none) .lockTimeout
    return { s with mutex := some (oldest s.status) }
  | .loadHorizon =>
    match s.mutex with
    | some m => .ok { s with mutex := none, horizons := m.getD s.status.publishedCsn :: s.horizons }
    | none => .error .lockTimeout

/-- The horizon is read while nothing has been published since the snapshot of a transaction that is
not yet registered, or while a snapshot as old is registered. -/
def Registered (s : SnapshotCalls) : SnapshotAction → Prop
  | .loadHorizon => ∀ tx < s.status.nextTx, ∀ csn ∈ (s.calls tx).unregistered?,
      csn = s.status.publishedCsn ∨
        ∃ other < s.status.nextTx, ∃ older ∈ (s.calls other).registered?, older ≤ csn
  | _ => True

instance (s : SnapshotCalls) (a : SnapshotAction) : Decidable (s.Registered a) := by
  unfold Registered
  split <;> infer_instance

variable {s s' : SnapshotCalls} {tx : Nat}

structure CallOk (s : SnapshotCalls) (tx : Nat) (c : SnapshotCall) : Prop where
  registered : s.status.activeSnapshots.lookup tx = c.registered?
  le_published : ∀ csn ∈ c.snapshots, csn ≤ s.status.publishedCsn
  ordered : ∀ csn next, c = .retaking csn next → csn ≤ next
  fresh : s.status.nextTx ≤ tx → c = .fresh
  horizons : ∀ h ∈ s.horizons, ∀ csn ∈ c.snapshots, h ≤ csn

structure Inv (s : SnapshotCalls) : Prop where
  call : ∀ tx, CallOk s tx (s.calls tx)
  mutex : ∀ m, s.mutex = some m → m = oldest s.status
  horizons : ∀ h ∈ s.horizons, h ≤ s.status.publishedCsn

theorem inv_start : Inv start where
  call _ := by constructor <;> simp [start, new, registered?, snapshots]
  mutex := by simp [start]
  horizons := by simp [start]

theorem Inv.lt_nextTx (h : Inv s) (hc : s.calls tx ≠ .fresh) : tx < s.status.nextTx :=
  Nat.lt_of_not_le fun hle => hc ((h.call tx).fresh hle)

/-- One transaction goes on to `c`, whose snapshots are those it had and the published CSN; the
table of active snapshots follows it. -/
theorem Inv.move {c : SnapshotCall} (h : Inv s) (hcalls : s'.calls = update s.calls tx c)
    (hhorizons : s'.horizons = s.horizons)
    (hpublished : s'.status.publishedCsn = s.status.publishedCsn)
    (hnext : s.status.nextTx ≤ s'.status.nextTx) (htx : tx < s'.status.nextTx)
    (hactive : s'.status.activeSnapshots.lookup tx = c.registered? ∧
      ∀ x, x ≠ tx → s'.status.activeSnapshots.lookup x = s.status.activeSnapshots.lookup x)
    (hmutex : s'.mutex = s.mutex ∧
      (s.mutex = none ∨ s'.status.activeSnapshots = s.status.activeSnapshots))
    (hsnap : ∀ csn ∈ c.snapshots, csn ∈ (s.calls tx).snapshots ∨ csn = s.status.publishedCsn)
    (hord : ∀ csn next, c = .retaking csn next → csn ≤ next) : Inv s' where
  call x := by
    rw [hcalls]
    by_cases hx : x = tx
    · subst hx
      rw [update_self]
      refine ⟨hactive.1, fun csn hcsn => ?_, hord, fun hle => absurd htx (not_lt.2 hle),
        fun g hg csn hcsn => ?_⟩
      · rw [hpublished]
        rcases hsnap csn hcsn with hold | rfl
        · exact (h.call x).le_published csn hold
        · exact le_rfl
      · rw [hhorizons] at hg
        rcases hsnap csn hcsn with hold | rfl
        · exact (h.call x).horizons g hg csn hold
        · exact h.horizons g hg
    · rw [update_of_ne hx]
      obtain ⟨hreg, hle, hord', hfresh, hhor⟩ := h.call x
      exact ⟨(hactive.2 x hx).trans hreg, hpublished ▸ hle, hord',
        fun hn => hfresh (hnext.trans hn),
        hhorizons ▸ hhor⟩
  mutex m hm := by
    rw [hmutex.1] at hm
    rcases hmutex.2 with hnone | hsame
    · rw [hnone] at hm
      cases hm
    · rw [oldest, hsame]
      exact h.mutex m hm
  horizons := by
    rw [hhorizons, hpublished]
    exact h.horizons

theorem Inv.advance {status : ConcurrentTxStatus} (h : Inv s)
    (ha : s.status.advanceOnce = some status) :
    Inv { s with status } := by
  obtain ⟨-, hnext, -, hpublished, hactive, -⟩ := advanceOnce_eq_some ha
  refine ⟨fun tx => ?_, fun m hm => ?_, fun g hg => ?_⟩
  · obtain ⟨hreg, hle, hord, hfresh, hhor⟩ := h.call tx
    refine ⟨hactive ▸ hreg, fun csn hcsn => ?_, hord, hnext ▸ hfresh, hhor⟩
    rw [hpublished]
    exact Nat.le_succ_of_le (hle csn hcsn)
  · rw [oldest, hactive]
    exact h.mutex m hm
  · rw [hpublished]
    exact Nat.le_succ_of_le (h.horizons g hg)

theorem mem_active_iff {t : ConcurrentTxStatus} {csn : Nat} :
    csn ∈ t.activeSnapshots.entries.map (·.2) ↔ ∃ tx, t.activeSnapshots.lookup tx = some csn := by
  constructor
  · intro hm
    obtain ⟨⟨tx, c⟩, hmem, rfl⟩ := List.mem_map.1 hm
    exact ⟨tx, AList.mem_lookup_iff.2 hmem⟩
  · rintro ⟨tx, htx⟩
    exact List.mem_map.2 ⟨⟨tx, csn⟩, AList.mem_lookup_iff.1 htx, rfl⟩

theorem Inv.oldest_le (h : Inv s) :
    (oldest s.status).getD s.status.publishedCsn ≤ s.status.publishedCsn ∧
    ∀ tx, ∀ csn ∈ (s.calls tx).registered?, (oldest s.status).getD s.status.publishedCsn ≤ csn := by
  have hsnap : ∀ {c : SnapshotCall} {csn : Nat}, c.registered? = some csn → csn ∈ c.snapshots := by
    intro c csn hc
    cases c <;> simp_all [registered?, snapshots]
  rcases ho : oldest s.status with _ | m
  · have hnil : s.status.activeSnapshots.entries.map (·.2) = [] := List.min?_eq_none_iff.1 ho
    refine ⟨le_rfl, ?_⟩
    intro tx csn hcsn
    have hm : csn ∈ s.status.activeSnapshots.entries.map (·.2) :=
      mem_active_iff.2 ⟨tx, (h.call tx).registered.trans hcsn⟩
    rw [hnil] at hm
    cases hm
  · obtain ⟨hmem, hmin⟩ := List.min?_eq_some_iff.1 ho
    obtain ⟨tx, htx⟩ := mem_active_iff.1 hmem
    rw [(h.call tx).registered] at htx
    refine ⟨(h.call tx).le_published m (hsnap htx), ?_⟩
    intro tx' csn hcsn
    exact hmin csn (mem_active_iff.2 ⟨tx', (h.call tx').registered.trans hcsn⟩)

theorem Inv.unregistered_or (h : Inv s) {csn : Nat} (hcsn : csn ∈ (s.calls tx).snapshots) :
    (s.calls tx).unregistered? = some csn ∨ ∃ older ∈ (s.calls tx).registered?, older ≤ csn := by
  have hord := (h.call tx).ordered
  generalize s.calls tx = c at hcsn hord ⊢
  cases c with
  | taken csn' => exact .inl (by simpa [unregistered?, snapshots, eq_comm] using hcsn)
  | active csn' | reserved csn' _ | completing csn' =>
    exact .inr ⟨csn', rfl, by simp_all [snapshots]⟩
  | retaking csn' next =>
    refine .inr ⟨csn', rfl, ?_⟩
    have hle := hord csn' next rfl
    simp only [snapshots, List.mem_cons, List.not_mem_nil, or_false] at hcsn
    omega
  | fresh | begun | ended => simp [snapshots] at hcsn

theorem Inv.loadHorizon {m : Option Nat} (h : Inv s) (hm : s.mutex = some m)
    (hreg : s.Registered .loadHorizon) :
    Inv { s with mutex := none, horizons := m.getD s.status.publishedCsn :: s.horizons } := by
  obtain rfl := h.mutex m hm
  obtain ⟨hle, hold⟩ := h.oldest_le
  refine ⟨fun tx => { h.call tx with horizons := fun g hg csn hcsn => ?_ }, by simp, ?_⟩
  · rcases List.mem_cons.1 hg with rfl | hg
    · obtain hun | ⟨older, holder, hcsn'⟩ := h.unregistered_or hcsn
      · -- still in `begin_txn`
        have htx : tx < s.status.nextTx :=
          h.lt_nextTx (by rintro hf; simp [hf, unregistered?] at hun)
        obtain rfl | ⟨other, -, older, hother, holder⟩ := hreg tx htx csn hun
        · exact hle
        · exact (hold other older hother).trans holder
      · exact (hold tx older holder).trans hcsn'
    · exact (h.call tx).horizons g hg csn hcsn
  · exact List.forall_mem_cons.2 ⟨hle, h.horizons⟩

theorem Inv.step {a : SnapshotAction} (h : Inv s) (hreg : s.Registered a) (hs : s.step a = .ok s') :
    Inv s' := by
  -- a transaction that is at one of its calls has drawn its id
  have hlt : ∀ {tx c}, s.calls tx = c → c ≠ .fresh → tx < s.status.nextTx :=
    fun hc hf => h.lt_nextTx (by rwa [hc])
  cases a with
  | begin =>
    simp only [SnapshotCalls.step, Except.ok.injEq] at hs
    subst hs
    refine h.move rfl rfl rfl (Nat.le_succ _) (Nat.lt_succ_self _) ⟨?_, fun _ _ => rfl⟩
      ⟨rfl, .inr rfl⟩ (by simp [snapshots])
      (by simp)
    refine (h.call _).registered.trans ?_
    rw [(h.call _).fresh le_rfl]
    rfl
  | takeSnapshot tx =>
    obtain ⟨hc, rfl⟩ := guarded_eq_ok.1 hs
    refine h.move rfl rfl rfl le_rfl (hlt hc (by simp)) ⟨?_, fun _ _ => rfl⟩ ⟨rfl, .inr rfl⟩
      (by simp [snapshots, snapshot]) (by simp)
    refine (h.call tx).registered.trans ?_
    rw [hc]
    rfl
  | register tx | replace tx =>
    simp only [SnapshotCalls.step] at hs
    split at hs
    · next hc hm =>
      cases hs
      refine h.move rfl rfl rfl le_rfl (hlt hc (by simp)) ⟨?_, fun x hx => ?_⟩ ⟨rfl, .inl hm⟩
        (by simp [hc, snapshots]) (by simp)
      · exact AList.lookup_insert _
      · exact AList.lookup_insert_ne hx
    · cases hs
  | retake tx =>
    simp only [SnapshotCalls.step] at hs
    split at hs
    · next csn hc =>
      cases hs
      have hle : csn ≤ s.status.publishedCsn :=
        (h.call tx).le_published csn (by simp [hc, snapshots])
      refine h.move rfl rfl rfl le_rfl (hlt hc (by simp)) ⟨?_, fun _ _ => rfl⟩ ⟨rfl, .inr rfl⟩
        (by simp [hc, snapshots, snapshot]) ?_
      · refine (h.call tx).registered.trans ?_
        rw [hc]
        rfl
      · rintro _ _ heq
        cases heq
        exact hle
    · cases hs
  | reserve tx | complete tx | cancel tx =>
    simp only [SnapshotCalls.step] at hs
    split at hs
    · next hc =>
      cases hs
      refine h.move rfl rfl rfl le_rfl (hlt hc (by simp)) ⟨?_, fun _ _ => rfl⟩ ⟨rfl, .inr rfl⟩
        (by simp [hc, snapshots]) (by simp)
      refine (h.call tx).registered.trans ?_
      rw [hc]
      rfl
    · cases hs
  | advance =>
    simp only [SnapshotCalls.step] at hs
    split at hs
    · next ha =>
      cases hs
      exact h.advance ha
    · cases hs
  | unregister tx | abort tx =>
    simp only [SnapshotCalls.step] at hs
    split at hs
    · next hc hm =>
      cases hs
      refine h.move rfl rfl rfl le_rfl (hlt hc (by simp)) ⟨?_, fun x hx => ?_⟩ ⟨rfl, .inl hm⟩
        (by simp [snapshots]) (by simp)
      · exact AList.lookup_erase _ _
      · exact AList.lookup_erase_ne hx
    · cases hs
  | lockActive =>
    obtain ⟨-, rfl⟩ := guarded_eq_ok.1 hs
    exact ⟨fun tx => { h.call tx with }, by rintro m hm; cases hm; rfl, h.horizons⟩
  | loadHorizon =>
    simp only [SnapshotCalls.step] at hs
    split at hs
    · next hm =>
      cases hs
      exact h.loadHorizon hm hreg
    · cases hs

/-- In every run that reads the horizon only when the snapshots still to be registered are as new as
the published CSN or some registered snapshot is as old as they are, no horizon that was passed to
the heap exceeds the visible CSN of a transaction that has taken its snapshot and not ended, whether
it began before the vacuum or after, and whether or not it has replaced its snapshot. -/
theorem horizon_le_snapshots {acts : List SnapshotAction}
    (hrun : Run SnapshotCalls.step Registered start acts s)
    {h : Nat} (hh : h ∈ s.horizons) (tx : Nat) : ∀ csn ∈ (s.calls tx).snapshots, h ≤ csn := by
  have hinv : Inv s := hrun.invariant (I := fun _ s => Inv s) inv_start fun _ _ _ _ h hreg hs =>
      h.step hreg hs
  exact (hinv.call tx).horizons h hh

def commitOf (tx : Nat) : List SnapshotAction :=
  [.begin, .takeSnapshot tx, .register tx, .reserve tx, .complete tx, .advance, .unregister tx]

def passedTrace : List SnapshotAction :=
  [.begin, .takeSnapshot 1] ++ commitOf 2 ++ [.lockActive, .loadHorizon]

/-- Transaction 1 has read CSN 0 and not registered it when transaction 2 publishes CSN 1 and vacuum
takes the published CSN as its horizon. -/
theorem horizon_passes_snapshot :
    ∃ s, Run SnapshotCalls.step (fun _ _ => True) start passedTrace s ∧
    1 ∈ s.horizons ∧ s.calls 1 = .taken 0 := by
  decide +kernel

def heldTrace : List SnapshotAction :=
  commitOf 1 ++ [.begin, .takeSnapshot 2, .register 2] ++ commitOf 3 ++ [.lockActive, .loadHorizon]

theorem horizon_le_snapshots_held : ∃ s, Run SnapshotCalls.step Registered start heldTrace s ∧
    s.status.publishedCsn = 2 ∧ 1 ∈ s.horizons ∧ s.calls 2 = .active 1 ∧
    ∀ tx, ∀ csn ∈ (s.calls tx).snapshots, 1 ≤ csn := by
  obtain ⟨s, hrun, hp, hh, h2⟩ : ∃ s, Run SnapshotCalls.step Registered start heldTrace s ∧
      s.status.publishedCsn = 2 ∧ 1 ∈ s.horizons ∧ s.calls 2 = .active 1 := by decide +kernel
  exact ⟨s, hrun, hp, hh, h2, horizon_le_snapshots hrun hh⟩

end SnapshotCalls
end RedlineDb
