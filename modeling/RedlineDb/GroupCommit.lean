import RedlineDb.WalQueue

/-!
# Group commit

`wal_writer_loop` and the callers of the coordinator, one step for each stretch the code runs under
the coordinator's mutex or for each call of the writer on its own files: callers queue records and
wait in `flush_until` or `write_until`; the writer takes a batch from the queue, writes its records
one by one, publishes the written LSN, and when a flush was asked for widens its target once, drains
the queue up to it, syncs the active file and publishes the durable LSN. The batch sizes and the
decision to widen come from the schedule policy and are left open.
-/

namespace RedlineDb.WalFile
open Lib List

inductive AfterBatch
  | flush (target : Nat)
  | drain (target : Nat)
  | rest (shutdown : Bool)

inductive WriterPhase
  | idle
  | writing (batch : List QueuedRecord) (lastWritten : Nat) (next : AfterBatch)
  | window (target : Nat)
  | draining (target : Nat)
  | flushing (requested : Bool)
  | synced (durableLsn : Nat) (requested : Bool)
  | stopped (lost : List QueuedRecord)

/-- The coordinator's state and its writer. `queue.placed` are the records in the segment files and
`unsynced` those of them whose file was not synced since they were written; the source keeps
neither. -/
structure Coordinator where
  queue : Queue
  writtenLsn : Nat
  durableLsn : Nat
  writeRequested : Bool
  flushRequestedLsn : Nat
  shutdown : Bool
  failure : Bool
  flushOnShutdown : Bool
  writer : WriterPhase
  unsynced : List Placed

inductive CoordinatorAction
  | append (kind : Kind) (txId : Nat) (payload : Bytes) (combined : Bool)
  | fold (txId : Nat) (merged : Bytes)
  | requestFlush (target : Nat)
  | flushReturns (target : Nat)
  | requestWrite
  | writeReturns (target : Nat)
  | close
  | wake (batchLimit : Nat)
  | writeRecord
  | ioError
  | publishWritten
  | resample (widen : Bool)
  | drain (maxBatchBytes : Nat)
  | sync
  | publishDurable

def popUntil (stop : Nat → QueuedRecord → Bool) :
    Nat → List QueuedRecord → List QueuedRecord × List QueuedRecord
  | _, [] => ([], [])
  | bytes, q :: qs =>
    let bytes := bytes + q.encoded.length
    if stop bytes q then ([q], qs)
    else
      let (batch, rest) := popUntil stop bytes qs
      (q :: batch, rest)

namespace Coordinator

/-- A coordinator over a log that ends at `endLsn`; `old` are the records the files hold, `unsynced`
those of them that may not have reached the disk. -/
def start (config : WalConfig) (walBufferBytes endLsn prevLsn : Nat) (files : Files)
    (flushOnShutdown : Bool)
    (old unsynced : List Placed) : Coordinator where
  queue := { Queue.start config walBufferBytes endLsn prevLsn files with placed := old }
  writtenLsn := endLsn
  durableLsn := 0
  writeRequested := false
  flushRequestedLsn := 0
  shutdown := false
  failure := false
  flushOnShutdown
  writer := .idle
  unsynced

variable (s : Coordinator)

/-- One round of the writer's loop up to its first batch. -/
def wake (batchLimit : Nat) : Except Error Coordinator := do
  require (s.writeRequested ∨ s.durableLsn < s.flushRequestedLsn ∨ s.shutdown)
    (.corruptWal "wal coordinator wait")
  if s.shutdown ∧ s.queue.pending.isEmpty then return { s with writer := .stopped [] }
  let (batch, pending) := popUntil (fun bytes _ => batchLimit ≤ bytes) 0 s.queue.pending
  return { s with
    queue := { s.queue with pending }
    writeRequested := !pending.isEmpty
    writer := .writing batch 0
      (if s.durableLsn < s.flushRequestedLsn then .flush s.flushRequestedLsn
        else .rest s.shutdown) }

def writeRecord (q : QueuedRecord) (batch : List QueuedRecord) (next : AfterBatch) : Coordinator :=
  match s.queue.wal.writeEncoded q.append q.encoded with
  | .error _ => { s with failure := true, writer := .stopped (q :: batch) }
  | .ok wal =>
    let p : Placed :=
      ⟨q.append.startLsn, q.encoded.length, wal.activeSegment, wal.activeOffset - q.encoded.length⟩
    let left := if wal.activeSegment = s.queue.wal.activeSegment then s.unsynced
      else s.unsynced.filter fun p => p.segment ≠ s.queue.wal.activeSegment
    { s with
      queue := { s.queue with wal, placed := s.queue.placed ++ [p] }
      unsynced := left ++ [p]
      writer := .writing batch q.append.endLsn next }

def publishWritten (lastWritten : Nat) (next : AfterBatch) : Coordinator :=
  { s with
    writtenLsn := if lastWritten ≠ 0 then max s.writtenLsn lastWritten else s.writtenLsn
    writer :=
      match next with
      | .flush target => .window target
      | .drain target => .draining target
      | .rest shutdown => if shutdown ∧ s.flushOnShutdown ∧ lastWritten ≠ 0 then .flushing false
          else .idle }

/-- One round of `drain_until`; it waits while the queue is empty. -/
def drain (target maxBatchBytes : Nat) : Except Error Coordinator :=
  if target ≤ s.queue.wal.writtenLsn then .ok { s with writer := .flushing true }
  else do
    require (s.queue.pending ≠ []) (.corruptWal "wal coordinator wait")
    let (batch, pending) :=
      popUntil (fun bytes q => max maxBatchBytes 1 ≤ bytes ∨ target ≤ q.append.endLsn) 0
        s.queue.pending
    return { s with queue := { s.queue with pending }, writer := .writing batch 0 (.drain target) }

/-- The writer's steps that touch its files or publish what it did; `ioError` is a failing write or
sync. -/
def step : CoordinatorAction → Except Error Coordinator
  | .append kind txId payload combined => do
    require (¬ s.failure) (.corruptWal "wal writer failed")
    let queue ← s.queue.step (.append kind txId payload)
    return { s with queue, writeRequested := s.writeRequested || !combined }
  | .fold txId merged => do
    require (¬ s.failure) (.corruptWal "wal writer failed")
    let queue ← s.queue.step (.fold txId merged)
    return { s with queue }
  | .requestFlush target => do
    require (¬ s.failure ∧ s.durableLsn < target) (.corruptWal "wal writer failed")
    return { s with flushRequestedLsn := max s.flushRequestedLsn target }
  | .flushReturns target => do
    require (¬ s.failure ∧ target ≤ s.durableLsn) (.corruptWal "wal writer failed")
    return s
  | .requestWrite => do
    require (¬ s.failure) (.corruptWal "wal writer failed")
    return { s with writeRequested := true }
  | .writeReturns target => do
    require (¬ s.failure ∧ target ≤ s.writtenLsn) (.corruptWal "wal writer failed")
    return s
  | .close => .ok { s with shutdown := true }
  | .wake batchLimit =>
    match s.writer with
    | .idle => s.wake batchLimit
    | _ => .error (.corruptWal "writer elsewhere")
  | .writeRecord =>
    match s.writer with
    | .writing (q :: batch) _ next => .ok (s.writeRecord q batch next)
    | _ => .error (.corruptWal "writer elsewhere")
  | .ioError =>
    match s.writer with
    | .writing (q :: batch) _ _ => .ok { s with failure := true, writer := .stopped (q :: batch) }
    | .flushing _ => .ok { s with failure := true, writer := .stopped [] }
    | _ => .error (.corruptWal "writer elsewhere")
  | .publishWritten =>
    match s.writer with
    | .writing [] lastWritten next => .ok (s.publishWritten lastWritten next)
    | _ => .error (.corruptWal "writer elsewhere")
  | .resample widen =>
    match s.writer with
    | .window target =>
      .ok { s with
        writer := .draining (if target < s.flushRequestedLsn ∧ widen then s.flushRequestedLsn
          else target) }
    | _ => .error (.corruptWal "writer elsewhere")
  | .drain maxBatchBytes =>
    match s.writer with
    | .draining target => s.drain target maxBatchBytes
    | _ => .error (.corruptWal "writer elsewhere")
  | .sync =>
    match s.writer with
    | .flushing requested =>
      .ok { s with
        unsynced := s.unsynced.filter fun p => p.segment ≠ s.queue.wal.activeSegment
        writer := .synced s.queue.wal.writtenLsn requested }
    | _ => .error (.corruptWal "writer elsewhere")
  | .publishDurable =>
    match s.writer with
    | .synced durableLsn requested =>
      .ok { s with
        durableLsn
        flushRequestedLsn := if requested ∧ s.flushRequestedLsn ≤ durableLsn then
          0 else s.flushRequestedLsn
        writer := .idle }
    | _ => .error (.corruptWal "writer elsewhere")

def inflight : List QueuedRecord :=
  match s.writer with
  | .writing batch _ _ => batch
  | .stopped lost => lost
  | _ => []

def unwritten : Queue := { s.queue with pending := s.inflight ++ s.queue.pending }

/-- A record is queued where the writer will put it, and a merged record is not shorter than the one
it replaces. -/
def StepOk : CoordinatorAction → Prop
  | .append kind txId payload _ => s.unwritten.PositionOk (.append kind txId payload)
  | .fold txId merged => s.unwritten.PositionOk (.fold txId merged) ∧
      ∀ q ∈ s.queue.pending.getLast?, q.encoded.length ≤ walHeaderLen + merged.length
  | _ => True

/-! ### The queue behind the batch -/

variable {s} {s' : Coordinator} {a : CoordinatorAction}

theorem popUntil_append (stop : Nat → QueuedRecord → Bool) (bytes : Nat) (qs : List QueuedRecord) :
    (popUntil stop bytes qs).1 ++ (popUntil stop bytes qs).2 = qs := by
  induction qs generalizing bytes with
  | nil => rfl
  | cons q qs ih =>
    rw [popUntil]
    split
    · rfl
    · simpa using ih (bytes + q.encoded.length)

def behind (batch : List QueuedRecord) (Q : Queue) : Queue :=
  { Q with
    walBufferBytes := Q.walBufferBytes + (batch.map fun q => q.encoded.length).sum
    pending := batch ++ Q.pending }

theorem pendingBytes_behind (batch : List QueuedRecord) (Q : Queue) :
    (behind batch Q).pendingBytes = (batch.map fun q => q.encoded.length).sum + Q.pendingBytes := by
  rw [Queue.pendingBytes, behind, map_append, sum_append, Queue.pendingBytes]

variable {Q Q' : Queue} {last txId : Nat} {batch qs : List QueuedRecord}

theorem behind_append {kind : Kind} {payload : Bytes}
    (h : Q.step (.append kind txId payload) = .ok Q') :
    (behind batch Q).step (.append kind txId payload) = .ok (behind batch Q') := by
  simp only [Queue.step, Queue.enqueueReservedRecord, bind_eq_ok, require_eq_ok] at h ⊢
  obtain ⟨_, hlen, _, hroom, a, ha, h⟩ := h
  refine ⟨(), hlen, (), ?_, a, ha, ?_⟩
  · rw [pendingBytes_behind]
    show _ ≤ Q.walBufferBytes + (batch.map fun q => q.encoded.length).sum
    omega
  · rw [show (behind batch Q).prevLsn = Q.prevLsn from rfl]
    cases henc : Record.encode ⟨a.startLsn, Q.prevLsn, txId, kind, payload⟩ with
    | error e =>
      rw [henc] at h
      cases h
      rfl
    | ok encoded =>
      rw [henc] at h
      cases h
      simp [behind, pure, Except.pure]

theorem behind_fold {merged : Bytes}
    (h : Q.step (.fold txId merged) = .ok Q') : (behind batch Q).step (.fold txId merged) =
    .ok (behind batch Q') := by
  rcases eq_nil_or_concat Q.pending with hp | ⟨qs, q, hp⟩
  · simp [Queue.step, Queue.foldPending, hp] at h
  rw [concat_eq_append] at hp
  have hlast : (behind batch Q).pending.getLast? = some q := by
    rw [behind, hp, ← append_assoc, getLast?_concat]
  have hdrop : (behind batch Q).pending.dropLast = batch ++ qs := by
    rw [behind, hp, ← append_assoc, dropLast_concat]
  simp only [Queue.step, Queue.foldPending, hp, getLast?_concat, dropLast_concat, bind_eq_ok,
    require_eq_ok, pure_eq_ok] at h
  obtain ⟨last, hdec, _, hsame, _, hlen, _, hroom, _, hfit, encoded, henc, rfl⟩ := h
  simp only [Queue.step, Queue.foldPending, hlast, hdrop, bind_eq_ok, require_eq_ok, pure_eq_ok]
  refine ⟨last, hdec, (), hsame, (), ⟨hlen.1, hlen.2.trans (Nat.le_add_right _ _)⟩, (), ?_, (),
    hfit, encoded, henc, ?_⟩
  · rw [pendingBytes_behind]
    show _ ≤ Q.walBufferBytes + (batch.map fun q => q.encoded.length).sum
    omega
  · simp [behind]

theorem queueInv_behind :
    Queue.QueueInv (behind batch Q) ↔ Queue.QueueInv { Q with pending := batch ++ Q.pending } :=
  ⟨fun h => { h with },
    fun h => { h with }⟩

/-! ### The written end of the log -/

structure Ordered (Q : Queue) : Prop where
  written : Q.wal.writtenLsn = lsnOf Q.wal.config.segmentBytes Q.wal.pos
  order : Q.placed.Pairwise fun p p' => p.startLsn + p.len ≤ p'.startLsn
  below : ∀ p ∈ Q.placed, 0 < p.len ∧ p.startLsn + p.len ≤ Q.wal.writtenLsn

theorem Ordered.write {q : QueuedRecord} {wal : Manager} (hI : Queue.QueueInv Q)
    (h : Ordered Q) (hp : Q.pending = q :: qs)
    (hw : Q.wal.writeEncoded q.append q.encoded = .ok wal) :
    Ordered { Q with
      pending := qs
      wal
      placed := Q.placed ++
        [⟨q.append.startLsn, q.encoded.length, wal.activeSegment,
          wal.activeOffset - q.encoded.length⟩] } ∧
      wal.writtenLsn = q.append.endLsn ∧ Q.wal.writtenLsn ≤ q.append.startLsn ∧
        q.append.startLsn < q.append.endLsn := by
  have hmem : q ∈ Q.pending := hp ▸ mem_cons_self ..
  obtain ⟨hpos, hlen⟩ := hI.sized q hmem
  have hend := hI.ends q hmem
  have hlaid := hI.laid
  rw [hp] at hlaid
  obtain ⟨hlt, hstart, -⟩ := hlaid
  obtain ⟨hpos', hcfg⟩ := Manager.writeEncoded_pos hI.pos hlt hstart hw
  have hwritten : wal.writtenLsn = q.append.endLsn := by
    obtain ⟨-, ⟨-, rfl⟩ | ⟨-, -, -, -, rfl⟩⟩ := Manager.writeEncoded_eq_ok.1 hw
    · rfl
    · rfl
  have hge : Q.wal.writtenLsn ≤ q.append.startLsn := by
    rw [h.written, hstart]
    exact le_nextStart hI.pos.segment hI.pos.offset
  refine ⟨⟨?_, ?_, ?_⟩, hwritten, hge, by omega⟩
  · show wal.writtenLsn = lsnOf wal.config.segmentBytes wal.pos
    rw [hwritten, hend, hstart, hpos', hcfg, lsnOf_nextPos]
  · refine pairwise_append.2 ⟨h.order, pairwise_singleton .., ?_⟩
    intro p hp p' hp'
    rw [mem_singleton.1 hp']
    exact (h.below p hp).2.trans hge
  · intro p hp
    rw [hwritten]
    rcases mem_append.1 hp with hp | hp
    · have := h.below p hp
      exact ⟨this.1, by omega⟩
    · rw [mem_singleton.1 hp]
      exact ⟨hpos, hend.symm.le⟩

def PhaseOk (s : Coordinator) : Prop :=
  match s.writer with
  | .writing _ lastWritten _ =>
    if lastWritten = 0 then s.writtenLsn = s.queue.wal.writtenLsn else lastWritten =
      s.queue.wal.writtenLsn
  | .synced durableLsn _ => s.writtenLsn = s.queue.wal.writtenLsn ∧
      durableLsn = s.queue.wal.writtenLsn ∧ s.unsynced = []
  | .stopped _ => True
  | _ => s.writtenLsn = s.queue.wal.writtenLsn

structure Inv (s : Coordinator) : Prop where
  queue : Queue.QueueInv s.unwritten
  ordered : Ordered s.unwritten
  unsynced : ∀ p ∈ s.unsynced, p.segment = s.queue.wal.activeSegment ∧ s.durableLsn ≤ p.startLsn ∧
    p ∈ s.queue.placed
  durable : s.durableLsn ≤ s.writtenLsn
  written : s.writtenLsn ≤ s.queue.wal.writtenLsn
  phase : PhaseOk s

section
variable (h : Inv s)
include h

theorem Inv.reserved : s.queue.wal.writtenLsn ≤ s.queue.reservedLsn := by
  have hw : s.queue.wal.writtenLsn = _ := h.ordered.written
  have hr : s.queue.reservedLsn = _ := h.queue.reserved
  rw [hw, hr]
  exact (laid_ge h.queue.pos.segment h.queue.pos.offset (fun q hq => (h.queue.sized q hq).2)
    h.queue.laid).2

/-- Nothing is written, and no record gets lost on its way from the queue to the writer. -/
theorem Inv.handOver {pending : List QueuedRecord} {writer : WriterPhase} {flushRequestedLsn : Nat}
    {writeRequested shutdown failure : Bool} (hs' : s' = { s with
      queue := { s.queue with pending }, writer, flushRequestedLsn, writeRequested, shutdown,
        failure })
    (hpending : s'.inflight ++ pending = s.inflight ++ s.queue.pending) (hphase : PhaseOk s') :
    Inv s' := by
  have hq := h.queue
  have ho := h.ordered
  unfold unwritten at hq ho
  rw [← hpending] at hq ho
  subst hs'
  exact ⟨hq, ho, h.unsynced, h.durable, h.written, hphase⟩

theorem Inv.setQueue {writeRequested : Bool} {reservedLsn prevLsn : Nat}
    {pending : List QueuedRecord}
    (hQ : Queue.QueueInv { s.queue with reservedLsn, prevLsn, pending := s.inflight ++ pending }) :
    Inv { s with queue := { s.queue with reservedLsn, prevLsn, pending }, writeRequested } :=
  ⟨hQ, { h.ordered with }, h.unsynced, h.durable, h.written, h.phase⟩

structure Later (s s' : Coordinator) : Prop where
  durable : s.durableLsn ≤ s'.durableLsn
  written : s.writtenLsn ≤ s'.writtenLsn
  reserved : s.queue.reservedLsn ≤ s'.queue.reservedLsn

omit h in
theorem Later.of_eq (hd : s'.durableLsn = s.durableLsn) (hw : s'.writtenLsn = s.writtenLsn)
    (hr : s'.queue.reservedLsn = s.queue.reservedLsn) : Later s s' :=
  ⟨hd.symm.le, hw.symm.le, hr.symm.le⟩

theorem Inv.append {kind : Kind} {payload : Bytes} {combined : Bool}
    (hok : StepOk s (.append kind txId payload combined))
    (hs : s.queue.step (.append kind txId payload) = .ok Q) :
    Inv { s with queue := Q, writeRequested := s.writeRequested || !combined } ∧
      s.queue.reservedLsn ≤ Q.reservedLsn := by
  have hpos : (behind s.inflight s.queue).PositionOk (.append kind txId payload) := hok
  have hQ := (queueInv_behind.2 h.queue).step hpos (behind_append hs)
  obtain ⟨-, a, encoded, ha, hel, rfl⟩ := Queue.append_eq_ok hok.1.1 hs
  obtain ⟨-, h1, h2⟩ := reserveQueuedAppend_ok (by unfold walHeaderLen; omega) ha
  refine ⟨h.setQueue (queueInv_behind.1 hQ), ?_⟩
  show s.queue.reservedLsn ≤ a.endLsn
  omega

theorem Inv.fold {merged : Bytes} (hok : StepOk s (.fold txId merged))
    (hs : s.queue.step (.fold txId merged) = .ok Q) : Inv { s with queue := Q } ∧
    s.queue.reservedLsn ≤ Q.reservedLsn := by
  have hpos : (behind s.inflight s.queue).PositionOk (.fold txId merged) := hok.1
  have hQ := (queueInv_behind.2 h.queue).step hpos (behind_fold hs)
  obtain ⟨qs, q, encoded, hp, hel, -, -, rfl⟩ := Queue.fold_eq_ok hs
  refine ⟨h.setQueue (queueInv_behind.1 hQ), ?_⟩
  -- the last record ends at the reserved LSN
  have hlen := hok.2 q (by rw [hp, getLast?_concat]; rfl)
  have hlaid := h.queue.laid
  have hres : s.queue.reservedLsn = _ := h.queue.reserved
  have hpend : s.unwritten.pending = (s.inflight ++ qs) ++ [q] := by
    rw [unwritten, hp, append_assoc]
  rw [hpend, laid_append] at hlaid
  rw [hpend, endPos_concat, lsnOf_nextPos, ← hlaid.2.2.1] at hres
  rw [hres, hel]
  exact Nat.add_le_add_left hlen _

theorem Inv.wake {batchLimit : Nat} (hidle : s.writer = .idle) (hs : s.wake batchLimit = .ok s') :
    Inv s' ∧ Later s s' := by
  have hin : s.inflight = [] := by rw [inflight, hidle]
  have hphase := h.phase
  rw [PhaseOk, hidle] at hphase
  simp only [Coordinator.wake, bind_eq_ok, require_eq_ok] at hs
  obtain ⟨_, -, hs⟩ := hs
  split at hs
  · next hstop =>
    cases hs
    refine ⟨h.handOver rfl ?_ trivial, .of_eq rfl rfl rfl⟩
    rw [hin]
    rfl
  · cases hs
    refine ⟨h.handOver rfl ?_ hphase, .of_eq rfl rfl rfl⟩
    rw [hin]
    exact popUntil_append ..

theorem Inv.drain {target maxBatchBytes : Nat} (hd : s.writer = .draining target)
    (hs : s.drain target maxBatchBytes = .ok s') : Inv s' ∧ Later s s' := by
  have hin : s.inflight = [] := by rw [inflight, hd]
  have hphase := h.phase
  rw [PhaseOk, hd] at hphase
  unfold Coordinator.drain at hs
  split at hs
  · cases hs
    refine ⟨h.handOver rfl ?_ hphase, .of_eq rfl rfl rfl⟩
    rw [hin]
    rfl
  · simp only [bind_eq_ok, pure_eq_ok] at hs
    obtain ⟨_, -, rfl⟩ := hs
    refine ⟨h.handOver rfl ?_ hphase, .of_eq rfl rfl rfl⟩
    rw [hin]
    exact popUntil_append ..

theorem Inv.writeRecord {q : QueuedRecord} {next : AfterBatch}
    (hw : s.writer = .writing (q :: batch) last next) :
    Inv (s.writeRecord q batch next) ∧ Later s (s.writeRecord q batch next) := by
  have hpend : s.unwritten.pending = q :: (batch ++ s.queue.pending) := by
    rw [unwritten, inflight, hw]
    rfl
  unfold Coordinator.writeRecord
  split
  · refine ⟨h.handOver rfl ?_ trivial, .of_eq rfl rfl rfl⟩
    rw [inflight, inflight, hw]
  · next wal he =>
    refine ⟨?_, .of_eq rfl rfl rfl⟩
    have hq := h.queue.write ((Queue.writeNext_eq_ok hpend).2 ⟨wal, he, rfl⟩)
    obtain ⟨ho, hend, hge, hlt⟩ := h.ordered.write h.queue hpend he
    have hd : s.durableLsn ≤ q.append.startLsn :=
      h.durable.trans (h.written.trans hge)
    constructor
    case queue => exact hq
    case ordered => exact ho
    case unsynced =>
      intro p hp
      rcases mem_append.1 hp with hp | hp
      · -- what was unsynced is in the file still active, or the rotation has synced it
        split at hp
        · next hsame =>
          obtain ⟨h1, h2, h3⟩ := h.unsynced p hp
          exact ⟨h1.trans hsame.symm, h2, mem_append_left _ h3⟩
        · obtain ⟨hm, hne⟩ := mem_filter.1 hp
          exact absurd (h.unsynced p hm).1 (of_decide_eq_true hne)
      · rw [mem_singleton.1 hp]
        exact ⟨rfl, hd, mem_append_right _ (mem_singleton_self _)⟩
    case durable => exact h.durable
    case written =>
      show s.writtenLsn ≤ wal.writtenLsn
      have := h.written
      have hg : s.queue.wal.writtenLsn ≤ q.append.startLsn := hge
      omega
    case phase =>
      show if q.append.endLsn = 0 then _ else q.append.endLsn = wal.writtenLsn
      rw [if_neg (by omega)]
      exact hend.symm

theorem Inv.publishWritten {next : AfterBatch} (hw : s.writer = .writing [] last next) :
    Inv (s.publishWritten last next) ∧ Later s (s.publishWritten last next) := by
  have hphase := h.phase
  rw [PhaseOk, hw] at hphase
  have hwritten : (if last ≠ 0 then max s.writtenLsn last else s.writtenLsn) =
      s.queue.wal.writtenLsn := by
    dsimp only at hphase
    split at hphase
    · next h0 => rw [if_neg (not_not_intro h0), hphase]
    · next h0 =>
      rw [if_pos h0, hphase]
      exact max_eq_right h.written
  have hpub : (s.publishWritten last next).writtenLsn = s.queue.wal.writtenLsn := hwritten
  have hin : (s.publishWritten last next).inflight = [] := by
    unfold inflight Coordinator.publishWritten
    cases next with
    | flush target => rfl
    | drain target => rfl
    | rest shutdown =>
      dsimp only
      split
      · next he => split at he <;> cases he
      · next he => split at he <;> cases he
      · rfl
  have hunw : (s.publishWritten last next).unwritten = s.unwritten := by
    rw [unwritten, unwritten, hin, inflight, hw]
    rfl
  refine ⟨⟨?_, ?_, h.unsynced, ?_, ?_, ?_⟩, le_rfl, ?_, le_rfl⟩
  · rw [hunw]
    exact h.queue
  · rw [hunw]
    exact h.ordered
  · rw [hpub]
    exact h.durable.trans h.written
  · exact hpub.le
  · unfold PhaseOk
    cases next with
    | flush target => exact hpub
    | drain target => exact hpub
    | rest shutdown =>
      by_cases hc : shutdown ∧ s.flushOnShutdown ∧ last ≠ 0
      · have hwr : (s.publishWritten last (.rest shutdown)).writer = .flushing false := if_pos hc
        rw [hwr]
        exact hpub
      · have hwr : (s.publishWritten last (.rest shutdown)).writer = .idle := if_neg hc
        rw [hwr]
        exact hpub
  · rw [hpub]
    exact h.written

theorem Inv.sync {requested : Bool} (hw : s.writer = .flushing requested) :
    Inv { s with
      unsynced := s.unsynced.filter fun p => p.segment ≠ s.queue.wal.activeSegment
      writer := .synced s.queue.wal.writtenLsn requested } := by
  have hphase := h.phase
  rw [PhaseOk, hw] at hphase
  have hnil : (s.unsynced.filter fun p => p.segment ≠ s.queue.wal.activeSegment) = [] := by
    rw [filter_eq_nil_iff]
    intro p hp
    rw [decide_eq_true_eq]
    exact not_not_intro (h.unsynced p hp).1
  have hunw : s.unwritten = { s.queue with pending := [] ++ s.queue.pending } := by
    rw [unwritten, inflight, hw]
  have hq := h.queue
  have ho := h.ordered
  rw [hunw] at hq ho
  refine ⟨hq, ho, ?_, h.durable, h.written, hphase, rfl, hnil⟩
  intro p hp
  exact h.unsynced p (mem_filter.1 hp).1

theorem Inv.publishDurable {d : Nat} {requested : Bool} (hw : s.writer = .synced d requested) :
    Inv { s with
      durableLsn := d
      flushRequestedLsn := if requested ∧ s.flushRequestedLsn ≤ d then 0 else s.flushRequestedLsn
      writer := .idle } ∧ s.durableLsn ≤ d := by
  have hphase := h.phase
  rw [PhaseOk, hw] at hphase
  obtain ⟨h1, h2, h3⟩ := hphase
  have hunw : s.unwritten = { s.queue with pending := [] ++ s.queue.pending } := by
    rw [unwritten, inflight, hw]
  have hq := h.queue
  have ho := h.ordered
  rw [hunw] at hq ho
  have hle : s.durableLsn ≤ d := by
    rw [h2, ← h1]
    exact h.durable
  refine ⟨⟨hq, ho, ?_, ?_, h.written, h1⟩, hle⟩
  · intro p hp
    have hp' : p ∈ s.unsynced := hp
    rw [h3] at hp'
    cases hp'
  · show d ≤ s.writtenLsn
    rw [h1, h2]

theorem Inv.step (hok : StepOk s a) (hs : s.step a = .ok s') : Inv s' ∧ Later s s' := by
  cases a with
  | append kind txId payload combined =>
    simp only [Coordinator.step, bind_eq_ok, pure_eq_ok] at hs
    obtain ⟨_, -, Q, hQ, rfl⟩ := hs
    obtain ⟨hI, hres⟩ := h.append hok hQ
    exact ⟨hI, le_rfl, le_rfl, hres⟩
  | fold txId merged =>
    simp only [Coordinator.step, bind_eq_ok, pure_eq_ok] at hs
    obtain ⟨_, -, Q, hQ, rfl⟩ := hs
    obtain ⟨hI, hres⟩ := h.fold hok hQ
    exact ⟨hI, le_rfl, le_rfl, hres⟩
  | requestFlush target | requestWrite =>
    simp only [Coordinator.step, bind_eq_ok, pure_eq_ok] at hs
    obtain ⟨_, -, rfl⟩ := hs
    exact ⟨h.handOver rfl rfl h.phase, .of_eq rfl rfl rfl⟩
  | flushReturns target | writeReturns target =>
    simp only [Coordinator.step, bind_eq_ok, pure_eq_ok] at hs
    obtain ⟨_, -, rfl⟩ := hs
    exact ⟨h, .of_eq rfl rfl rfl⟩
  | close =>
    cases hs
    exact ⟨h.handOver rfl rfl h.phase, .of_eq rfl rfl rfl⟩
  | wake batchLimit =>
    simp only [Coordinator.step] at hs
    split at hs
    · next hidle => exact h.wake hidle hs
    · cases hs
  | writeRecord =>
    simp only [Coordinator.step] at hs
    split at hs
    · next hw =>
      cases hs
      exact h.writeRecord hw
    · cases hs
  | ioError =>
    simp only [Coordinator.step] at hs
    split at hs
    · next hw =>
      cases hs
      refine ⟨h.handOver rfl ?_ trivial, .of_eq rfl rfl rfl⟩
      rw [inflight, inflight, hw]
    · next hw =>
      cases hs
      refine ⟨h.handOver rfl ?_ trivial, .of_eq rfl rfl rfl⟩
      rw [inflight, inflight, hw]
    · cases hs
  | publishWritten =>
    simp only [Coordinator.step] at hs
    split at hs
    · next hw =>
      cases hs
      exact h.publishWritten hw
    · cases hs
  | resample widen =>
    simp only [Coordinator.step] at hs
    split at hs
    · next hw =>
      cases hs
      have hphase := h.phase
      rw [PhaseOk, hw] at hphase
      refine ⟨h.handOver rfl ?_ hphase, .of_eq rfl rfl rfl⟩
      rw [inflight, inflight, hw]
    · cases hs
  | drain maxBatchBytes =>
    simp only [Coordinator.step] at hs
    split at hs
    · next hd => exact h.drain hd hs
    · cases hs
  | sync =>
    simp only [Coordinator.step] at hs
    split at hs
    · next hw =>
      cases hs
      exact ⟨h.sync hw, .of_eq rfl rfl rfl⟩
    · cases hs
  | publishDurable =>
    simp only [Coordinator.step] at hs
    split at hs
    · next hw =>
      cases hs
      obtain ⟨hI, hle⟩ := h.publishDurable hw
      exact ⟨hI, hle, le_rfl, le_rfl⟩
    · cases hs

/-- What an opening found: the records of the log, in order up to its end, and those that may not
have reached the disk are in the file that becomes active. -/
structure Opened (config : WalConfig) (endLsn : Nat) (old unsynced : List Placed) : Prop where
  placed : ∀ p ∈ old, p.Ok config.segmentBytes ∧ 0 < p.len ∧ p.startLsn + p.len ≤ endLsn
  order : old.Pairwise fun p p' => p.startLsn + p.len ≤ p'.startLsn
  unsynced : ∀ p ∈ unsynced, p ∈ old ∧ p.segment = segmentForLsn endLsn config.segmentBytes

omit h in
theorem inv_start {config : WalConfig} {endLsn : Nat} {old unsynced : List Placed}
    (h : Opened config endLsn old unsynced)
    (walBufferBytes prevLsn : Nat) (files : Files) (flushOnShutdown : Bool) :
    Inv (start config walBufferBytes endLsn prevLsn files flushOnShutdown old unsynced) := by
  have hq := Queue.queueInv_start config walBufferBytes endLsn prevLsn files
  constructor
  case queue =>
    exact ⟨hq.pos, hq.sized, hq.ends, hq.laid, hq.reserved, fun p hp => (h.placed p hp).1⟩
  case ordered => exact ⟨hq.reserved, h.order, fun p hp => (h.placed p hp).2⟩
  case unsynced => exact fun p hp => ⟨(h.unsynced p hp).2, Nat.zero_le _, (h.unsynced p hp).1⟩
  case durable => exact Nat.zero_le _
  case written => exact le_rfl
  case phase => exact rfl

structure DurableUpTo (s : Coordinator) (t : Nat) : Prop where
  written : ∀ q ∈ s.inflight ++ s.queue.pending, t < q.append.endLsn
  order : s.queue.placed.Pairwise fun p p' => p.startLsn + p.len ≤ p'.startLsn
  placed : ∀ p ∈ s.queue.placed, p.Ok s.queue.wal.config.segmentBytes
  synced : ∀ p ∈ s.queue.placed, p.startLsn + p.len ≤ t → p ∉ s.unsynced

theorem Inv.durableUpTo {t : Nat} (ht : t ≤ s.durableLsn) : DurableUpTo s t := by
  have hd := h.durable
  have hw := h.written
  constructor
  case written =>
    intro q hq
    have hge := h.queue.pending_ge q hq
    have hwl : s.queue.wal.writtenLsn = _ := h.ordered.written
    have hlen := (h.queue.sized q hq).1
    rw [h.queue.ends q hq]
    omega
  case order => exact h.ordered.order
  case placed => exact h.queue.placed
  case synced =>
    intro p hp hle hun
    have := (h.unsynced p hun).2.1
    have := (h.ordered.below p hp).1
    omega

end

/-- When records are queued where the writer will put them, `flush_until` returns only when
everything up to its target is durable, and the three LSNs are in order and never go back. -/
theorem flush_until_durable {config : WalConfig} {walBufferBytes endLsn prevLsn : Nat}
    {files : Files}
    {flushOnShutdown : Bool} {old unsynced : List Placed} {acts : List CoordinatorAction}
    (hopen : Opened config endLsn old unsynced) (hrun : Run Coordinator.step StepOk
      (start config walBufferBytes endLsn prevLsn files flushOnShutdown old unsynced) acts s) :
    (s.durableLsn ≤ s.writtenLsn ∧ s.writtenLsn ≤ s.queue.reservedLsn) ∧
      (∀ a s', StepOk s a → s.step a = .ok s' → Later s s') ∧
      ∀ t s', s.step (.flushReturns t) = .ok s' → DurableUpTo s t := by
  have h : Inv s := hrun.invariant (I := fun _ s => Inv s) (inv_start hopen ..)
      fun _ _ _ _ hI hok hs => (hI.step hok hs).1
  refine ⟨⟨h.durable, h.written.trans h.reserved⟩, fun a s' hok hs => (h.step hok hs).2, ?_⟩
  intro t s' hs
  simp only [Coordinator.step, bind_eq_ok, require_eq_ok] at hs
  obtain ⟨_, ⟨-, ht⟩, -⟩ := hs
  exact h.durableUpTo ht

instance (s : Coordinator) (a : CoordinatorAction) : Decidable (StepOk s a) := by
  unfold StepOk
  split <;> infer_instance

def small : Coordinator := start .small 1000 0 0 ∅ false [] []

def appendOf (n : Nat) : CoordinatorAction :=
  .append .pageDelta 1 (List.replicate (n - walHeaderLen) 0) false

def flushTwo : List CoordinatorAction :=
  [.requestFlush 160, .wake 1000, .writeRecord, .writeRecord, .publishWritten, .resample false,
    .drain 1, .sync,
    .publishDurable]

def flushed (places : List (Nat × Nat × Nat)) (s : Coordinator) : Bool :=
  decide ((s.queue.placed.map fun p => (p.startLsn, p.segment, p.offset)) = places) &&
    (s.step (.flushReturns 160)).toBool

theorem flush_until_durable_rotated :
    ∃ s s', Run Coordinator.step StepOk small ([appendOf 60, appendOf 60] ++ flushTwo) s ∧
    s.step (.flushReturns 160) = .ok s' ∧
    (s.queue.placed.map fun p => (p.startLsn, p.segment, p.offset)) = [(0, 1, 0), (100, 2, 0)] ∧
    DurableUpTo s 160 := by
  obtain ⟨s, hrun, hq⟩ :
      ∃ s, Run Coordinator.step StepOk small ([appendOf 60, appendOf 60] ++ flushTwo) s ∧
      flushed [(0, 1, 0), (100, 2, 0)] s = true := by decide +kernel
  rw [flushed, Bool.and_eq_true, decide_eq_true_eq] at hq
  cases hs : s.step (.flushReturns 160) with
  | error e =>
    rw [hs] at hq
    cases hq.2
  | ok s' =>
    have hopen : Opened .small 0 [] [] := ⟨nofun, .nil, nofun⟩
    exact ⟨s, s', hrun, hs, hq.1, (flush_until_durable hopen hrun).2.2 160 s' hs⟩

def replacement (batchedCount : Nat) (value : Bytes) : Bytes :=
  14 :: leBytes 8 1 ++ leBytes 8 7 ++ leBytes 8 1 ++ leBytes 4 batchedCount ++ leBytes 4 0 ++
    leBytes 4 1 ++
    leBytes 2 0 ++ value

def textValue : Bytes := 3 :: leBytes 4 4 ++ [97, 98, 99, 100]

def nullValue : Bytes := [0]

/-- The first record fills its segment, and the flush returns although the second one is not in its
segment; and a merged record that is shorter takes the reserved LSN back. -/
theorem flush_until_misplaced :
    (∃ s s', Run Coordinator.step (fun _ _ => True) small
      ([appendOf 100, appendOf 60] ++ flushTwo) s ∧
      s.step (.flushReturns 160) = .ok s' ∧ ¬ DurableUpTo s 160) ∧
    ∃ s s', Run Coordinator.step (fun _ _ => True) small
      [.append .pageDelta 1 (replacement 1 textValue) true] s ∧
      s.step (.fold 1 (replacement 2 nullValue)) = .ok s' ∧
        s'.queue.reservedLsn < s.queue.reservedLsn := by
  constructor
  · obtain ⟨s, hrun, hflushed, hseg⟩ : ∃ s,
        Run Coordinator.step (fun _ _ => True) small ([appendOf 100, appendOf 60] ++ flushTwo) s ∧
        flushed [(0, 1, 0), (100, 1, 100)] s = true ∧ s.queue.wal.config.segmentBytes = 100 := by
          decide +kernel
    rw [flushed, Bool.and_eq_true, decide_eq_true_eq] at hflushed
    obtain ⟨hplaces, hret⟩ := hflushed
    cases hs : s.step (.flushReturns 160) with
    | error e =>
      rw [hs] at hret
      cases hret
    | ok s' =>
      refine ⟨s, s', hrun, hs, fun h => ?_⟩
      have hmem : (100, 1, 100) ∈ s.queue.placed.map fun p =>
          (p.startLsn, p.segment, p.offset) := by
        rw [hplaces]
        exact mem_cons_of_mem _ (mem_singleton_self _)
      obtain ⟨p, hp, he⟩ := mem_map.1 hmem
      simp only [Prod.mk.injEq] at he
      have hok := (h.placed p hp).1
      rw [hseg, he.1, he.2.1] at hok
      exact absurd hok (by decide)
  · obtain ⟨s, hrun, s', hs, hlt⟩ : ∃ s,
        Run Coordinator.step (fun _ _ => True) small
          [.append .pageDelta 1 (replacement 1 textValue) true] s ∧
        ∃ s' ∈ (s.step (.fold 1 (replacement 2 nullValue))).toOption,
          s'.queue.reservedLsn < s.queue.reservedLsn := by decide +kernel
    exact ⟨s, s', hrun, mem_toOption.1 hs, hlt⟩

end Coordinator
end RedlineDb.WalFile
