import RedlineDb.Format
import RedlineDb.Lib.Run

/-!
# Write-ahead log

The log of `wal/`: records at byte positions (LSNs) in fixed-size segments. `WalCoordinator` keeps
every record appended and not pruned, oldest first, and how far the log is reserved, written and
durable. A record that does not fit the rest of a segment starts the next one. Once the writer
thread has failed (`failure`) every append and every flush is refused.
-/

namespace RedlineDb
open Lib

def walHeaderLen : Nat := 48

inductive WalRecordKind
  | pageImage | pageDelta | commit
deriving DecidableEq

/-- The payloads heap, index and commit write. A page image keeps the length of the page's bytes. -/
inductive WalPayload
  | heapInsert (txId relId rowId : Nat) (payload : Bytes)
  | heapUpdate (txId relId rowId : Nat) (payload : Bytes)
  | heapDelete (txId relId rowId : Nat)
  | indexInsert (txId indexId : Nat) (logicalKey : Bytes) (row : IndexRowRef)
  | indexDelete (txId indexId : Nat) (logicalKey : Bytes) (row : IndexRowRef)
  | commit (txId csn : Nat)
  | pageImage (pageId pageLsn pageLen : Nat) (page : Page)
deriving DecidableEq

def WalPayload.encodedLen : WalPayload → Nat
  | .heapInsert _ _ _ payload => 29 + payload.length
  | .heapUpdate _ _ _ payload => 29 + payload.length
  | .heapDelete _ _ _ => 25
  | .indexInsert _ _ key _ => 43 + key.length
  | .indexDelete _ _ key _ => 43 + key.length
  | .commit _ _ => 17
  | .pageImage _ _ pageLen _ => 21 + pageLen

structure WalRecord where
  lsn : Nat
  prevLsn : Nat
  txId : Nat
  kind : WalRecordKind
  payload : WalPayload
deriving DecidableEq

def WalRecord.encodedLen (r : WalRecord) : Nat := walHeaderLen + r.payload.encodedLen

def WalRecord.endLsn (r : WalRecord) : Nat := r.lsn + r.encodedLen

structure WalAppend where
  startLsn : Nat
  endLsn : Nat
deriving DecidableEq

def segmentForLsn (lsn segmentBytes : Nat) : Nat := lsn / segmentBytes + 1

def offsetForLsn (lsn segmentBytes : Nat) : Nat := lsn % segmentBytes

def reserveQueuedAppend (reservedLsn segmentBytes encodedLen : Nat) : Except Error WalAppend :=
  if encodedLen > segmentBytes then .error (.corruptWal "record larger than wal segment")
  else
    let currentOffset := offsetForLsn reservedLsn segmentBytes
    let startLsn :=
      if currentOffset > 0 ∧ currentOffset + encodedLen > segmentBytes then
        segmentForLsn reservedLsn segmentBytes * segmentBytes
      else reservedLsn
    .ok { startLsn, endLsn := startLsn + encodedLen }

structure WalCoordinator where
  segmentBytes : Nat
  walBufferBytes : Nat
  reservedLsn : Nat
  writtenLsn : Nat
  durableLsn : Nat
  prevLsn : Nat
  failure : Bool
  records : List WalRecord
deriving DecidableEq

namespace WalCoordinator

def create (segmentBytes walBufferBytes : Nat) : WalCoordinator where
  segmentBytes; walBufferBytes
  reservedLsn := 0; writtenLsn := 0; durableLsn := 0; prevLsn := 0; failure := false; records := []

/-- `open_with_scan_summary`: the log goes on after the last record the scan found. -/
def openScan (segmentBytes walBufferBytes : Nat) (records : List WalRecord) : WalCoordinator :=
  let validEndLsn := (records.getLast?.map WalRecord.endLsn).getD 0
  { segmentBytes, walBufferBytes
    reservedLsn := validEndLsn
    writtenLsn := validEndLsn
    durableLsn := 0
    prevLsn := (records.getLast?.map WalRecord.lsn).getD 0
    failure := false
    records }

variable (w : WalCoordinator)

/-- `append`: waiting for room in the queue changes nothing here, the size checks reject. -/
def append (kind : WalRecordKind) (txId : Nat) (payload : WalPayload) :
    Except Error (WalAppend × WalCoordinator) := do
  let encodedLen := walHeaderLen + payload.encodedLen
  require (encodedLen ≤ w.segmentBytes) (.corruptWal "record larger than wal segment")
  require (encodedLen ≤ w.walBufferBytes) (.corruptWal "record larger than wal buffer")
  require (¬ w.failure) (.corruptWal "wal writer failed")
  let a ← reserveQueuedAppend w.reservedLsn w.segmentBytes encodedLen
  let record := { lsn := a.startLsn, prevLsn := w.prevLsn, txId, kind, payload }
  return (a, { w with reservedLsn := a.endLsn, prevLsn := a.startLsn, records := w.records ++
    [record] })

/-- `append_commit`: the CSN is reserved under the queue's mutex, so CSNs and log positions agree.
-/
def appendCommit (txId csn : Nat) : Except Error (WalAppend × WalCoordinator) :=
  w.append .commit txId (.commit txId csn)

/-- `flush_until`: the writer thread has written and synced at least up to the target. -/
def flushUntil (target : Nat) : Except Error (Nat × WalCoordinator) := do
  require (¬ w.failure) (.corruptWal "wal writer failed")
  let w := { w with writtenLsn := max w.writtenLsn target, durableLsn := max w.durableLsn target }
  return (w.durableLsn, w)

/-- `flush_all`: everything reserved so far becomes durable; returns the durable LSN. -/
def flushAll : Except Error (Nat × WalCoordinator) := w.flushUntil w.reservedLsn

/-- `prune_segments_below_checkpoint_lsn`: drop the segments before both the checkpoint's and the
active one. -/
def pruneSegmentsBelowCheckpointLsn (checkpointLsn : Nat) : WalCoordinator :=
  let keepSegment := segmentForLsn checkpointLsn w.segmentBytes
  let activeSegment := segmentForLsn w.reservedLsn w.segmentBytes
  { w with
    records := w.records.filter fun r =>
      ¬ (segmentForLsn r.lsn w.segmentBytes < keepSegment ∧
        segmentForLsn r.lsn w.segmentBytes < activeSegment) }

end WalCoordinator

theorem segmentForLsn_mono {lsn lsn' seg : Nat} (h : lsn ≤ lsn') :
    segmentForLsn lsn seg ≤ segmentForLsn lsn' seg :=
  Nat.succ_le_succ (Nat.div_le_div_right h)

variable {reserved seg len : Nat}

theorem reserveQueuedAppend_start {a : WalAppend}
    (h : reserveQueuedAppend reserved seg len = .ok a) :
    (a.startLsn = reserved ∨ a.startLsn = segmentForLsn reserved seg * seg) ∧
    a.startLsn ≤ reserved + seg ∧
      a.endLsn = a.startLsn + len := by
  have hle : segmentForLsn reserved seg * seg ≤ reserved + seg := by
    rw [segmentForLsn, Nat.succ_mul]
    exact Nat.add_le_add_right (Nat.div_mul_le_self ..) _
  unfold reserveQueuedAppend at h
  split at h
  · cases h
  · cases h
    dsimp only
    split
    · exact ⟨.inr rfl, hle, rfl⟩
    · exact ⟨.inl rfl, Nat.le_add_right .., rfl⟩

theorem reserveQueuedAppend_ok {a : WalAppend} (hlen : 0 < len)
    (h : reserveQueuedAppend reserved seg len = .ok a) :
    len ≤ seg ∧ reserved ≤ a.startLsn ∧ a.endLsn = a.startLsn + len := by
  unfold reserveQueuedAppend at h
  split at h
  · cases h
  · next hle =>
    simp only [Except.ok.injEq] at h
    subst h
    refine ⟨by omega, ?_, rfl⟩
    dsimp only
    split
    · have hlt := Nat.lt_mul_div_succ reserved (show 0 < seg by omega)
      rw [segmentForLsn, Nat.mul_comm]
      omega
    · exact Nat.le_refl _

namespace WalCoordinator
variable {w w' : WalCoordinator} {kind : WalRecordKind} {tx : Nat} {payload : WalPayload}
    {a : WalAppend}

theorem append_ok (h : w.append kind tx payload = .ok (a, w')) :
    w.reservedLsn ≤ a.startLsn ∧ a.endLsn = a.startLsn + (walHeaderLen + payload.encodedLen) ∧
      w' = { w with
        reservedLsn := a.endLsn
        prevLsn := a.startLsn
        records := w.records ++ [⟨a.startLsn, w.prevLsn, tx, kind, payload⟩] } := by
  simp only [append, bind_eq_ok, pure_eq_ok, Prod.mk.injEq] at h
  obtain ⟨_, _, _, _, _, _, _, ha, rfl, rfl⟩ := h
  obtain ⟨_, h1, h2⟩ := reserveQueuedAppend_ok (by unfold walHeaderLen; omega) ha
  exact ⟨h1, h2, rfl⟩

end WalCoordinator
end RedlineDb
