import Mathlib.Data.List.Chain
import RedlineDb.WalQueue

/-!
# The semantic combiner

Page deltas that add to columns of a row are merged while they wait in the coordinator's queue: the
last queued record is replaced by one with the deltas of both and the replacements of both, the
later winning. The queue stays laid out (`WellFormed`). What a record says is read as the recovery
test of the source does, every delta and then every replacement, so a delta that follows a
replacement of its column is lost by the merge.
-/

namespace RedlineDb.WalFile
open Lib List

abbrev Short := { bs : Bytes // bs.length < 2 ^ 32 }

/-- `CombinedReplacementValue`, the numbers as their bits. -/
inductive ReplacementValue
  | null
  | integer (n : UInt64)
  | real (bits : UInt64)
  | text (bs : Short)
  | blob (bs : Short)
deriving DecidableEq

structure SemanticDelta where
  txId : UInt64
  relId : UInt64
  rowId : UInt64
  deltas : List (UInt16 × UInt64)
  replacements : List (UInt16 × ReplacementValue)
  batchedCount : UInt32
deriving DecidableEq

def putShort (bs : Short) : Bytes := leBytes 4 bs.val.length ++ bs.val

/-- Four bytes always hold a number below `2 ^ 32`. -/
def getShort (bs : Bytes) : Option (Short × Bytes) := do
  let (len, bs) ← getLe 4 bs
  if h : (bs.take len).length = len ∧ len < 2 ^ 32 then
    return (⟨bs.take len, h.1.trans_lt h.2⟩, bs.drop len)
  else none

def encodeCombinedValue : ReplacementValue → Bytes
  | .null => [0]
  | .integer n => 1 :: leBytes 8 n.toNat
  | .real bits => 2 :: leBytes 8 bits.toNat
  | .text bs => 3 :: putShort bs
  | .blob bs => 4 :: putShort bs

def decodeCombinedValue : Bytes → Option (ReplacementValue × Bytes)
  | [] => none
  | tag :: bs =>
    if tag = 0 then some (.null, bs)
    else if tag = 1 then (getLe 8 bs).map fun x => (.integer (.ofNat x.1), x.2)
    else if tag = 2 then (getLe 8 bs).map fun x => (.real (.ofNat x.1), x.2)
    else if tag = 3 then (getShort bs).map fun x => (.text x.1, x.2)
    else if tag = 4 then (getShort bs).map fun x => (.blob x.1, x.2)
    else none

def putDelta (x : UInt16 × UInt64) : Bytes := leBytes 2 x.1.toNat ++ leBytes 8 x.2.toNat

def getDelta (bs : Bytes) : Option ((UInt16 × UInt64) × Bytes) := do
  let (col, bs) ← getLe 2 bs
  let (delta, bs) ← getLe 8 bs
  return ((.ofNat col, .ofNat delta), bs)

def putReplacement (x : UInt16 × ReplacementValue) : Bytes :=
  leBytes 2 x.1.toNat ++ encodeCombinedValue x.2

def getReplacement (bs : Bytes) : Option ((UInt16 × ReplacementValue) × Bytes) := do
  let (col, bs) ← getLe 2 bs
  let (value, bs) ← decodeCombinedValue bs
  return ((.ofNat col, value), bs)

namespace SemanticDelta

def bytes (d : SemanticDelta) : Bytes :=
  14 :: (leBytes 8 d.txId.toNat ++ (leBytes 8 d.relId.toNat ++ (leBytes 8 d.rowId.toNat ++
    (leBytes 4 d.batchedCount.toNat ++ (leBytes 4 d.deltas.length ++ (d.deltas.flatMap putDelta ++
      (leBytes 4 d.replacements.length ++ d.replacements.flatMap putReplacement)))))))

def encode (d : SemanticDelta) : Except Error Bytes := do
  require (d.deltas.length ≤ 2 ^ 32 - 1 ∧ d.replacements.length ≤ 2 ^ 32 - 1)
    (.corruptWal "combined semantic delta too large")
  return d.bytes

/-- `decode_combined_semantic_delta`; its callers only ask whether it succeeds. -/
def decode : Bytes → Option SemanticDelta
  | [] => none
  | tag :: bs => do
    guard (tag = 14)
    let (txId, bs) ← getLe 8 bs
    let (relId, bs) ← getLe 8 bs
    let (rowId, bs) ← getLe 8 bs
    let (batchedCount, bs) ← getLe 4 bs
    let (deltaCount, bs) ← getLe 4 bs
    let (deltas, bs) ← getMany getDelta deltaCount bs
    let (replCount, bs) ← getLe 4 bs
    let (replacements, bs) ← getMany getReplacement replCount bs
    guard (bs = [])
    return ⟨.ofNat txId, .ofNat relId, .ofNat rowId, deltas, replacements, .ofNat batchedCount⟩

end SemanticDelta

theorem getShort_putShort (bs : Short) (b : Bytes) :
    getShort (putShort bs ++ b) = some (bs, b) := by
  have h : bs.val.length < 2 ^ 32 := bs.property
  have hle : bs.val.length < 256 ^ 4 := h
  simpa [getShort, putShort, getLe_leBytes hle] using h

theorem getLe_uint16 (n : UInt16) (b : Bytes) :
    getLe 2 (leBytes 2 n.toNat ++ b) = some (n.toNat, b) :=
  getLe_leBytes n.toNat_lt b

theorem getLe_uint32 (n : UInt32) (b : Bytes) :
    getLe 4 (leBytes 4 n.toNat ++ b) = some (n.toNat, b) :=
  getLe_leBytes n.toNat_lt b

theorem getLe_uint64 (n : UInt64) (b : Bytes) :
    getLe 8 (leBytes 8 n.toNat ++ b) = some (n.toNat, b) :=
  getLe_leBytes n.toNat_lt b

theorem decodeCombinedValue_encode (v : ReplacementValue) (b : Bytes) :
    decodeCombinedValue (encodeCombinedValue v ++ b) = some (v, b) := by
  cases v <;> simp [decodeCombinedValue, encodeCombinedValue, getLe_uint64, getShort_putShort]

theorem getDelta_putDelta (x : UInt16 × UInt64) (b : Bytes) :
    getDelta (putDelta x ++ b) = some (x, b) := by
  simp [getDelta, putDelta, getLe_uint16, getLe_uint64]

theorem getReplacement_putReplacement (x : UInt16 × ReplacementValue) (b : Bytes) :
    getReplacement (putReplacement x ++ b) = some (x, b) := by
  simp [getReplacement, putReplacement, getLe_uint16, decodeCombinedValue_encode]

theorem SemanticDelta.decode_of_encode {d : SemanticDelta} {bs : Bytes} (h : d.encode = .ok bs) :
    decode bs = some d := by
  obtain ⟨⟨hd, hr⟩, rfl⟩ := guarded_eq_ok.1 h
  have hd : d.deltas.length < 256 ^ 4 := by omega
  have hr : d.replacements.length < 256 ^ 4 := by omega
  have hend := getMany_flatMap getReplacement_putReplacement d.replacements []
  rw [append_nil] at hend
  simp [decode, bytes, getLe_uint64, getLe_uint32, getLe_leBytes hd, getLe_leBytes hr,
    getMany_flatMap getDelta_putDelta, hend]

/-! ### What a record does to a column -/

/-- `merge_combined_semantic_delta_parts` for one replacement: the last slot of the column, or a new
one. -/
def mergeReplacement : List (UInt16 × ReplacementValue) → UInt16 × ReplacementValue →
    List (UInt16 × ReplacementValue)
  | [], r => [r]
  | x :: xs, r => if x.1 = r.1 ∧ r.1 ∉ xs.map Prod.fst then r :: xs else x :: mergeReplacement xs r

def lastOf : List (UInt16 × ReplacementValue) → UInt16 → Option ReplacementValue
  | [], _ => none
  | x :: xs, col => lastOf xs col <|> if x.1 = col then some x.2 else none

/-- `AssignmentPlan::IntegerDelta` in `apply_plans`, with the addition of floats as a parameter; a
delta on a text or a blob is refused there, so that no record has one. -/
def addDelta (realAdd : UInt64 → UInt64 → UInt64) : ReplacementValue → UInt64 → ReplacementValue
  | .integer n, delta => .integer (n + delta)
  | .real bits, delta => .real (realAdd bits delta)
  | v, _ => v

namespace SemanticDelta

def merge (left right : SemanticDelta) : SemanticDelta :=
  { left with
    deltas := left.deltas ++ right.deltas
    replacements := right.replacements.foldl mergeReplacement left.replacements
    -- `saturating_add`
    batchedCount := .ofNat (min (left.batchedCount.toNat + right.batchedCount.toNat) (2 ^ 32 - 1)) }

variable (realAdd : UInt64 → UInt64 → UInt64)

def addDeltas (d : SemanticDelta) (col : UInt16) (v : ReplacementValue) : ReplacementValue :=
  (d.deltas.filter (·.1 = col)).foldl (fun v x => addDelta realAdd v x.2) v

def apply (d : SemanticDelta) (col : UInt16) (v : ReplacementValue) : ReplacementValue :=
  (lastOf d.replacements col).getD (d.addDeltas realAdd col v)

/-- Where `left` replaces a column and `right` does not, the deltas of `right` change nothing. -/
def Keeps (left right : SemanticDelta) : Prop :=
  ∀ col v, lastOf left.replacements col = some v → lastOf right.replacements col = none →
    right.addDeltas realAdd col v = v

end SemanticDelta

theorem lastOf_eq_none {rs : List (UInt16 × ReplacementValue)} {col : UInt16}
    (h : col ∉ rs.map Prod.fst) :
    lastOf rs col = none := by
  induction rs with
  | nil => rfl
  | cons x xs ih =>
    rw [map_cons, mem_cons, not_or] at h
    rw [lastOf, ih h.2, if_neg (Ne.symm h.1)]
    rfl

theorem lastOf_mergeReplacement (rs : List (UInt16 × ReplacementValue))
    (r : UInt16 × ReplacementValue) (col : UInt16) :
    lastOf (mergeReplacement rs r) col = if r.1 = col then some r.2 else lastOf rs col := by
  induction rs with
  | nil => simp [mergeReplacement, lastOf]
  | cons x xs ih =>
    rw [mergeReplacement]
    split
    · next h =>
      by_cases hc : r.1 = col
      · simp [lastOf, hc, lastOf_eq_none (hc ▸ h.2)]
      · simp [lastOf, hc, h.1]
    · rw [lastOf, ih]
      by_cases hc : r.1 = col
      · simp [hc]
      · simp [lastOf, hc]

theorem lastOf_foldl (left right : List (UInt16 × ReplacementValue)) (col : UInt16) :
    lastOf (right.foldl mergeReplacement left) col = (lastOf right col <|> lastOf left col) := by
  induction right generalizing left with
  | nil => rfl
  | cons r rs ih =>
    rw [foldl_cons, ih, lastOf_mergeReplacement, lastOf]
    cases lastOf rs col with
    | some v => rfl
    | none => split <;> rfl

/-- The merged record does the same as the two in order exactly when no delta comes behind a
replacement. -/
theorem SemanticDelta.apply_merge_iff {realAdd : UInt64 → UInt64 → UInt64}
    {left right : SemanticDelta} :
    (∀ col v, (left.merge right).apply realAdd col v = right.apply realAdd col
      (left.apply realAdd col v)) ↔
      left.Keeps realAdd right := by
  have happly : ∀ col v, (left.merge right).apply realAdd col v =
      (lastOf right.replacements col <|> lastOf left.replacements col).getD
        (right.addDeltas realAdd col (left.addDeltas realAdd col v)) := by
    intro col v
    rw [apply, merge, lastOf_foldl]
    simp only [addDeltas, filter_append, foldl_append]
  constructor
  · intro h col v hl hr
    have := h col v
    rw [happly, apply, apply, hl, hr] at this
    exact this.symm
  · intro h col v
    rw [happly, apply, apply]
    cases hr : lastOf right.replacements col with
    | some w => rfl
    | none =>
      cases hl : lastOf left.replacements col with
      | none => rfl
      | some w => exact (h col w hl hr).symm

/-- The fields of `WalCoordinatorState` that appends use. -/
structure PendingLog where
  reservedLsn : Nat
  prevLsn : Nat
  pendingBytes : Nat
  pending : List QueuedRecord
  failure : Bool

/-- `append_with_payload` first tries to fold and, if that does nothing, enqueues; another append
may come between. -/
inductive PendingAction
  | fold (txId : UInt64) (payload : Bytes)
  | enqueue (kind : Kind) (txId : UInt64) (payload : Bytes)
  | write
  | fail

namespace PendingLog

def start (endLsn prevLsn : UInt64) : PendingLog := ⟨endLsn.toNat, prevLsn.toNat, 0, [], false⟩

def lastDelta (s : PendingLog) : Option SemanticDelta := do
  let q ← s.pending.getLast?
  let last ← (Record.decode q.encoded).toOption
  SemanticDelta.decode last.payload

section
variable (c : WalConfig) (walBufferBytes : Nat) (s : PendingLog)

/-- `try_fold_pending_combined_semantic_delta` of a page delta; nothing happens where it returns
`None`. -/
def tryFold (right : SemanticDelta) : Except Error PendingLog :=
  match s.pending.getLast? with
  | none => .error (.corruptWal "not folded")
  | some q => do
    let last ← Record.decode q.encoded
    require (last.kind = .pageDelta ∧ last.txId = right.txId.toNat) (.corruptWal "not folded")
    match SemanticDelta.decode last.payload with
    | none => .error (.corruptWal "not folded")
    | some left =>
      require (left.txId = right.txId ∧ left.relId = right.relId ∧ left.rowId = right.rowId)
        (.corruptWal "not folded")
      let payload ← (left.merge right).encode
      let len := walHeaderLen + payload.length
      require (len ≤ c.segmentBytes ∧ len ≤ walBufferBytes) (.corruptWal "not folded")
      require (q.encoded.length ≤ s.pendingBytes) (.corruptWal "pending WAL bytes overflow")
      let pendingBytes := s.pendingBytes - q.encoded.length + len
      require (pendingBytes ≤ walBufferBytes) (.corruptWal "not folded")
      require (offsetForLsn q.append.startLsn c.segmentBytes + len ≤ c.segmentBytes)
        (.corruptWal "not folded")
      let encoded ← Record.encode { last with lsn := q.append.startLsn, payload }
      return { s with
        reservedLsn := q.append.startLsn + len
        pendingBytes
        pending := s.pending.dropLast ++ [⟨⟨q.append.startLsn, q.append.startLsn + len⟩, encoded⟩] }

/-- `enqueue_reserved_record`: what is reserved stays reserved when the record cannot be encoded. -/
def enqueue (kind : Kind) (txId : UInt64) (payload : Bytes) : Except Error PendingLog := do
  let a ← reserveQueuedAppend s.reservedLsn c.segmentBytes (walHeaderLen + payload.length)
  match Record.encode
    { lsn := a.startLsn, prevLsn := s.prevLsn, txId := txId.toNat, kind, payload } with
  | .error _ => return { s with reservedLsn := a.endLsn }
  | .ok encoded =>
    return { s with
      reservedLsn := a.endLsn
      prevLsn := a.startLsn
      pendingBytes := s.pendingBytes + encoded.length
      pending := s.pending ++ [⟨a, encoded⟩] }

/-- The two critical sections of an append, the writer taking a record off the queue, and a failure.
-/
def step : PendingAction → Except Error PendingLog
  | .fold txId payload => do
    let len := walHeaderLen + payload.length
    require (len ≤ c.segmentBytes ∧ len ≤ walBufferBytes)
      (.corruptWal "record larger than wal segment or buffer")
    require (s.failure = false) (.corruptWal "wal writer failed")
    match SemanticDelta.decode payload with
    | none => .error (.corruptWal "not folded")
    | some right =>
      require (right.txId = txId) (.corruptWal "not folded")
      s.tryFold c walBufferBytes right
  | .enqueue kind txId payload => do
    require (s.failure = false) (.corruptWal "wal writer failed")
    require (walHeaderLen + payload.length ≤ walBufferBytes - s.pendingBytes) .lockTimeout
    s.enqueue c kind txId payload
  | .write =>
    match s.pending with
    | [] => .error (.corruptWal "nothing to write")
    | q :: pending => .ok { s with pending, pendingBytes := s.pendingBytes - q.encoded.length }
  | .fail => .ok { s with failure := true }

/-- The LSNs handed out fit `u64`, and the payload its length field. -/
def Fits : PendingAction → Prop
  | .enqueue _ _ payload => payload.length < 2 ^ 32 ∧ s.reservedLsn + 2 * c.segmentBytes < 2 ^ 64
  | .fold _ _ => s.reservedLsn + 2 * c.segmentBytes < 2 ^ 64
  | _ => True

structure Laid (s : PendingLog) : Prop where
  contiguous : s.pending.IsChain fun q q' => q'.append.startLsn = q.append.endLsn ∨
    q'.append.startLsn = segmentForLsn q.append.endLsn c.segmentBytes * c.segmentBytes
  reserved : ∀ q ∈ s.pending.getLast?, s.reservedLsn = q.append.endLsn
  bytes : s.pendingBytes = (s.pending.map fun q => q.encoded.length).sum

structure WellFormed (s : PendingLog) : Prop extends Laid c s where
  decodes : ∀ q ∈ s.pending, q.append.endLsn = q.append.startLsn + q.encoded.length ∧
    ∃ r, Record.decode q.encoded = .ok r ∧ r.lsn = q.append.startLsn

structure Inv (s : PendingLog) : Prop extends Laid c s where
  records : ∀ q ∈ s.pending, q.append.endLsn = q.append.startLsn + q.encoded.length ∧
    ∃ r : Record, r.Fits ∧ q.encoded = r.encoded ∧ r.lsn = q.append.startLsn
  prev : s.prevLsn < 2 ^ 64

end

variable {c : WalConfig} {walBufferBytes : Nat} {s s' : PendingLog}

theorem Inv.wellFormed (h : Inv c s) : WellFormed c s := by
  refine ⟨h.toLaid, fun q hq => ?_⟩
  obtain ⟨hend, r, hr, he, hlsn⟩ := h.records q hq
  exact ⟨hend, r, he ▸ r.decode_encoded hr, hlsn⟩

theorem Inv.enqueue (h : Inv c s) {kind : Kind} {txId : UInt64} {payload : Bytes}
    (hf : Fits c s (.enqueue kind txId payload)) (hs : s.enqueue c kind txId payload = .ok s') :
    Inv c s' := by
  obtain ⟨hlen, hroom⟩ := hf
  simp only [PendingLog.enqueue, bind_eq_ok] at hs
  obtain ⟨a, ha, hs⟩ := hs
  obtain ⟨hstart, hle, hend⟩ := reserveQueuedAppend_start ha
  have hpay : payload.length ≤ 2 ^ 32 - 1 := by omega
  have hr : Record.Fits
      { lsn := a.startLsn, prevLsn := s.prevLsn, txId := txId.toNat, kind, payload } :=
    ⟨by dsimp only; omega, h.prev, txId.toNat_lt, hlen⟩
  simp only [Record.encode, require, if_pos hpay] at hs
  cases hs
  refine ⟨⟨isChain_append.2 ⟨h.contiguous, by simp, ?_⟩, by simp, ?_⟩, ?_, hr.lsn⟩
  · intro q hq q' hq'
    cases hq'
    exact h.reserved q hq ▸ hstart
  · simp [h.bytes]
  · intro q hq
    rcases mem_append.1 hq with hq | hq
    · exact h.records q hq
    · rw [mem_singleton.1 hq]
      refine ⟨?_, _, hr, rfl, rfl⟩
      rw [hend, Record.length_encoded]
      rfl

/-- What an accepted fold did: the records of the queue before, and the delta of the new last one.
-/
theorem Inv.tryFold (h : Inv c s) {right : SemanticDelta}
    (hs : s.tryFold c walBufferBytes right = .ok s') :
    Inv c s' ∧ ∃ left, s.lastDelta = some left ∧ s'.lastDelta = some (left.merge right) := by
  unfold PendingLog.tryFold at hs
  split at hs
  · cases hs
  · next q hq =>
    obtain ⟨init, hp⟩ := getLast?_eq_some_iff.1 hq
    obtain ⟨hend, r, hr, he, hlsn⟩ := h.records q (by simp [hp])
    simp only [bind_eq_ok, require_eq_ok] at hs
    obtain ⟨last, hlast, -, ⟨hkind, htx⟩, hs⟩ := hs
    obtain rfl : r = last := by simpa [he, r.decode_encoded hr] using hlast
    split at hs
    · cases hs
    · next left hleft =>
      simp only [Record.encode, bind_eq_ok, require_eq_ok, pure_eq_ok] at hs
      obtain ⟨-, -, payload, hpay, -, -, -, hold, -, -, -, -, encoded, ⟨-, hlen, rfl⟩, rfl⟩ := hs
      have hr' : Record.Fits { r with lsn := q.append.startLsn, payload } :=
        ⟨hlsn ▸ hr.lsn, hr.prevLsn, hr.txId, by dsimp only; omega⟩
      refine ⟨⟨⟨?_, by simp, ?_⟩, ?_, h.prev⟩, left, ?_, ?_⟩
      · have hc := h.contiguous
        rw [hp, isChain_append] at hc
        simp only [hp, dropLast_concat]
        refine isChain_append.2 ⟨hc.1, by simp, fun x hx y hy => ?_⟩
        cases hy
        exact hc.2.2 x hx q rfl
      · have hb := h.bytes
        simp only [hp, map_append, map_cons, map_nil, sum_append, sum_singleton] at hb
        simp only [hp, dropLast_concat, map_append, map_cons, map_nil, sum_append,
          sum_singleton, Record.length_encoded, Record.encodedLen, hb]
        omega
      · intro q' hq'
        simp only [hp, dropLast_concat] at hq'
        rcases mem_append.1 hq' with hq' | hq'
        · exact h.records q' (by simp [hp, hq'])
        · rw [mem_singleton.1 hq']
          refine ⟨?_, _, hr', rfl, rfl⟩
          rw [Record.length_encoded]
          rfl
      · simp [lastDelta, hq, he, r.decode_encoded hr, Except.toOption, hleft]
      · simp [lastDelta, Record.decode_encoded hr', Except.toOption,
          SemanticDelta.decode_of_encode hpay]

theorem step_fold {txId : UInt64} {payload : Bytes}
    (hs : s.step c walBufferBytes (.fold txId payload) = .ok s') :
    ∃ right, SemanticDelta.decode payload = some right ∧
      s.tryFold c walBufferBytes right = .ok s' := by
  simp only [PendingLog.step, bind_eq_ok, require_eq_ok] at hs
  obtain ⟨-, -, -, -, hs⟩ := hs
  split at hs
  · cases hs
  · next right hright =>
    simp only [bind_eq_ok, require_eq_ok] at hs
    obtain ⟨-, -, hs⟩ := hs
    exact ⟨right, hright, hs⟩

theorem Inv.step (h : Inv c s) {a : PendingAction} (hf : Fits c s a)
    (hs : s.step c walBufferBytes a = .ok s') : Inv c s' := by
  cases a with
  | fold txId payload =>
    obtain ⟨right, -, hs⟩ := step_fold hs
    exact (h.tryFold hs).1
  | enqueue kind txId payload =>
    simp only [PendingLog.step, bind_eq_ok, require_eq_ok] at hs
    obtain ⟨-, -, -, -, hs⟩ := hs
    exact h.enqueue hf hs
  | write =>
    simp only [PendingLog.step] at hs
    split at hs
    · cases hs
    · next q qs hp =>
      cases hs
      obtain ⟨⟨hc, hlast, hb⟩, hrec, hprev⟩ := h
      simp only [hp] at hc hlast hb hrec
      refine ⟨⟨hc.tail, fun q' hq' => hlast q' ?_, ?_⟩,
        fun q' hq' => hrec q' (by simp [hq']), hprev⟩
      · cases qs with
        | nil => cases hq'
        | cons x xs => simpa using hq'
      · simp [hb]
  | fail =>
    cases hs
    exact { h with }

/-- However appends, merges and writes interleave: the queue is contiguous, the reserved LSN is the
end of its last record, the byte count is that of its records, and every record decodes with its
start LSN. A merged record does to each column what the two do in order exactly when the second adds
nothing to a column the first replaces. -/
theorem fold_wellFormed {endLsn prevLsn : UInt64} {acts : List PendingAction}
    (realAdd : UInt64 → UInt64 → UInt64)
    (hrun : Run (step c walBufferBytes) (Fits c) (start endLsn prevLsn) acts s) :
    WellFormed c s ∧ ∀ txId payload s', s.step c walBufferBytes (.fold txId payload) = .ok s' →
      ∃ left right merged, s.lastDelta = some left ∧ SemanticDelta.decode payload = some right ∧
        s'.lastDelta = some merged ∧
        ((∀ col v, merged.apply realAdd col v = right.apply realAdd col
          (left.apply realAdd col v)) ↔
          left.Keeps realAdd right) := by
  have h : Inv c s := hrun.invariant (I := fun _ s => Inv c s)
    ⟨⟨isChain_nil, by simp [start], rfl⟩, by simp [start], prevLsn.toNat_lt⟩ fun _ _ _ _ h hf hs =>
      h.step hf hs
  refine ⟨h.wellFormed, fun txId payload s' hs => ?_⟩
  obtain ⟨right, hright, hs⟩ := step_fold hs
  obtain ⟨-, left, hl, hm⟩ := h.tryFold hs
  exact ⟨left, right, _, hl, hright, hm, SemanticDelta.apply_merge_iff⟩

instance decidableFits (c : WalConfig) (s : PendingLog) :
    (a : PendingAction) → Decidable (Fits c s a)
  | .enqueue .. => inferInstanceAs (Decidable (_ ∧ _))
  | .fold .. => inferInstanceAs (Decidable (_ < _))
  | .write => .isTrue trivial
  | .fail => .isTrue trivial

def oneRow (deltas : List (UInt16 × UInt64)) (replacements : List (UInt16 × ReplacementValue)) :
    SemanticDelta :=
  ⟨1, 7, 1, deltas, replacements, 1⟩

def twoRecords : WalConfig := ⟨200, by decide⟩

theorem fold_wellFormed_increments : ∃ s s' merged,
    Run (step twoRecords 400) (Fits twoRecords) (start 0 0)
      [.enqueue .pageDelta 1 (oneRow [(0, 1)] []).bytes] s ∧
    s.step twoRecords 400 (.fold 1 (oneRow [(0, 1)] []).bytes) = .ok s' ∧ WellFormed twoRecords s ∧
    s'.lastDelta = some merged ∧ ∀ col v, merged.apply (fun bits _ => bits) col v =
      (oneRow [(0, 1)] []).apply (fun bits _ => bits) col
      ((oneRow [(0, 1)] []).apply (fun bits _ => bits) col v) := by
  obtain ⟨s, hrun, hl, s', hs⟩ : ∃ s,
      Run (step twoRecords 400) (Fits twoRecords) (start 0 0)
        [.enqueue .pageDelta 1 (oneRow [(0, 1)] []).bytes] s ∧
      s.lastDelta = some (oneRow [(0, 1)] []) ∧
      ∃ s' ∈ (s.step twoRecords 400 (.fold 1 (oneRow [(0, 1)] []).bytes)).toOption, True := by
        decide +kernel
  have hs := mem_toOption.1 hs.1
  obtain ⟨hw, hfold⟩ := fold_wellFormed (fun bits _ => bits) hrun
  obtain ⟨left, right, merged, hleft, hright, hm, hiff⟩ := hfold _ _ _ hs
  cases hl.symm.trans hleft
  cases (SemanticDelta.decode_of_encode (d := oneRow [(0, 1)] []) rfl).symm.trans hright
  refine ⟨s, s', merged, hrun, hs, hw, hm, hiff.2 ?_⟩
  intro _ _ h
  cases h

/-- The first record replaces column `0` by `5`, the second adds `1` to it: the merged one leaves
`5`, not `6`. -/
theorem fold_loses_increment :
    ∃ s s' merged, Run (step twoRecords 400) (Fits twoRecords) (start 0 0)
      [.enqueue .pageDelta 1 (oneRow [] [(0, .integer 5)]).bytes] s ∧
    s.step twoRecords 400 (.fold 1 (oneRow [(0, 1)] []).bytes) = .ok s' ∧
      s'.lastDelta = some merged ∧
    merged.apply (fun bits _ => bits) 0 .null = .integer 5 ∧
    (oneRow [(0, 1)] []).apply (fun bits _ => bits) 0
      ((oneRow [] [(0, .integer 5)]).apply (fun bits _ => bits) 0 .null) = .integer 6 := by
  obtain ⟨s, hrun, s', hs, merged, hm, happly⟩ : ∃ s,
      Run (step twoRecords 400) (Fits twoRecords) (start 0 0)
        [.enqueue .pageDelta 1 (oneRow [] [(0, .integer 5)]).bytes] s ∧
      ∃ s' ∈ (s.step twoRecords 400 (.fold 1 (oneRow [(0, 1)] []).bytes)).toOption,
        ∃ merged ∈ s'.lastDelta, merged.apply (fun bits _ => bits) 0 .null = .integer 5 := by
          decide +kernel
  exact ⟨s, s', merged, hrun, mem_toOption.1 hs, hm, happly, by decide +kernel⟩

end PendingLog
end RedlineDb.WalFile
