import RedlineDb.WalStorage

/-!
# Positions of queued records

The coordinator gives each record its LSN when it is queued (`reserve_queued_append`), the writer
thread finds its own position in the segment files later (`write_encoded`). The two agree as long as
no record is queued behind one that fills its segment to the last byte: there the coordinator goes
on in the next segment and the writer, whose position has the same LSN, does not rotate. With the
semantic combiner on, the last queued record may also be replaced by a merged one; it has to stay
too long for the segment before, if that is why it starts its own.
-/

namespace RedlineDb.WalFile
open Lib List

structure QueuedRecord where
  append : WalAppend
  encoded : Bytes

structure Placed where
  startLsn : Nat
  len : Nat
  segment : Nat
  offset : Nat

/-- The coordinator's queue and the writer. `placed` records the writes, newest last; the source
does not keep it. -/
structure Queue where
  walBufferBytes : Nat
  reservedLsn : Nat
  prevLsn : Nat
  pending : List QueuedRecord
  wal : Manager
  placed : List Placed

/-- `fold` is the semantic combiner merging a page delta into the last queued one; how it merges the
payloads is not modelled, `merged` is any result. -/
inductive QueueAction
  | append (kind : Kind) (txId : Nat) (payload : Bytes)
  | fold (txId : Nat) (merged : Bytes)
  | write

namespace Queue

/-- A coordinator over a log that ends at `endLsn`: a new one, or one just opened. -/
def start (config : WalConfig) (walBufferBytes endLsn prevLsn : Nat) (files : Files) : Queue where
  walBufferBytes
  reservedLsn := endLsn
  prevLsn
  pending := []
  wal :=
    { config, files
      activeSegment := segmentForLsn endLsn config.segmentBytes
      activeOffset := offsetForLsn endLsn config.segmentBytes
      writtenLsn := endLsn
      prevLsn }
  placed := []

variable (s : Queue)

def pendingBytes : Nat := (s.pending.map fun q => q.encoded.length).sum

/-- `enqueue_reserved_record`: the position is reserved before the record is encoded, and stays so
when that fails. -/
def enqueueReservedRecord (kind : Kind) (txId : Nat) (payload : Bytes) : Except Error Queue := do
  let a ← reserveQueuedAppend s.reservedLsn s.wal.config.segmentBytes
    (walHeaderLen + payload.length)
  match Record.encode { lsn := a.startLsn, prevLsn := s.prevLsn, txId, kind, payload } with
  | .error _ => return { s with reservedLsn := a.endLsn }
  | .ok encoded =>
    return { s with reservedLsn := a.endLsn, prevLsn := a.startLsn, pending := s.pending ++
      [⟨a, encoded⟩] }

/-- `try_fold_pending_combined_semantic_delta` where it replaces the last queued record. -/
def foldPending (txId : Nat) (merged : Bytes) : Except Error Queue :=
  match s.pending.getLast? with
  | none => .error (.corruptWal "pending WAL queue unexpectedly empty")
  | some q => do
    let last ← Record.decode q.encoded
    require (last.kind = .pageDelta ∧ last.txId = txId) (.corruptWal "not folded")
    let len := walHeaderLen + merged.length
    require (len ≤ s.wal.config.segmentBytes ∧ len ≤ s.walBufferBytes) (.corruptWal "not folded")
    require (s.pendingBytes - q.encoded.length + len ≤ s.walBufferBytes) (.corruptWal "not folded")
    require (offsetForLsn q.append.startLsn s.wal.config.segmentBytes + len ≤
      s.wal.config.segmentBytes)
      (.corruptWal "not folded")
    let record := { last with lsn := q.append.startLsn, payload := merged }
    let encoded ← record.encode
    return { s with
      reservedLsn := q.append.startLsn + len
      pending := s.pending.dropLast ++ [⟨⟨q.append.startLsn, q.append.startLsn + len⟩, encoded⟩] }

def writeNext : Except Error Queue :=
  match s.pending with
  | [] => .error (.corruptWal "nothing to write")
  | q :: pending => do
    let wal ← s.wal.writeEncoded q.append q.encoded
    return { s with
      pending, wal
      placed := s.placed ++
        [⟨q.append.startLsn, q.encoded.length, wal.activeSegment,
          wal.activeOffset - q.encoded.length⟩] }

/-- Appends wait for room in the buffer: they are taken once there is. -/
def step : QueueAction → Except Error Queue
  | .append kind txId payload => do
    let len := walHeaderLen + payload.length
    require (len ≤ s.wal.config.segmentBytes) (.corruptWal "record larger than wal segment")
    require (s.pendingBytes + len ≤ s.walBufferBytes) (.corruptWal "record larger than wal buffer")
    s.enqueueReservedRecord kind txId payload
  | .fold txId merged => s.foldPending txId merged
  | .write => s.writeNext

def writeAll (s : Queue) : Nat → Except Error Queue
  | 0 => .ok s
  | n + 1 => do
    let s ← s.writeNext
    s.writeAll n

end Queue

def Placed.Ok (segmentBytes : Nat) (p : Placed) : Prop :=
  p.segment = segmentForLsn p.startLsn segmentBytes ∧
    p.offset = offsetForLsn p.startLsn segmentBytes ∧
    p.offset + p.len ≤ segmentBytes

/-! ### Laying records out

A write position is a segment and an offset in it, which is the segment size when the segment is
full. -/

variable {sb : Nat}

def lsnOf (sb : Nat) (p : Nat × Nat) : Nat := (p.1 - 1) * sb + p.2

def nextStart (sb : Nat) (p : Nat × Nat) (len : Nat) : Nat :=
  if p.2 + len ≤ sb then lsnOf sb p else p.1 * sb

def nextPos (sb : Nat) (p : Nat × Nat) (len : Nat) : Nat × Nat :=
  if p.2 + len ≤ sb then (p.1, p.2 + len) else (p.1 + 1, len)

def endPos (sb : Nat) (p : Nat × Nat) (qs : List QueuedRecord) : Nat × Nat :=
  qs.foldl (fun p q => nextPos sb p q.encoded.length) p

/-- The queued records follow each other from the position on, and none follows one that fills its
segment. -/
def Laid (sb : Nat) : Nat × Nat → List QueuedRecord → Prop
  | _, [] => True
  | p, q :: qs => p.2 < sb ∧ q.append.startLsn = nextStart sb p q.encoded.length ∧
      Laid sb (nextPos sb p q.encoded.length) qs

theorem laid_append {p : Nat × Nat} {qs rs : List QueuedRecord} :
    Laid sb p (qs ++ rs) ↔ Laid sb p qs ∧ Laid sb (endPos sb p qs) rs := by
  induction qs generalizing p with
  | nil => simp [Laid, endPos]
  | cons q qs ih =>
    rw [cons_append, Laid, Laid, ih, endPos, endPos, foldl_cons]
    tauto

theorem endPos_concat (p : Nat × Nat) (qs : List QueuedRecord) (q : QueuedRecord) :
    endPos sb p (qs ++ [q]) = nextPos sb (endPos sb p qs) q.encoded.length := by
  rw [endPos, foldl_append]
  rfl

section Position
variable {p : Nat × Nat} {len : Nat}

theorem segmentForLsn_lsnOf (h1 : 1 ≤ p.1) (h2 : p.2 < sb) :
    segmentForLsn (lsnOf sb p) sb = p.1 := by
  have hpos : 0 < sb := by omega
  rw [segmentForLsn, lsnOf, Nat.add_comm (_ * sb), Nat.add_mul_div_right _ _ hpos,
    Nat.div_eq_of_lt h2]
  omega

theorem offsetForLsn_lsnOf (h2 : p.2 < sb) : offsetForLsn (lsnOf sb p) sb = p.2 := by
  rw [offsetForLsn, lsnOf, Nat.mul_add_mod_self_right, Nat.mod_eq_of_lt h2]

theorem segmentForLsn_mul (k : Nat) (hpos : 0 < sb) : segmentForLsn (k * sb) sb = k + 1 := by
  rw [segmentForLsn, Nat.mul_div_cancel _ hpos]

theorem offsetForLsn_mul (k : Nat) : offsetForLsn (k * sb) sb = 0 := Nat.mul_mod_left k sb

theorem lsnOf_full (h1 : 1 ≤ p.1) (h2 : p.2 = sb) : lsnOf sb p = p.1 * sb := by
  rw [lsnOf, h2, ← Nat.succ_mul]
  congr 1
  omega

theorem lsnOf_lt (h1 : 1 ≤ p.1) (h2 : p.2 < sb) : lsnOf sb p < p.1 * sb := by
  rw [← lsnOf_full (p := (p.1, sb)) h1 rfl]
  exact Nat.add_lt_add_left h2 _

theorem nextStart_of_le (h : p.2 + len ≤ sb) : nextStart sb p len = lsnOf sb p := if_pos h

theorem nextStart_of_lt (h : sb < p.2 + len) : nextStart sb p len = p.1 * sb :=
  if_neg (Nat.not_le_of_gt h)

theorem nextPos_ok (h1 : 1 ≤ p.1) (hlen : len ≤ sb) :
    1 ≤ (nextPos sb p len).1 ∧ (nextPos sb p len).2 ≤ sb := by
  unfold nextPos
  split
  · exact ⟨h1, by assumption⟩
  · exact ⟨by omega, hlen⟩

theorem lsnOf_nextPos : lsnOf sb (nextPos sb p len) = nextStart sb p len + len := by
  unfold nextPos nextStart
  split
  · simp only [lsnOf]
    omega
  · simp only [lsnOf, Nat.add_sub_cancel]

theorem reserveQueuedAppend_lsnOf (h1 : 1 ≤ p.1) (h2 : p.2 < sb) (hlen : len ≤ sb) :
    reserveQueuedAppend (lsnOf sb p) sb len =
      .ok ⟨nextStart sb p len, nextStart sb p len + len⟩ := by
  have hseg := segmentForLsn_lsnOf h1 h2
  have hoff := offsetForLsn_lsnOf h2
  have hstart : (if 0 < p.2 ∧ sb < p.2 + len then p.1 * sb else lsnOf sb p) =
      nextStart sb p len := by
    unfold nextStart
    by_cases hfit : p.2 + len ≤ sb
    · rw [if_pos hfit, if_neg (by omega)]
    · rw [if_neg hfit, if_pos (by omega)]
  rw [reserveQueuedAppend, if_neg (by omega)]
  simp only [hseg, hoff, gt_iff_lt, hstart]

theorem le_nextStart (h1 : 1 ≤ p.1) (h2 : p.2 ≤ sb) : lsnOf sb p ≤ nextStart sb p len := by
  unfold nextStart
  split
  · exact le_rfl
  · rcases lt_or_eq_of_le h2 with h2 | h2
    · exact (lsnOf_lt h1 h2).le
    · exact (lsnOf_full h1 h2).le

theorem laid_ge {qs : List QueuedRecord} (h1 : 1 ≤ p.1) (h2 : p.2 ≤ sb)
    (hlen : ∀ q ∈ qs, q.encoded.length ≤ sb) (h : Laid sb p qs) :
    (∀ q ∈ qs, lsnOf sb p ≤ q.append.startLsn) ∧ lsnOf sb p ≤ lsnOf sb (endPos sb p qs) := by
  induction qs generalizing p with
  | nil => exact ⟨nofun, le_rfl⟩
  | cons q qs ih =>
    obtain ⟨-, hstart, hrest⟩ := h
    obtain ⟨h1', h2'⟩ := nextPos_ok (p := p) h1 (hlen q (mem_cons_self ..))
    obtain ⟨hqs, hend⟩ := ih h1' h2' (fun q' hq' => hlen q' (mem_cons_of_mem _ hq')) hrest
    have hle : lsnOf sb p ≤ nextStart sb p q.encoded.length := le_nextStart h1 h2
    have hnext : lsnOf sb p ≤ lsnOf sb (nextPos sb p q.encoded.length) := by
      rw [lsnOf_nextPos]
      omega
    refine ⟨?_, hnext.trans hend⟩
    intro q' hq'
    rcases mem_cons.1 hq' with rfl | hq'
    · exact hstart ▸ hle
    · exact hnext.trans (hqs q' hq')

end Position

namespace Manager

def pos (m : Manager) : Nat × Nat := (m.activeSegment, m.activeOffset)

structure PosOk (m : Manager) : Prop where
  segment : 1 ≤ m.activeSegment
  offset : m.activeOffset ≤ m.config.segmentBytes

variable {m m' : Manager} {a : WalAppend} {encoded : Bytes}

theorem writeEncoded_eq_ok :
    m.writeEncoded a encoded = .ok m' ↔ encoded.length ≤ m.config.segmentBytes ∧
    ((m.position = a.startLsn ∧ m' = m.put a encoded) ∨
      (m.position ≠ a.startLsn ∧ 0 < m.activeOffset ∧
        m.config.segmentBytes < m.activeOffset + encoded.length ∧
        m.rotateSegment.position = a.startLsn ∧ m' = m.rotateSegment.put a encoded)) := by
  simp only [writeEncoded, bind_eq_ok, require_eq_ok, pure_eq_ok]
  by_cases hrot : m.position ≠ a.startLsn ∧ 0 < m.activeOffset ∧
      m.config.segmentBytes < m.activeOffset + encoded.length
  · simp only [if_pos hrot]
    constructor
    · rintro ⟨-, hlen, -, hp, rfl⟩
      exact ⟨hlen, .inr ⟨hrot.1, hrot.2.1, hrot.2.2, hp, rfl⟩⟩
    · rintro ⟨hlen, ⟨hp, -⟩ | ⟨-, -, -, hp, rfl⟩⟩
      · exact absurd hp hrot.1
      · exact ⟨(), hlen, (), hp, rfl⟩
  · simp only [if_neg hrot]
    constructor
    · rintro ⟨-, hlen, -, hp, rfl⟩
      exact ⟨hlen, .inl ⟨hp, rfl⟩⟩
    · rintro ⟨hlen, ⟨hp, rfl⟩ | ⟨h1, h2, h3, -, -⟩⟩
      · exact ⟨(), hlen, (), hp, rfl⟩
      · exact absurd ⟨h1, h2, h3⟩ hrot

theorem position_rotateSegment :
    m.rotateSegment.position = m.activeSegment * m.config.segmentBytes := by
  simp [position, rotateSegment]

theorem writeEncoded_ok (h : m.writeEncoded a encoded = .ok m') :
    m'.config = m.config ∧
      ((m.position = a.startLsn ∧ m'.pos = (m.activeSegment, m.activeOffset + encoded.length)) ∨
      (0 < m.activeOffset ∧ m.config.segmentBytes < m.activeOffset + encoded.length ∧
        m.position ≠ a.startLsn ∧
        a.startLsn = m.activeSegment * m.config.segmentBytes ∧
          m'.pos = (m.activeSegment + 1, encoded.length))) := by
  obtain ⟨-, ⟨hp, rfl⟩ | ⟨hne, h0, hlt, hp, rfl⟩⟩ := writeEncoded_eq_ok.1 h
  · exact ⟨rfl, .inl ⟨hp, rfl⟩⟩
  · refine ⟨rfl, .inr ⟨h0, hlt, hne, ?_, ?_⟩⟩
    · rw [← hp, position_rotateSegment]
    · simp [pos, put, rotateSegment]

/-- A write is accepted and puts the record where its LSN says exactly when the record was laid out
behind a segment that is not full. -/
theorem writeEncoded_placed (hm : m.PosOk) (hlen : encoded.length ≤ m.config.segmentBytes)
    (hpos : 0 < encoded.length) :
    (∃ m', m.writeEncoded a encoded = .ok m' ∧ Placed.Ok m.config.segmentBytes
      ⟨a.startLsn, encoded.length, m'.activeSegment, m'.activeOffset - encoded.length⟩) ↔
    m.activeOffset < m.config.segmentBytes ∧
      a.startLsn = nextStart m.config.segmentBytes m.pos encoded.length := by
  obtain ⟨h1, h2⟩ := hm
  constructor
  · rintro ⟨m', hw, hok⟩
    obtain ⟨hseg, hoff, hfit⟩ := hok
    obtain ⟨-, ⟨hp, hpos'⟩ | ⟨h0, hlt, hne, hstart, hpos'⟩⟩ := writeEncoded_ok hw
    · simp only [pos, Prod.mk.injEq] at hpos'
      simp only [hpos'.1, hpos'.2, Nat.add_sub_cancel] at hseg hoff hfit
      have hlt : m.activeOffset < m.config.segmentBytes := by omega
      refine ⟨hlt, ?_⟩
      rw [nextStart_of_le (p := m.pos) hfit, ← hp]
      rfl
    · have hlt' : m.activeOffset < m.config.segmentBytes := by
        rcases lt_or_eq_of_le h2 with h | h
        · exact h
        · exact absurd (hstart.symm ▸ lsnOf_full (p := m.pos) h1 h) hne
      refine ⟨hlt', ?_⟩
      rw [nextStart_of_lt (p := m.pos) hlt, hstart]
      rfl
  · rintro ⟨hlt, hstart⟩
    by_cases hfit : m.activeOffset + encoded.length ≤ m.config.segmentBytes
    · rw [nextStart_of_le (p := m.pos) hfit] at hstart
      have hp : m.position = a.startLsn := hstart.symm
      refine ⟨m.put a encoded, writeEncoded_eq_ok.2 ⟨hlen, .inl ⟨hp, rfl⟩⟩, ?_⟩
      · refine ⟨?_, ?_, ?_⟩
        · exact (hstart ▸ segmentForLsn_lsnOf (p := m.pos) h1 hlt).symm
        · rw [hstart, offsetForLsn_lsnOf (p := m.pos) hlt]
          exact Nat.add_sub_cancel ..
        · simp only [put, Nat.add_sub_cancel]
          exact hfit
    · rw [nextStart_of_lt (p := m.pos) (Nat.lt_of_not_le hfit)] at hstart
      have hne : m.position ≠ a.startLsn := by
        rw [hstart]
        exact (lsnOf_lt (p := m.pos) h1 hlt).ne
      have hp : m.rotateSegment.position = a.startLsn := position_rotateSegment.trans hstart.symm
      refine ⟨m.rotateSegment.put a encoded,
        writeEncoded_eq_ok.2 ⟨hlen, .inr ⟨hne, by omega, by omega, hp, rfl⟩⟩, ?_⟩
      rw [hstart]
      refine ⟨?_, ?_, ?_⟩
      · exact (segmentForLsn_mul _ (by omega)).symm
      · rw [offsetForLsn_mul]
        simp [put, rotateSegment]
      · simpa [put, rotateSegment] using hlen

theorem writeEncoded_pos (hm : m.PosOk) (hlt : m.activeOffset < m.config.segmentBytes)
    (hstart : a.startLsn = nextStart m.config.segmentBytes m.pos encoded.length)
    (hw : m.writeEncoded a encoded = .ok m') :
    m'.pos = nextPos m.config.segmentBytes m.pos encoded.length ∧ m'.config = m.config := by
  obtain ⟨hc, ⟨hp, hpos'⟩ | ⟨h0, hlt', hne, hs, hpos'⟩⟩ := writeEncoded_ok hw
  · refine ⟨?_, hc⟩
    have hfit : m.activeOffset + encoded.length ≤ m.config.segmentBytes := by
      by_contra hno
      rw [nextStart_of_lt (p := m.pos) (Nat.lt_of_not_le hno), ← hp] at hstart
      exact absurd hstart (lsnOf_lt (p := m.pos) hm.segment hlt).ne
    rw [hpos', nextPos]
    exact (if_pos hfit).symm
  · refine ⟨?_, hc⟩
    rw [hpos', nextPos]
    exact (if_neg (Nat.not_le_of_gt hlt')).symm

end Manager

/-! ### Draining the queue -/

namespace Queue
variable {s s' : Queue}

/-- The writer takes every queued record and puts each where its LSN says. -/
def Drains (s : Queue) : Prop :=
  ∃ s', s.writeAll s.pending.length = .ok s' ∧ ∀ p ∈ s'.placed, p.Ok s.wal.config.segmentBytes

def Sized (s : Queue) : Prop :=
  ∀ q ∈ s.pending, 0 < q.encoded.length ∧ q.encoded.length ≤ s.wal.config.segmentBytes

variable {q : QueuedRecord} {qs : List QueuedRecord} {txId : Nat}

theorem writeNext_eq_ok (hp : s.pending = q :: qs) :
    s.writeNext = .ok s' ↔ ∃ wal, s.wal.writeEncoded q.append q.encoded = .ok wal ∧
      s' = { s with
        pending := qs
        wal
        placed := s.placed ++
          [⟨q.append.startLsn, q.encoded.length, wal.activeSegment,
            wal.activeOffset - q.encoded.length⟩] } := by
  simp only [writeNext, hp, bind_eq_ok, pure_eq_ok]
  exact exists_congr fun wal => and_congr_right fun _ => eq_comm

theorem writeAll_placed {n : Nat} (h : s.writeAll n = .ok s') : ∀ p ∈ s.placed, p ∈ s'.placed := by
  induction n generalizing s with
  | zero =>
    cases h
    exact fun p hp => hp
  | succ n ih =>
    simp only [writeAll, bind_eq_ok] at h
    obtain ⟨s1, h1, h⟩ := h
    intro p hp
    refine ih h p ?_
    cases hq : s.pending with
    | nil => simp [writeNext, hq] at h1
    | cons q qs =>
      obtain ⟨wal, -, rfl⟩ := (writeNext_eq_ok hq).1 h1
      exact mem_append_left _ hp

theorem drains_iff (hm : s.wal.PosOk) (hsz : s.Sized)
    (hpl : ∀ p ∈ s.placed, p.Ok s.wal.config.segmentBytes) :
    s.Drains ↔ Laid s.wal.config.segmentBytes s.wal.pos s.pending := by
  generalize hqs : s.pending = qs
  induction qs generalizing s with
  | nil =>
    refine iff_of_true ⟨s, ?_, hpl⟩ trivial
    rw [hqs]
    rfl
  | cons q qs ih =>
    obtain ⟨hpos, hlen⟩ := hsz q (hqs ▸ mem_cons_self ..)
    have hplaced := Manager.writeEncoded_placed (a := q.append) hm hlen hpos
    -- one write, then the rest of the queue
    have hone : s.Drains ↔ ∃ s1, s.writeNext = .ok s1 ∧ ∃ s', s1.writeAll qs.length = .ok s' ∧
        ∀ p ∈ s'.placed, p.Ok s.wal.config.segmentBytes := by
      unfold Drains
      rw [hqs, length_cons]
      simp only [writeAll, bind_eq_ok]
      constructor
      · rintro ⟨s', ⟨s1, h1, h⟩, hok⟩
        exact ⟨s1, h1, s', h, hok⟩
      · rintro ⟨s1, h1, s', h, hok⟩
        exact ⟨s', ⟨s1, h1, h⟩, hok⟩
    have hrest : ∀ wal, s.wal.writeEncoded q.append q.encoded = .ok wal →
        s.wal.activeOffset < s.wal.config.segmentBytes →
        q.append.startLsn = nextStart s.wal.config.segmentBytes s.wal.pos q.encoded.length →
        Placed.Ok s.wal.config.segmentBytes
          ⟨q.append.startLsn, q.encoded.length, wal.activeSegment,
            wal.activeOffset - q.encoded.length⟩ →
        ((∃ s', writeAll { s with
            pending := qs
            wal
            placed := s.placed ++
              [⟨q.append.startLsn, q.encoded.length, wal.activeSegment,
                wal.activeOffset - q.encoded.length⟩] }
            qs.length = .ok s' ∧ ∀ p ∈ s'.placed, p.Ok s.wal.config.segmentBytes) ↔
          Laid s.wal.config.segmentBytes
            (nextPos s.wal.config.segmentBytes s.wal.pos q.encoded.length) qs) := by
      intro wal hw hlt hstart hok
      obtain ⟨hpos', hcfg⟩ := Manager.writeEncoded_pos hm hlt hstart hw
      have hnext := nextPos_ok (p := s.wal.pos) hm.segment hlen
      rw [← hpos'] at hnext ⊢
      have hI := ih (s := { s with
        pending := qs
        wal
        placed := s.placed ++
          [⟨q.append.startLsn, q.encoded.length, wal.activeSegment,
            wal.activeOffset - q.encoded.length⟩] })
        ⟨hnext.1, hcfg ▸ hnext.2⟩ ?_ ?_ rfl
      · rw [Drains] at hI
        simp only [hcfg] at hI
        exact hI
      · intro q' hq'
        simp only [hcfg]
        exact hsz q' (hqs ▸ mem_cons_of_mem _ hq')
      · intro p hp
        simp only [hcfg]
        rcases mem_append.1 hp with hp | hp
        · exact hpl p hp
        · rw [mem_singleton.1 hp]
          exact hok
    rw [hone, Laid]
    constructor
    · rintro ⟨s1, h1, s', h, hall⟩
      obtain ⟨wal, hw, rfl⟩ := (writeNext_eq_ok hqs).1 h1
      have hok := hall _ (writeAll_placed h _ (mem_append_right _ (mem_singleton_self _)))
      obtain ⟨hlt, hstart⟩ := hplaced.1 ⟨wal, hw, hok⟩
      exact ⟨hlt, hstart, (hrest wal hw hlt hstart hok).1 ⟨s', h, hall⟩⟩
    · rintro ⟨hlt, hstart, hlaid⟩
      obtain ⟨wal, hw, hok⟩ := hplaced.2 ⟨hlt, hstart⟩
      exact ⟨_, (writeNext_eq_ok hqs).2 ⟨wal, hw, rfl⟩, (hrest wal hw hlt hstart hok).2 hlaid⟩

/-! ### When positions agree -/

def Full (s : Queue) : Prop :=
  match s.pending.getLast? with
  | some q => offsetForLsn q.append.endLsn s.wal.config.segmentBytes = 0
  | none => s.wal.activeOffset = s.wal.config.segmentBytes

/-- The end of what is queued or written before the last queued record. -/
def priorEnd (s : Queue) : Nat :=
  match s.pending.dropLast.getLast? with
  | some q => q.append.endLsn
  | none => s.wal.position

/-- The LSNs handed out fit `u64`, and the payload its length field. -/
def Fits (s : Queue) : QueueAction → Prop
  | .append _ _ payload => payload.length ≤ 2 ^ 32 - 1 ∧
      s.reservedLsn + 2 * s.wal.config.segmentBytes < 2 ^ 64
  | .fold _ _ => s.reservedLsn + 2 * s.wal.config.segmentBytes < 2 ^ 64
  | .write => True

/-- A merged record either starts right behind the one before it, or is too long to do so. -/
def FoldOk (s : Queue) (merged : Bytes) : Prop :=
  match s.pending.getLast? with
  | some q => q.append.startLsn = s.priorEnd ∨
      s.wal.config.segmentBytes < offsetForLsn s.priorEnd s.wal.config.segmentBytes +
        (walHeaderLen + merged.length)
  | none => True

/-- A record is queued only if it fits, and never behind one that fills its segment. -/
def PositionOk (s : Queue) : QueueAction → Prop
  | .append kind txId payload => s.Fits (.append kind txId payload) ∧ ¬ s.Full
  | .fold txId merged => s.Fits (.fold txId merged) ∧ s.FoldOk merged
  | .write => True

structure QueueInv (s : Queue) : Prop where
  pos : s.wal.PosOk
  sized : s.Sized
  ends : ∀ q ∈ s.pending, q.append.endLsn = q.append.startLsn + q.encoded.length
  laid : Laid s.wal.config.segmentBytes s.wal.pos s.pending
  reserved : s.reservedLsn = lsnOf s.wal.config.segmentBytes
    (endPos s.wal.config.segmentBytes s.wal.pos s.pending)
  placed : ∀ p ∈ s.placed, p.Ok s.wal.config.segmentBytes

theorem endPos_ok {sb : Nat} {p : Nat × Nat} (h1 : 1 ≤ p.1) (h2 : p.2 ≤ sb)
    (hq : ∀ q ∈ qs, q.encoded.length ≤ sb) : 1 ≤ (endPos sb p qs).1 ∧ (endPos sb p qs).2 ≤ sb := by
  induction qs generalizing p with
  | nil => exact ⟨h1, h2⟩
  | cons q qs ih =>
    obtain ⟨h1', h2'⟩ := nextPos_ok (p := p) h1 (hq q (mem_cons_self ..))
    exact ih h1' h2' fun q' hq' => hq q' (mem_cons_of_mem _ hq')

section
variable (hI : QueueInv s)
include hI

theorem QueueInv.endPos_ok (qs rs : List QueuedRecord) (hp : s.pending = qs ++ rs) :
    1 ≤ (endPos s.wal.config.segmentBytes s.wal.pos qs).1 ∧
      (endPos s.wal.config.segmentBytes s.wal.pos qs).2 ≤ s.wal.config.segmentBytes :=
  Queue.endPos_ok hI.pos.segment hI.pos.offset fun q hq =>
    (hI.sized q (hp ▸ mem_append_left _ hq)).2

theorem QueueInv.pending_ge :
    ∀ q ∈ s.pending, lsnOf s.wal.config.segmentBytes s.wal.pos ≤ q.append.startLsn :=
  (laid_ge hI.pos.segment hI.pos.offset (fun q hq => (hI.sized q hq).2) hI.laid).1

theorem QueueInv.full_iff :
    s.Full ↔ (endPos s.wal.config.segmentBytes s.wal.pos s.pending).2 =
      s.wal.config.segmentBytes := by
  unfold Full
  rcases eq_nil_or_concat s.pending with hp | ⟨qs, q, hp⟩
  · rw [hp]
    exact Iff.rfl
  · rw [concat_eq_append] at hp
    rw [hp, getLast?_concat]
    have hq : q ∈ s.pending := by rw [hp]; simp
    have hlaid := hI.laid
    rw [hp, laid_append] at hlaid
    obtain ⟨-, hlt, hstart, -⟩ := hlaid
    obtain ⟨h1, h2⟩ := hI.endPos_ok s.pending [] (by simp)
    rw [hp] at h1 h2
    have hlsn : q.append.endLsn = lsnOf s.wal.config.segmentBytes
        (endPos s.wal.config.segmentBytes s.wal.pos (qs ++ [q])) := by
      rw [hI.ends q hq, hstart, endPos_concat, lsnOf_nextPos]
    have hpos : 0 < (endPos s.wal.config.segmentBytes s.wal.pos (qs ++ [q])).2 := by
      have := (hI.sized q hq).1
      rw [endPos_concat, nextPos]
      split <;> dsimp only <;> omega
    dsimp only
    rw [hlsn]
    constructor
    · intro h
      by_contra hne
      rw [offsetForLsn_lsnOf (by omega)] at h
      omega
    · intro h
      rw [lsnOf_full h1 h, offsetForLsn_mul]

omit hI in
theorem queueInv_start (config : WalConfig) (walBufferBytes endLsn prevLsn : Nat) (files : Files) :
    QueueInv (start config walBufferBytes endLsn prevLsn files) := by
  have hlt : offsetForLsn endLsn config.segmentBytes < config.segmentBytes :=
    Nat.mod_lt _ config.pos
  refine ⟨⟨Nat.le_add_left .., hlt.le⟩, ?_, ?_, trivial, ?_, ?_⟩
  · intro q hq
    cases hq
  · intro q hq
    cases hq
  · show endLsn = endLsn / config.segmentBytes * config.segmentBytes + endLsn % config.segmentBytes
    exact (Nat.div_add_mod' ..).symm
  · intro p hp
    cases hp

theorem QueueInv.drains_iff {s' : Queue} (hwal : s'.wal = s.wal) (hpl : s'.placed = s.placed)
    (hsz : s'.Sized) : s'.Drains ↔ Laid s.wal.config.segmentBytes s.wal.pos s'.pending := by
  rw [Queue.drains_iff (hwal ▸ hI.pos) hsz (by rw [hwal, hpl]; exact hI.placed), hwal]

theorem QueueInv.write (hs : s.writeNext = .ok s') : QueueInv s' := by
  rcases hq : s.pending with _ | ⟨q, qs⟩
  · simp [writeNext, hq] at hs
  · obtain ⟨wal, hw, rfl⟩ := (writeNext_eq_ok hq).1 hs
    have hmem : q ∈ s.pending := hq ▸ mem_cons_self ..
    have htail : ∀ q' ∈ qs, q' ∈ s.pending := fun q' h => hq ▸ mem_cons_of_mem _ h
    obtain ⟨hpos, hlen⟩ := hI.sized q hmem
    have hlaid := hI.laid
    have hres := hI.reserved
    rw [hq] at hlaid hres
    obtain ⟨hlt, hstart, hlaid⟩ := hlaid
    obtain ⟨wal', hw', hok⟩ := (Manager.writeEncoded_placed hI.pos hlen hpos).2 ⟨hlt, hstart⟩
    rw [hw] at hw'
    cases hw'
    obtain ⟨hpos', hcfg⟩ := Manager.writeEncoded_pos hI.pos hlt hstart hw
    have hnext := nextPos_ok (p := s.wal.pos) hI.pos.segment hlen
    rw [← hpos'] at hnext hlaid
    refine ⟨⟨hnext.1, hcfg ▸ hnext.2⟩, ?_, fun q' h => hI.ends q' (htail q' h),
      hcfg ▸ hlaid, ?_, ?_⟩
    · intro q' h
      simp only [hcfg]
      exact hI.sized q' (htail q' h)
    · simp only [hcfg, hpos']
      exact hres
    · simp only [hcfg]
      intro p hp
      rcases mem_append.1 hp with hp | hp
      · exact hI.placed p hp
      · rw [mem_singleton.1 hp]
        exact hok

omit hI in
theorem append_eq_ok {kind : Kind} {payload : Bytes} (henc : payload.length ≤ 2 ^ 32 - 1)
    (hs : s.step (.append kind txId payload) = .ok s') :
    walHeaderLen + payload.length ≤ s.wal.config.segmentBytes ∧ ∃ a encoded,
      reserveQueuedAppend s.reservedLsn s.wal.config.segmentBytes
        (walHeaderLen + payload.length) = .ok a ∧
      encoded.length = walHeaderLen + payload.length ∧
      s' = { s with reservedLsn := a.endLsn, prevLsn := a.startLsn, pending := s.pending ++
        [⟨a, encoded⟩] } := by
  simp only [step, enqueueReservedRecord, bind_eq_ok, require_eq_ok] at hs
  obtain ⟨-, hlen, -, -, a, ha, hs⟩ := hs
  simp only [Record.encode, require, if_pos henc, bind, Except.bind, pure, Except.pure,
    Except.ok.injEq] at hs
  exact ⟨hlen, a, _, ha, Record.length_encoded _, hs.symm⟩

omit hI in
theorem sized_concat (hsz : s.Sized) (h0 : 0 < q.encoded.length)
    (hle : q.encoded.length ≤ s.wal.config.segmentBytes) :
    ∀ q' ∈ s.pending ++ [q], 0 < q'.encoded.length ∧
      q'.encoded.length ≤ s.wal.config.segmentBytes := by
  intro q' hq'
  rcases mem_append.1 hq' with h | h
  · exact hsz q' h
  · rw [mem_singleton.1 h]
    exact ⟨h0, hle⟩

theorem QueueInv.append {kind : Kind} {payload : Bytes}
    (henc : payload.length ≤ 2 ^ 32 - 1) (hs : s.step (.append kind txId payload) = .ok s') :
    (¬ s.Full → QueueInv s') ∧ (s'.Drains ↔ ¬ s.Full) := by
  obtain ⟨hlen, a, encoded, ha, hel, rfl⟩ := append_eq_ok henc hs
  have hpos : 0 < encoded.length := by rw [hel, walHeaderLen]; omega
  obtain ⟨h1, h2⟩ := hI.endPos_ok s.pending [] (by simp)
  have hsz := sized_concat (q := ⟨a, encoded⟩) hI.sized hpos (hel ▸ hlen)
  have hlaid : Laid s.wal.config.segmentBytes s.wal.pos (s.pending ++ [⟨a, encoded⟩]) ↔
      ¬ s.Full := by
    rw [laid_append, hI.full_iff]
    constructor
    · rintro ⟨-, hlt, -⟩
      exact hlt.ne
    · intro hne
      have hlt := lt_of_le_of_ne h2 hne
      rw [hI.reserved, reserveQueuedAppend_lsnOf h1 hlt hlen] at ha
      cases ha
      exact ⟨hI.laid, hlt, by rw [hel], trivial⟩
  refine ⟨?_, Iff.trans ?_ hlaid⟩
  swap
  · exact hI.drains_iff rfl rfl hsz
  intro hfull
  have hl := hlaid.2 hfull
  have hne := fun h => hfull (hI.full_iff.2 h)
  have hlt := lt_of_le_of_ne h2 hne
  rw [hI.reserved, reserveQueuedAppend_lsnOf h1 hlt hlen] at ha
  cases ha
  refine ⟨hI.pos, hsz, ?_, hl, ?_, hI.placed⟩
  · intro q hq
    rcases mem_append.1 hq with h | h
    · exact hI.ends q h
    · rw [mem_singleton.1 h, hel]
  · rw [endPos_concat, lsnOf_nextPos, hel]

omit hI in
theorem fold_eq_ok {merged : Bytes} (hs : s.step (.fold txId merged) = .ok s') :
    ∃ qs q encoded, s.pending = qs ++ [q] ∧ encoded.length = walHeaderLen + merged.length ∧
      encoded.length ≤ s.wal.config.segmentBytes ∧
      offsetForLsn q.append.startLsn s.wal.config.segmentBytes + encoded.length ≤
        s.wal.config.segmentBytes ∧
      s' = { s with
        reservedLsn := q.append.startLsn + encoded.length
        pending := qs ++
          [⟨⟨q.append.startLsn, q.append.startLsn + encoded.length⟩, encoded⟩] } := by
  simp only [step, foldPending] at hs
  rcases eq_nil_or_concat s.pending with hp | ⟨qs, q, hp⟩
  · simp [hp] at hs
  · rw [concat_eq_append] at hp
    rw [hp, getLast?_concat, dropLast_concat] at hs
    simp only [bind_eq_ok, require_eq_ok, pure_eq_ok, Record.encode] at hs
    obtain ⟨last, -, -, -, -, hlen, -, -, -, hoff, encoded, ⟨-, -, rfl⟩, rfl⟩ := hs
    have hel := Record.length_encoded { last with lsn := q.append.startLsn, payload := merged }
    rw [Record.encodedLen] at hel
    refine ⟨qs, q, _, hp, hel, ?_, ?_, ?_⟩
    · rw [hel]
      exact hlen.1
    · rw [hel]
      exact hoff
    · rw [hel]

theorem QueueInv.priorEnd_eq (hp : s.pending = qs ++ [q]) :
    s.priorEnd = lsnOf s.wal.config.segmentBytes
      (endPos s.wal.config.segmentBytes s.wal.pos qs) := by
  rw [priorEnd, hp, dropLast_concat]
  rcases eq_nil_or_concat qs with hq | ⟨rs, r, hq⟩
  · rw [hq]
    rfl
  · rw [concat_eq_append] at hq
    rw [hq, getLast?_concat]
    have hr : r ∈ s.pending := by rw [hp, hq]; simp
    have hlaid := hI.laid
    rw [hp, hq, append_assoc, laid_append] at hlaid
    dsimp only
    rw [hI.ends r hr, hlaid.2.2.1, endPos_concat, lsnOf_nextPos]

theorem QueueInv.fold {merged : Bytes} (hs : s.step (.fold txId merged) = .ok s') :
    (s.FoldOk merged → QueueInv s') ∧ (s'.Drains ↔ s.FoldOk merged) := by
  obtain ⟨qs, q, encoded, hp, hel, hlen, hoff, rfl⟩ := fold_eq_ok hs
  have hpos : 0 < encoded.length := by rw [hel, walHeaderLen]; omega
  have hprior := hI.priorEnd_eq hp
  have hlq := hI.laid
  rw [hp, laid_append] at hlq
  obtain ⟨hlaid0, hlt, hstart, -⟩ := hlq
  generalize hpp : endPos s.wal.config.segmentBytes s.wal.pos qs = p at *
  -- the record keeps its start, so it has to be the start of a record of the new length
  have hcond : q.append.startLsn = nextStart s.wal.config.segmentBytes p encoded.length ↔
      s.FoldOk merged := by
    rw [FoldOk, hp, getLast?_concat]
    rw [hprior, offsetForLsn_lsnOf hlt, ← hel]
    constructor
    · intro h
      by_cases hfit : p.2 + encoded.length ≤ s.wal.config.segmentBytes
      · exact .inl (h.trans (nextStart_of_le hfit))
      · exact .inr (Nat.lt_of_not_le hfit)
    · rintro (h | h)
      · rw [h, offsetForLsn_lsnOf hlt] at hoff
        exact h.trans (nextStart_of_le hoff).symm
      · rw [nextStart_of_lt h, hstart]
        by_cases hfit : p.2 + q.encoded.length ≤ s.wal.config.segmentBytes
        · -- a record that started right behind the one before it would not fit any more
          rw [hstart, nextStart_of_le hfit, offsetForLsn_lsnOf hlt] at hoff
          omega
        · exact nextStart_of_lt (Nat.lt_of_not_le hfit)
  have hsz : ∀ q' ∈ qs ++ [(⟨⟨q.append.startLsn, q.append.startLsn + encoded.length⟩, encoded⟩ :
      QueuedRecord)],
      0 < q'.encoded.length ∧ q'.encoded.length ≤ s.wal.config.segmentBytes := by
    intro q' hq'
    rcases mem_append.1 hq' with h | h
    · exact hI.sized q' (hp ▸ mem_append_left _ h)
    · rw [mem_singleton.1 h]
      exact ⟨hpos, hlen⟩
  have hlaid : Laid s.wal.config.segmentBytes s.wal.pos
      (qs ++ [⟨⟨q.append.startLsn, q.append.startLsn + encoded.length⟩, encoded⟩]) ↔
      s.FoldOk merged := by
    rw [← hcond, laid_append, hpp]
    exact ⟨fun h => h.2.2.1, fun h => ⟨hlaid0, hlt, h, trivial⟩⟩
  refine ⟨?_, Iff.trans ?_ hlaid⟩
  swap
  · exact hI.drains_iff rfl rfl hsz
  intro hok
  refine ⟨hI.pos, hsz, ?_, hlaid.2 hok, ?_, hI.placed⟩
  · intro q' hq'
    rcases mem_append.1 hq' with h | h
    · exact hI.ends q' (hp ▸ mem_append_left _ h)
    · rw [mem_singleton.1 h]
  · rw [endPos_concat, lsnOf_nextPos, hpp, ← hcond.2 hok]

theorem QueueInv.drains : s.Drains := (hI.drains_iff rfl rfl hI.sized).2 hI.laid

theorem QueueInv.step {a : QueueAction} (hok : s.PositionOk a) (hs : s.step a = .ok s') :
    QueueInv s' := by
  cases a with
  | append kind txId payload => exact (hI.append hok.1.1 hs).1 hok.2
  | fold txId merged => exact (hI.fold hs).1 hok.2
  | write => exact hI.write hs

theorem QueueInv.step_drains {a : QueueAction} (hfit : s.Fits a) (hs : s.step a = .ok s') :
    s'.Drains ↔ s.PositionOk a := by
  cases a with
  | append kind txId payload =>
    rw [(hI.append hfit.1 hs).2]
    exact ⟨fun h => ⟨hfit, h⟩, fun h => h.2⟩
  | fold txId merged =>
    rw [(hI.fold hs).2]
    exact ⟨fun h => ⟨hfit, h⟩, fun h => h.2⟩
  | write => exact iff_of_true (hI.write hs).drains trivial

end

/-- However appends, merges and writes interleave: every record written so far is where its LSN
says, and the writer takes every queued record without a mismatch and puts it there too. A further
step keeps this exactly when it meets the condition. -/
theorem positions_agree {config : WalConfig} {walBufferBytes endLsn prevLsn : Nat} {files : Files}
    {acts : List QueueAction}
    (hrun : Run Queue.step PositionOk (start config walBufferBytes endLsn prevLsn files) acts s) :
    (∀ p ∈ s.placed, p.Ok s.wal.config.segmentBytes) ∧ s.Drains ∧
      ∀ a s', s.Fits a → s.step a = .ok s' → (s'.Drains ↔ s.PositionOk a) := by
  have hI : QueueInv s := hrun.invariant (I := fun _ s => QueueInv s) (queueInv_start ..)
    fun _ _ _ _ hI hok hs => hI.step hok hs
  exact ⟨hI.placed, hI.drains, fun a s' hfit hs => hI.step_drains hfit hs⟩

instance (s : Queue) : Decidable s.Full := by
  unfold Full
  split <;> infer_instance

instance (s : Queue) (a : QueueAction) : Decidable (s.PositionOk a) := by
  unfold PositionOk Fits FoldOk
  split
  · infer_instance
  · dsimp only
    split <;> infer_instance
  · infer_instance

instance (p : Placed) : Decidable (p.Ok sb) := inferInstanceAs (Decidable (_ ∧ _ ∧ _))

def small : Queue := start .small 1000 0 0 ∅

def appendOf (n : Nat) : QueueAction := .append .logical 1 (List.replicate (n - walHeaderLen) 0)

def traceApart : List QueueAction :=
  [appendOf 60, .write, appendOf 60, appendOf 100, .write, .write]

def startsSegments (s : Queue) : Bool :=
  decide ((s.placed.map fun p => (p.segment, p.offset, p.len)) =
    [(1, 0, 60), (2, 0, 60), (3, 0, 100)])

theorem positions_agree_traceApart : ∃ s, Run Queue.step PositionOk small traceApart s ∧
    startsSegments s = true ∧
      ∀ p ∈ s.placed, p.Ok s.wal.config.segmentBytes := by
  obtain ⟨s, hrun, hq⟩ : ∃ s, Run Queue.step PositionOk small traceApart s ∧
      startsSegments s = true := by
    decide +kernel
  exact ⟨s, hrun, hq, (positions_agree hrun).1⟩

def traceFilled : List QueueAction := [appendOf 100, appendOf 60, appendOf 60, .write, .write]

def misplaced (s : Queue) : Bool :=
  decide ((s.placed.map fun p => (p.startLsn, p.segment, p.offset)) = [(0, 1, 0), (100, 1, 100)]) &&
    match s.step .write with
    | .error e => decide (e = .corruptWal "record lsn does not match write position")
    | .ok _ => false

theorem positions_disagree : ∃ s, Run Queue.step (fun _ _ => True) small traceFilled s ∧
    misplaced s = true := by
  decide +kernel

end Queue
end RedlineDb.WalFile
