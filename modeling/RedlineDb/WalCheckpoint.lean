import RedlineDb.WalQueue
import RedlineDb.WalScan

/-!
# Log positions across checkpoints

The coordinator and its writer with checkpoints, crashes and reopenings, at the level of the segment
files. A checkpoint waits for the log (`flush_all`), puts the LSN it got in the control file and
removes the segment files before it; a reopening goes on behind the last record the scan finds. The
two meet as long as the last record below the checkpoint's LSN is still there, and it is unless that
LSN is the first byte of a segment.
-/

namespace RedlineDb.WalFile
open Lib Manager Function List

/-- A running coordinator. `unlinked`: the file the writer has open is not in the directory any
more. A checkpoint is in `waiting` with the target of its `flush_all`, in `taken` with the LSN that
returned, in `controlled` with the LSN it wrote to the control file. -/
structure Running where
  queue : Queue
  unlinked : Bool
  durableLsn : Nat
  waiting : List Nat
  taken : List Nat
  controlled : List Nat

inductive LogPhase
  | up (r : Running)
  | down (files : Files)

/-- The log, the checkpoint LSN of the control file, and how many bytes of each segment file were
synced. -/
structure LogDir where
  config : WalConfig
  walBufferBytes : Nat
  phase : LogPhase
  checkpointLsn : Option Nat
  synced : Nat → Nat

inductive LogAction
  | queue (a : QueueAction)
  | sync
  | flushAll
  | flushed (target : Nat)
  | writeControl (lsn : Nat)
  | pruneFile (lsn segment : Nat)
  | crash (left : Files)
  | reopen

namespace Running

/-- An open file that was removed still takes writes; they reach no file of the directory. -/
def setQueue (r : Running) (q : Queue) : Running :=
  if r.unlinked then
    { r with
      queue := { q with wal := { q.wal with files := q.wal.files.erase r.queue.wal.activeSegment } }
      unlinked := decide (q.wal.activeSegment = r.queue.wal.activeSegment) }
  else { r with queue := q }

/-- One round of the loop of `prune_segments_below_checkpoint_lsn`. -/
def pruneFile (r : Running) (segment : Nat) : Running :=
  { r with
    queue := { r.queue with wal := { r.queue.wal with files := r.queue.wal.files.erase segment } }
    unlinked := r.unlinked || decide (segment = r.queue.wal.activeSegment) }

end Running

/-- What a crash may leave of a directory: of each file the synced bytes, and any number of those
behind. -/
def Survives (files : Files) (synced : Nat → Nat) (left : Files) : Prop :=
  (∀ n ∈ left.keys, n ∈ files.keys ∧ segmentBytesOf left n <+: segmentBytesOf files n) ∧
    ∀ n ∈ files.keys, (segmentBytesOf files n).take (synced n) <+: segmentBytesOf left n

instance (files : Files) (synced : Nat → Nat) (left : Files) :
    Decidable (Survives files synced left) :=
  inferInstanceAs (Decidable (_ ∧ _))

namespace LogDir

def create (config : WalConfig) (walBufferBytes : Nat) : LogDir where
  config; walBufferBytes
  phase := .up
    { queue := .start config walBufferBytes 0 0 (openRwCreate ∅ 1)
      unlinked := false
      durableLsn := 0
      waiting := []
      taken := []
      controlled := [] }
  checkpointLsn := none
  synced := fun _ => 0

variable (s : LogDir)

/-- Rotating syncs the file that is left. -/
def stepQueue (r : Running) (a : QueueAction) : Except Error LogDir := do
  let q ← r.queue.step a
  return { s with
    phase := .up (r.setQueue q)
    synced :=
      if q.wal.activeSegment = r.queue.wal.activeSegment then s.synced
      else update s.synced r.queue.wal.activeSegment r.queue.wal.activeOffset }

/-- `open_with_scan_summary`: the active file is cut to the end of the last record. -/
def reopen (files : Files) : Except Error LogDir := do
  let report ← scanReport s.config files
  let wal := openPrepared s.config files report
  return { s with
    phase := .up
      { queue := .start s.config s.walBufferBytes report.validEndLsn wal.prevLsn wal.files
        unlinked := false
        durableLsn := 0
        waiting := []
        taken := []
        controlled := [] }
    synced := fun n => min (s.synced n) (segmentBytesOf wal.files n).length }

def stepUp (r : Running) : LogAction → Except Error LogDir
  | .queue a => s.stepQueue r a
  | .sync =>
    .ok { s with
      phase := .up { r with durableLsn := r.queue.wal.writtenLsn }
      synced := update s.synced r.queue.wal.activeSegment r.queue.wal.activeOffset }
  | .flushAll => .ok { s with phase := .up { r with waiting := r.queue.reservedLsn :: r.waiting } }
  | .flushed target => do
    require (target ∈ r.waiting ∧ target ≤ r.durableLsn) (.corruptWal "not durable yet")
    return { s with phase := .up { r with taken := r.durableLsn :: r.taken } }
  | .writeControl lsn => do
    require (lsn ∈ r.taken) (.corruptWal "no such checkpoint")
    return { s with
      phase := .up { r with controlled := lsn :: r.controlled }, checkpointLsn := some lsn }
  | .pruneFile lsn segment => do
    require (lsn ∈ r.controlled) (.corruptWal "no such checkpoint")
    require (segment < segmentForLsn lsn s.config.segmentBytes ∧
      segment < segmentForLsn r.queue.reservedLsn s.config.segmentBytes)
        (.corruptWal "segment is kept")
    return { s with phase := .up (r.pruneFile segment) }
  | .crash left => do
    require (Survives r.queue.wal.files s.synced left) .io
    return { s with phase := .down left }
  | .reopen => .error .io

def step (a : LogAction) : Except Error LogDir :=
  match s.phase with
  | .up r => s.stepUp r a
  | .down files =>
    match a with
    | .reopen => s.reopen files
    | _ => .error .io

def pending : List QueuedRecord :=
  match s.phase with
  | .up r => r.queue.pending
  | .down _ => []

def FitsU64 : QueueAction → Prop
  | .append _ txId _ => txId < 2 ^ 64
  | _ => True

/-- Records are queued where the writer will put them, and no checkpoint gets the first byte of a
segment for its LSN, unless it is the first of all. -/
def StepOk (a : LogAction) : Prop :=
  match s.phase, a with
  | .up r, .queue a => r.queue.PositionOk a ∧ FitsU64 a
  | .up r, .flushed _ => offsetForLsn r.durableLsn s.config.segmentBytes = 0 → r.durableLsn = 0
  | _, _ => True

/-! ### Marks

An LSN inside a segment is a mark when its file can be read up to it. -/

variable {sb m n : Nat} {files files' : Files}

def Marked (sb : Nat) (files : Files) (lsn : Nat) : Prop :=
  0 < offsetForLsn lsn sb →
    ∃ rs, Reads sb (segmentForLsn lsn sb) (segmentBytesOf files (segmentForLsn lsn sb))
    (offsetForLsn lsn sb) rs

theorem Marked.congr (h : Marked sb files m)
    (hf : (segmentBytesOf files (segmentForLsn m sb)).take (offsetForLsn m sb) =
      (segmentBytesOf files' (segmentForLsn m sb)).take (offsetForLsn m sb)) :
        Marked sb files' m := by
  intro hpos
  obtain ⟨rs, hr⟩ := h hpos
  exact ⟨rs, hr.congr hf le_rfl⟩

theorem segmentBytesOf_erase (h : n ≠ m) :
    segmentBytesOf (files.erase m) n = segmentBytesOf files n := by
  rw [segmentBytesOf, AList.lookup_erase_ne h, segmentBytesOf]

theorem segmentBytesOf_insert (f : Bytes) :
    segmentBytesOf (files.insert m f) n = if n = m then f else segmentBytesOf files n := by
  unfold segmentBytesOf
  split
  · next h => rw [h, AList.lookup_insert]; rfl
  · next h => rw [AList.lookup_insert_ne h]

@[simp] theorem segmentBytesOf_openRwCreate :
    segmentBytesOf (openRwCreate files m) n = segmentBytesOf files n := by
  unfold openRwCreate
  split
  · rfl
  · next hnone =>
    rw [segmentBytesOf_insert]
    split
    · next h => rw [h, segmentBytesOf, hnone]; rfl
    · rfl

variable {bs f : Bytes} {o : Nat}

theorem take_writeAt (hle : o ≤ f.length) : (writeAt f o bs).take o = f.take o := by
  rw [writeAt, setLen_of_le hle, take_left' (length_take_of_le hle)]

theorem writeAt_eq (hle : o ≤ f.length) :
    writeAt f o bs = f.take o ++ (bs ++ f.drop (o + bs.length)) := by
  rw [writeAt, setLen_of_le hle]

theorem take_setLen {k : Nat} (hk : k ≤ o) (hle : k ≤ f.length) :
    (setLen f o).take k = f.take k := by
  rw [setLen, take_append_of_le_length (by rw [length_take]; exact Nat.le_min.2 ⟨hk, hle⟩),
    take_take, min_eq_left hk]

theorem length_setLen (f : Bytes) (o : Nat) : (setLen f o).length = o := by
  simp only [setLen, length_append, length_take, length_replicate]
  omega

theorem length_writeAt (hle : o ≤ f.length) :
    (writeAt f o bs).length = max f.length (o + bs.length) := by
  rw [writeAt_eq hle]
  simp only [length_append, length_take, length_drop]
  omega

theorem lsn_eq (sb m : Nat) : (segmentForLsn m sb - 1) * sb + offsetForLsn m sb = m := by
  exact Nat.div_add_mod' m sb

theorem segmentForLsn_pos : 1 ≤ segmentForLsn m sb := Nat.le_add_left ..

theorem offsetForLsn_le (h : m ≤ (segmentForLsn m sb - 1) * sb + o) : offsetForLsn m sb ≤ o := by
  have := lsn_eq sb m
  omega

theorem Marked.writeAt (h : Marked sb files m) {w : Nat} (hm : m ≤ (w - 1) * sb + o)
    (ho : o ≤ (segmentBytesOf files w).length) (hbytes : ∀ n, segmentBytesOf files' n =
      if n = w then writeAt (segmentBytesOf files w) o bs else segmentBytesOf files n) :
        Marked sb files' m := by
  apply h.congr
  rw [hbytes]
  split
  · next hw =>
    have hoff : offsetForLsn m sb ≤ o := offsetForLsn_le (hw.symm ▸ hm)
    have htake : ∀ f : Bytes, f.take (offsetForLsn m sb) = (f.take o).take (offsetForLsn m sb) :=
      fun f => by
      rw [take_take, min_eq_left hoff]
    rw [hw, htake (Lib.writeAt _ _ _), take_writeAt ho, ← htake]
  · rfl

theorem Marked.erase (h : Marked sb files m) (hn : n < segmentForLsn m sb) :
    Marked sb (files.erase n) m :=
  h.congr (by rw [segmentBytesOf_erase (ne_of_gt hn)])

structure DirOk (sb : Nat) (files : Files) : Prop where
  size : ∀ n, (segmentBytesOf files n).length ≤ sb
  zero : segmentBytesOf files 0 = []

structure TopOk (config : WalConfig) (synced : Nat → Nat) (control : Option Nat) (files : Files)
    (top : Nat) : Prop where
  marked : Marked config.segmentBytes files top
  inner : offsetForLsn top config.segmentBytes = 0 → top = 0
  synced : offsetForLsn top config.segmentBytes ≤ synced (segmentForLsn top config.segmentBytes)
  control : ∀ c, control = some c → c ≤ top

def Encoded (q : QueuedRecord) : Prop := ∃ r : Record, q.encoded = r.encoded ∧
    r.lsn = q.append.startLsn ∧ r.Fits

structure UpInv (config : WalConfig) (synced : Nat → Nat) (control : Option Nat) (r : Running)
    (top : Nat) : Prop where
  topOk : TopOk config synced control r.queue.wal.files top
  dir : DirOk config.segmentBytes r.queue.wal.files
  linked : r.unlinked = false
  sameConfig : r.queue.wal.config = config
  queue : r.queue.QueueInv
  encoded : ∀ q ∈ r.queue.pending, Encoded q
  prev : r.queue.prevLsn < 2 ^ 64
  written : r.queue.wal.writtenLsn = r.queue.wal.position
  active : ∃ rs, Reads config.segmentBytes r.queue.wal.activeSegment
    (segmentBytesOf r.queue.wal.files r.queue.wal.activeSegment) r.queue.wal.activeOffset rs
  top_le : top ≤ r.queue.wal.position
  durable_le : r.durableLsn ≤ r.queue.wal.position
  durable : top ≤ r.durableLsn → Marked config.segmentBytes r.queue.wal.files r.durableLsn ∧
    offsetForLsn r.durableLsn config.segmentBytes ≤
      synced (segmentForLsn r.durableLsn config.segmentBytes)
  jobs : ∀ c ∈ r.taken ++ r.controlled, c ≤ top

def Inv (s : LogDir) (top : Nat) : Prop :=
  match s.phase with
  | .up r => UpInv s.config s.synced s.checkpointLsn r top
  | .down files => TopOk s.config s.synced s.checkpointLsn files top ∧
      DirOk s.config.segmentBytes files

/-! ### Records and files -/

variable {lsn seg txId : Nat} {report : ScanReport}

theorem append_encoded {q q' : Queue} {kind : Kind} {payload : Bytes}
    (henc : payload.length ≤ 2 ^ 32 - 1) (hs : q.step (.append kind txId payload) = .ok q') :
    ∃ a, reserveQueuedAppend q.reservedLsn q.wal.config.segmentBytes
      (walHeaderLen + payload.length) = .ok a ∧
      q' = { q with
        reservedLsn := a.endLsn
        prevLsn := a.startLsn
        pending := q.pending ++
          [⟨a, Record.encoded
            { lsn := a.startLsn, prevLsn := q.prevLsn, txId, kind, payload }⟩] } := by
  simp only [Queue.step, Queue.enqueueReservedRecord, bind_eq_ok, require_eq_ok] at hs
  obtain ⟨-, -, -, -, a, ha, hs⟩ := hs
  simp only [Record.encode, require, if_pos henc, bind, Except.bind, pure, Except.pure,
    Except.ok.injEq] at hs
  exact ⟨a, ha, hs.symm⟩

variable {qs : List QueuedRecord}

theorem encoded_concat {q : QueuedRecord} (h : ∀ q ∈ qs, Encoded q) (hq : Encoded q) :
    ∀ q' ∈ qs ++ [q], Encoded q' := by
  intro q' hq'
  rcases mem_append.1 hq' with h' | h'
  · exact h q' h'
  · rw [mem_singleton.1 h']
    exact hq

theorem queueInv_setFiles {q : Queue} (h : q.QueueInv) (files : Files) :
    Queue.QueueInv { q with wal := { q.wal with files } } :=
  ⟨⟨h.pos.segment, h.pos.offset⟩, h.sized, h.ends, h.laid, h.reserved, h.placed⟩

theorem mem_keys_of_reads {rs : List Record} (h : Reads sb seg (segmentBytesOf files n) o rs)
    (ho : 0 < o) : n ∈ files.keys := by
  rw [← AList.mem_keys, ← AList.lookup_isSome]
  by_contra hno
  have hle := h.le_length
  rw [segmentBytesOf, Option.not_isSome_iff_eq_none.1 hno] at hle
  exact absurd ho (not_lt.2 hle)

/-! ### While the log is open -/

section Up
variable {config : WalConfig} {synced : Nat → Nat} {control : Option Nat} {r : Running} {top : Nat}
  (h : UpInv config synced control r top)
include h

theorem UpInv.pos_le : r.queue.wal.activeOffset ≤ config.segmentBytes := by
  have := h.queue.pos.offset
  rwa [h.sameConfig] at this

theorem UpInv.position_eq : r.queue.wal.position = lsnOf config.segmentBytes r.queue.wal.pos := by
  rw [position, h.sameConfig]
  rfl

theorem UpInv.position_cases :
    segmentForLsn r.queue.wal.position config.segmentBytes = r.queue.wal.activeSegment ∧
      offsetForLsn r.queue.wal.position config.segmentBytes = r.queue.wal.activeOffset ∨
    offsetForLsn r.queue.wal.position config.segmentBytes = 0 := by
  rw [h.position_eq]
  rcases lt_or_ge r.queue.wal.activeOffset config.segmentBytes with hlt | hge
  · exact .inl ⟨segmentForLsn_lsnOf (p := r.queue.wal.pos) h.queue.pos.segment hlt,
      offsetForLsn_lsnOf (p := r.queue.wal.pos) hlt⟩
  · right
    rw [lsnOf_full (p := r.queue.wal.pos) h.queue.pos.segment (le_antisymm h.pos_le hge),
      offsetForLsn_mul]

theorem UpInv.offset_le (hm : m ≤ r.queue.wal.position)
    (hseg : segmentForLsn m config.segmentBytes = r.queue.wal.activeSegment) :
    offsetForLsn m config.segmentBytes ≤ r.queue.wal.activeOffset := by
  apply offsetForLsn_le
  rw [hseg]
  rw [position, h.sameConfig] at hm
  exact hm

theorem UpInv.segment_top_le :
    segmentForLsn top config.segmentBytes ≤ r.queue.wal.activeSegment := by
  have hle : segmentForLsn top config.segmentBytes ≤
      segmentForLsn r.queue.wal.position config.segmentBytes :=
    segmentForLsn_mono h.top_le
  rcases h.position_cases with ⟨hseg, -⟩ | hoff
  · rwa [hseg] at hle
  · by_contra hgt
    -- only a full active file has its end in the next segment, and then `top` is that end
    have hpos := config.pos
    have hsb := h.pos_le
    have h1 := h.queue.pos.segment
    have htop := lsn_eq config.segmentBytes top
    have hmul : r.queue.wal.activeSegment * config.segmentBytes ≤
        (segmentForLsn top config.segmentBytes - 1) * config.segmentBytes :=
      Nat.mul_le_mul_right _ (by omega)
    have hend : (r.queue.wal.activeSegment - 1) * config.segmentBytes + config.segmentBytes =
        r.queue.wal.activeSegment * config.segmentBytes := by
      rw [← Nat.succ_mul]
      congr 1
      omega
    have hposition : r.queue.wal.position =
        (r.queue.wal.activeSegment - 1) * config.segmentBytes + r.queue.wal.activeOffset := by
      rw [position, h.sameConfig]
    have hle' := h.top_le
    have hzero : offsetForLsn top config.segmentBytes = 0 := by omega
    have := h.topOk.inner hzero
    omega

variable {q : Queue}

theorem UpInv.setPending {reservedLsn prevLsn : Nat} {pending : List QueuedRecord}
    (hq : Queue.QueueInv { r.queue with reservedLsn, prevLsn, pending })
    (henc : ∀ q' ∈ pending, Encoded q')
    (hprev : prevLsn < 2 ^ 64) :
    UpInv config synced control
      { r with queue := { r.queue with reservedLsn, prevLsn, pending } } top :=
  { h with queue := hq, encoded := henc, prev := hprev }

theorem UpInv.append {kind : Kind} {payload : Bytes}
    (hok : r.queue.PositionOk (.append kind txId payload))
    (hfit : FitsU64 (.append kind txId payload))
    (hs : r.queue.step (.append kind txId payload) = .ok q) :
    UpInv config synced control { r with queue := q } top := by
  have hq := h.queue.step hok hs
  obtain ⟨⟨hlen, hroom⟩, -⟩ := hok
  obtain ⟨a, ha, rfl⟩ := append_encoded hlen hs
  have hlsn : a.startLsn < 2 ^ 64 := (reserveQueuedAppend_start ha).2.1.trans_lt (by omega)
  refine h.setPending hq (encoded_concat h.encoded ⟨_, rfl, rfl, hlsn, h.prev, hfit, ?_⟩) hlsn
  exact hlen.trans_lt (by decide)

theorem UpInv.fold {merged : Bytes}
    (hok : r.queue.PositionOk (.fold txId merged)) (hs : r.queue.step (.fold txId merged) = .ok q) :
    UpInv config synced control { r with queue := q } top := by
  have hq := h.queue.step hok hs
  simp only [Queue.step, Queue.foldPending] at hs
  rcases eq_nil_or_concat r.queue.pending with hp | ⟨qs, last, hp⟩
  · simp [hp] at hs
  · rw [concat_eq_append] at hp
    rw [hp, getLast?_concat, dropLast_concat] at hs
    simp only [bind_eq_ok, require_eq_ok, pure_eq_ok, Record.encode] at hs
    obtain ⟨rec, hdec, -, -, -, -, -, -, -, -, encoded, ⟨-, hlen, rfl⟩, rfl⟩ := hs
    have hin : ∀ q' ∈ qs ++ [last], Encoded q' := hp ▸ h.encoded
    obtain ⟨rec', henc, hlsn, hfits⟩ := hin last (by simp)
    rw [henc, Record.decode_encoded hfits] at hdec
    cases hdec
    refine h.setPending hq (encoded_concat (fun q' hq' => hin q' (mem_append_left _ hq')) ?_) h.prev
    exact ⟨_, rfl, rfl, hlsn ▸ hfits.lsn, hfits.prevLsn, hfits.txId, hlen.trans_lt (by decide)⟩

theorem UpInv.update_synced (hm : m ≤ r.queue.wal.position)
    (hsync : offsetForLsn m config.segmentBytes ≤ synced (segmentForLsn m config.segmentBytes)) :
    offsetForLsn m config.segmentBytes ≤
      update synced r.queue.wal.activeSegment r.queue.wal.activeOffset
        (segmentForLsn m config.segmentBytes) := by
  rw [update_apply]
  split
  · next hseg => exact h.offset_le hm hseg
  · exact hsync

theorem UpInv.put {rec : Record}
    (hcase : q.wal.activeSegment = r.queue.wal.activeSegment ∧ o = r.queue.wal.activeOffset ∨
      q.wal.activeSegment = r.queue.wal.activeSegment + 1 ∧ o = 0)
        (hbytes : ∀ n, segmentBytesOf q.wal.files n =
      if n = q.wal.activeSegment then writeAt (segmentBytesOf r.queue.wal.files q.wal.activeSegment)
        o rec.encoded
      else segmentBytesOf r.queue.wal.files n) (hoff : q.wal.activeOffset = o + rec.encodedLen)
    (hlsn : rec.lsn = (q.wal.activeSegment - 1) * config.segmentBytes + o) (hfits : rec.Fits)
    (hconfig : q.wal.config = config) (hwritten : q.wal.writtenLsn = q.wal.position)
    (hq : q.QueueInv) (henc : ∀ q' ∈ q.pending, Encoded q') (hprev : q.prevLsn < 2 ^ 64) :
    UpInv config (if q.wal.activeSegment = r.queue.wal.activeSegment then synced
      else update synced r.queue.wal.activeSegment r.queue.wal.activeOffset) control
      { r with queue := q } top := by
  obtain ⟨rs, hreads⟩ := h.active
  have hsize : o + rec.encodedLen ≤ config.segmentBytes := by
    have := hq.pos.offset
    rwa [hoff, hconfig] at this
  have hle : o ≤ (segmentBytesOf r.queue.wal.files q.wal.activeSegment).length := by
    rcases hcase with ⟨hw, ho⟩ | ⟨-, ho⟩
    · rw [hw, ho]
      exact hreads.le_length
    · rw [ho]
      exact Nat.zero_le _
  -- the write starts at the old position or behind it
  have hstart : r.queue.wal.position ≤ (q.wal.activeSegment - 1) * config.segmentBytes + o := by
    rw [position, h.sameConfig]
    rcases hcase with ⟨hw, ho⟩ | ⟨hw, ho⟩
    · rw [hw, ho]
    · have hsb := h.pos_le
      have h1 := h.queue.pos.segment
      have hend : (r.queue.wal.activeSegment - 1) * config.segmentBytes + config.segmentBytes =
          r.queue.wal.activeSegment * config.segmentBytes := by
        rw [← Nat.succ_mul]
        congr 1
        omega
      rw [hw, ho, Nat.add_sub_cancel]
      omega
  have hend : q.wal.position = (q.wal.activeSegment - 1) * config.segmentBytes + o +
      rec.encodedLen := by
    rw [position, hconfig, hoff, Nat.add_assoc]
  have hmark : ∀ m, m ≤ r.queue.wal.position → Marked config.segmentBytes r.queue.wal.files m →
      Marked config.segmentBytes q.wal.files m :=
    fun m hm hM => hM.writeAt (hm.trans hstart) hle hbytes
  have hsync : ∀ m, m ≤ r.queue.wal.position →
      offsetForLsn m config.segmentBytes ≤ synced (segmentForLsn m config.segmentBytes) →
      offsetForLsn m config.segmentBytes ≤
        (if q.wal.activeSegment = r.queue.wal.activeSegment then synced
        else update synced r.queue.wal.activeSegment r.queue.wal.activeOffset)
          (segmentForLsn m config.segmentBytes) := by
    intro m hm hs
    split
    · exact hs
    · exact h.update_synced hm hs
  refine ⟨⟨hmark top h.top_le h.topOk.marked, h.topOk.inner, hsync top h.top_le h.topOk.synced,
    h.topOk.control⟩,
    ⟨?_, ?_⟩, h.linked, hconfig, hq, henc, hprev, hwritten, ?_, ?_, ?_, ?_, h.jobs⟩
  · intro n
    rw [hbytes]
    split
    · rw [length_writeAt hle, Record.length_encoded]
      exact Nat.max_le.2 ⟨h.dir.size _, hsize⟩
    · exact h.dir.size n
  · show segmentBytesOf q.wal.files 0 = []
    rw [hbytes, if_neg (by have := hq.pos.segment; omega)]
    exact h.dir.zero
  · -- what could be read before the write still can, and then the new record
    have hfile : segmentBytesOf q.wal.files q.wal.activeSegment =
        (segmentBytesOf r.queue.wal.files q.wal.activeSegment).take o ++ (rec.encoded ++
          (segmentBytesOf r.queue.wal.files q.wal.activeSegment).drop
          (o + rec.encoded.length)) := by
      rw [hbytes, if_pos rfl, writeAt_eq hle]
    have hlen : ((segmentBytesOf r.queue.wal.files q.wal.activeSegment).take o).length = o :=
      length_take_of_le hle
    have hbefore : ∃ rs, Reads config.segmentBytes q.wal.activeSegment
        (segmentBytesOf q.wal.files q.wal.activeSegment) o rs := by
      rcases hcase with ⟨hw, ho⟩ | ⟨-, ho⟩
      · refine ⟨rs, ?_⟩
        rw [← hw, ← ho] at hreads
        refine hreads.congr (n := o) ?_ le_rfl
        rw [hbytes, if_pos rfl, take_writeAt hle]
      · exact ⟨[], ho ▸ .nil⟩
    obtain ⟨rs', hreads'⟩ := hbefore
    refine ⟨rs' ++ [rec], ?_⟩
    rw [hoff]
    refine hreads'.snoc ?_
    have hat : ReadsAt config.segmentBytes q.wal.activeSegment _ _ rec :=
      readsAt_encoded (a := (segmentBytesOf r.queue.wal.files q.wal.activeSegment).take o)
        (b := (segmentBytesOf r.queue.wal.files q.wal.activeSegment).drop (o + rec.encoded.length))
        hfits
        (by omega) (by rw [hlen]; exact hlsn)
    rw [hlen, ← hfile] at hat
    exact hat
  · have := h.top_le
    show top ≤ q.wal.position
    omega
  · have := h.durable_le
    show r.durableLsn ≤ q.wal.position
    omega
  · intro htop
    obtain ⟨hM, hs⟩ := h.durable htop
    exact ⟨hmark _ h.durable_le hM, hsync _ h.durable_le hs⟩

theorem UpInv.write (hs : r.queue.writeNext = .ok q) :
    UpInv config (if q.wal.activeSegment = r.queue.wal.activeSegment then synced
      else update synced r.queue.wal.activeSegment r.queue.wal.activeOffset) control
      { r with queue := q } top := by
  have hqI := h.queue.write hs
  rcases hp : r.queue.pending with _ | ⟨q₀, qs⟩
  · simp [Queue.writeNext, hp] at hs
  · obtain ⟨wal, hw, rfl⟩ := (Queue.writeNext_eq_ok hp).1 hs
    have hmem : q₀ ∈ r.queue.pending := hp ▸ mem_cons_self ..
    obtain ⟨rec, hrec, hlsn, hfits⟩ := h.encoded q₀ hmem
    have hends := h.queue.ends q₀ hmem
    have henc : ∀ q' ∈ qs, Encoded q' := fun q' hq' => h.encoded q' (hp ▸ mem_cons_of_mem _ hq')
    have hlen : q₀.encoded.length = rec.encodedLen := by rw [hrec, Record.length_encoded]
    obtain ⟨-, ⟨hpos, rfl⟩ | ⟨-, -, -, hpos, rfl⟩⟩ := writeEncoded_eq_ok.1 hw
    · refine h.put (o := r.queue.wal.activeOffset) (.inl ⟨rfl, rfl⟩) ?_ ?_ ?_ hfits h.sameConfig ?_
        hqI henc h.prev
      · intro n
        show segmentBytesOf (AList.insert _ _ _) n = _
        rw [segmentBytesOf_insert, hrec]
        rfl
      · exact congrArg _ hlen
      · rw [hlsn, ← hpos, position, h.sameConfig]
        rfl
      · show q₀.append.endLsn = (r.queue.wal.activeSegment - 1) * _ +
            (r.queue.wal.activeOffset + q₀.encoded.length)
        rw [hends, ← hpos, position, Nat.add_assoc]
        rfl
    · refine h.put (o := 0) (.inr ⟨rfl, rfl⟩) ?_ ?_ ?_ hfits h.sameConfig ?_ hqI henc h.prev
      · intro n
        show segmentBytesOf (AList.insert _ _ _) n = _
        rw [segmentBytesOf_insert, hrec]
        simp only [Manager.rotateSegment, Manager.put, segmentBytesOf_openRwCreate]
      · show 0 + q₀.encoded.length = 0 + rec.encodedLen
        rw [hlen]
      · rw [hlsn, ← hpos, position]
        exact congrArg (fun c : WalConfig => (r.queue.wal.activeSegment + 1 - 1) * c.segmentBytes +
          0) h.sameConfig
      · show q₀.append.endLsn = (r.queue.wal.activeSegment + 1 - 1) * _ + (0 + q₀.encoded.length)
        rw [hends, ← hpos, position]
        exact (Nat.add_assoc ..)

theorem UpInv.marked_position :
    Marked config.segmentBytes r.queue.wal.files r.queue.wal.position := by
  intro hpos
  rcases h.position_cases with ⟨hseg, hoff⟩ | hoff
  · rw [hseg, hoff]
    exact h.active
  · omega

theorem UpInv.sync :
    UpInv config (update synced r.queue.wal.activeSegment r.queue.wal.activeOffset) control
      { r with durableLsn := r.queue.wal.writtenLsn } top := by
  have htop : TopOk config
      (update synced r.queue.wal.activeSegment r.queue.wal.activeOffset) control
      r.queue.wal.files top :=
    ⟨h.topOk.marked, h.topOk.inner, h.update_synced h.top_le h.topOk.synced, h.topOk.control⟩
  refine { h with topOk := htop, durable_le := h.written.le, durable := fun _ => ?_ }
  rw [h.written]
  refine ⟨h.marked_position, ?_⟩
  rcases h.position_cases with ⟨hseg, hoff⟩ | hoff
  · rw [hseg, hoff, update_self]
  · rw [hoff]
    exact Nat.zero_le _

theorem UpInv.flushed (hok : offsetForLsn r.durableLsn config.segmentBytes = 0 → r.durableLsn = 0) :
    UpInv config synced control { r with taken := r.durableLsn :: r.taken }
      (max top r.durableLsn) := by
  have hjobs : ∀ c ∈ r.durableLsn :: r.taken ++ r.controlled, c ≤ max top r.durableLsn := by
    intro c hc
    rcases mem_cons.1 hc with rfl | hc
    · exact le_max_right ..
    · exact (h.jobs c hc).trans (le_max_left ..)
  rcases le_total top r.durableLsn with hle | hle
  · obtain ⟨hM, hs⟩ := h.durable hle
    rw [max_eq_right hle] at hjobs ⊢
    have htop : TopOk config synced control r.queue.wal.files r.durableLsn :=
      ⟨hM, hok, hs, fun c hc => (h.topOk.control c hc).trans hle⟩
    exact { h with
      topOk := htop, top_le := h.durable_le, durable := fun _ => ⟨hM, hs⟩, jobs := hjobs }
  · rw [max_eq_left hle] at hjobs ⊢
    exact { h with jobs := hjobs }

theorem UpInv.writeControl (hlsn : lsn ∈ r.taken) :
    UpInv config synced (some lsn) { r with controlled := lsn :: r.controlled } top := by
  have hle := h.jobs lsn (mem_append_left _ hlsn)
  refine { h with topOk := { h.topOk with control := ?_ }, jobs := ?_ }
  · rintro c ⟨⟩
    exact hle
  · intro c hc
    rcases mem_append.1 hc with hc | hc
    · exact h.jobs c (mem_append_left _ hc)
    · rcases mem_cons.1 hc with rfl | hc
      · exact hle
      · exact h.jobs c (mem_append_right _ hc)

theorem UpInv.pruneFile {segment : Nat} (hlsn : lsn ∈ r.controlled)
    (hseg : segment < segmentForLsn lsn config.segmentBytes) :
    UpInv config synced control (r.pruneFile segment) top := by
  have hlt : segment < segmentForLsn top config.segmentBytes :=
    hseg.trans_le (segmentForLsn_mono (h.jobs lsn (mem_append_right _ hlsn)))
  have hactive := h.segment_top_le
  have hne : r.queue.wal.activeSegment ≠ segment := by omega
  have hbytes : ∀ n, (segmentBytesOf (r.queue.wal.files.erase segment) n).length ≤
      (segmentBytesOf r.queue.wal.files n).length := by
    intro n
    by_cases hn : n = segment
    · rw [hn, segmentBytesOf, AList.lookup_erase]
      exact Nat.zero_le _
    · rw [segmentBytesOf_erase hn]
  refine ⟨⟨h.topOk.marked.erase hlt, h.topOk.inner, h.topOk.synced, h.topOk.control⟩, ⟨?_, ?_⟩, ?_,
    h.sameConfig,
    queueInv_setFiles h.queue _, h.encoded, h.prev, h.written, ?_, h.top_le, h.durable_le,
      ?_, h.jobs⟩
  · exact fun n => (hbytes n).trans (h.dir.size n)
  · refine length_eq_zero_iff.1 (Nat.le_zero.1 ?_)
    have := hbytes 0
    rwa [h.dir.zero] at this
  · rw [Running.pruneFile, h.linked, decide_eq_false (Ne.symm hne)]
    rfl
  · show ∃ rs, Reads _ _
        (segmentBytesOf (r.queue.wal.files.erase segment) r.queue.wal.activeSegment) _ rs
    rw [segmentBytesOf_erase hne]
    exact h.active
  · intro hle
    obtain ⟨hM, hs⟩ := h.durable hle
    exact ⟨hM.erase (hlt.trans_le (segmentForLsn_mono hle)), hs⟩

/-! ### Crashing and reopening -/

/-- What was synced survives, and with it the record below the largest checkpoint LSN. -/
theorem UpInv.crash {left : Files} (hleft : Survives r.queue.wal.files synced left) :
    TopOk config synced control left top ∧ DirOk config.segmentBytes left := by
  have hpre : ∀ n, segmentBytesOf left n <+: segmentBytesOf r.queue.wal.files n := by
    intro n
    by_cases hn : n ∈ left.keys
    · exact (hleft.1 n hn).2
    · have hnone : left.lookup n = none := by
        rw [← AList.mem_keys, ← AList.lookup_isSome] at hn
        exact Option.not_isSome_iff_eq_none.1 hn
      rw [segmentBytesOf, hnone]
      exact nil_prefix
  refine ⟨⟨?_, h.topOk.inner, h.topOk.synced, h.topOk.control⟩, ?_, ?_⟩
  · intro hpos
    obtain ⟨rs, hreads⟩ := h.topOk.marked hpos
    refine ⟨rs, hreads.congr (n := offsetForLsn top config.segmentBytes) ?_ le_rfl⟩
    have hkept := hleft.2 _ (mem_keys_of_reads hreads hpos)
    have hlong := hreads.le_length
    -- both files start with the synced bytes
    obtain ⟨t, ht⟩ := hkept
    have htake : (segmentBytesOf left (segmentForLsn top config.segmentBytes)).take
        (offsetForLsn top config.segmentBytes) =
        ((segmentBytesOf r.queue.wal.files (segmentForLsn top config.segmentBytes)).take
          (synced (segmentForLsn top config.segmentBytes))).take
            (offsetForLsn top config.segmentBytes) := by
      rw [← ht, take_append_of_le_length]
      rw [length_take]
      exact Nat.le_min.2 ⟨h.topOk.synced, hlong⟩
    rw [htake, take_take, min_eq_left h.topOk.synced]
  · exact fun n => (hpre n).length_le.trans (h.dir.size n)
  · have := hpre 0
    rw [h.dir.zero] at this
    exact prefix_nil.1 this

omit h

theorem pairwise_segmentNumbers (files : Files) : (segmentNumbers files).Pairwise (· < ·) := by
  have hsort : (segmentNumbers files).Pairwise (· ≤ ·) := pairwise_insertionSort _ _
  have hnodup : (segmentNumbers files).Nodup := (perm_insertionSort _ _).nodup_iff.2 files.nodupKeys
  exact (hsort.and hnodup).imp fun h => lt_of_le_of_ne h.1 h.2

theorem scanReport_end (hdir : DirOk config.segmentBytes files)
    (hr : scanReport config files = .ok report) :
    report.validEndLsn = 0 ∧ (report.records.getLast?.map Record.lsn).getD 0 = 0 ∨
    ∃ n o rs, 1 ≤ n ∧ o ≤ config.segmentBytes ∧
      Reads config.segmentBytes n (segmentBytesOf files n) o rs ∧
      report.validEndLsn = (n - 1) * config.segmentBytes + o ∧
      (report.records.getLast?.map Record.lsn).getD 0 < 2 ^ 64 := by
  simp only [scanReport, bind_eq_ok, pure_eq_ok, Prod.exists] at hr
  obtain ⟨res, torn, hscan, rfl⟩ := hr
  rcases scanSegments_last hscan with rfl | ⟨n, -, o, rs, r, hreads, ho, hlast, hres⟩
  · exact .inl ⟨rfl, rfl⟩
  · right
    obtain ⟨r', hr', hend, hu⟩ := hreads.getLast ho
    rw [hlast] at hr'
    cases hr'
    have hlong := hreads.le_length
    refine ⟨n, o, rs, ?_, hlong.trans (hdir.size n), hreads, ?_, ?_⟩
    · rcases Nat.eq_zero_or_pos n with rfl | hn
      · rw [hdir.zero] at hlong
        exact absurd ho (not_lt.2 hlong)
      · exact hn
    · dsimp only
      rw [validEnd, hres]
      exact hend
    · dsimp only
      rw [hres]
      exact hu

theorem TopOk.le_validEnd (h : TopOk config synced control files top)
    (hdir : DirOk config.segmentBytes files)
    (hr : scanReport config files = .ok report) : top ≤ report.validEndLsn := by
  rcases Nat.eq_zero_or_pos (offsetForLsn top config.segmentBytes) with hz | hpos
  · rw [h.inner hz]
    exact Nat.zero_le _
  · obtain ⟨rs, hreads⟩ := h.marked hpos
    simp only [scanReport, bind_eq_ok, pure_eq_ok, Prod.exists] at hr
    obtain ⟨res, torn, hscan, rfl⟩ := hr
    have hkeys : segmentForLsn top config.segmentBytes ∈ segmentNumbers files :=
      (mem_insertionSort _).2 (mem_keys_of_reads hreads hpos)
    have hge := scanSegments_ge hscan (pairwise_segmentNumbers files) hkeys hreads hpos
        (hdir.size _) segmentForLsn_pos
    rwa [lsn_eq] at hge

theorem segmentBytesOf_openPrepared (report : ScanReport) (n : Nat) :
    segmentBytesOf (openPrepared config files report).files n =
      if n = segmentForLsn report.validEndLsn config.segmentBytes then
        setLen (segmentBytesOf files n) (offsetForLsn report.validEndLsn config.segmentBytes)
      else segmentBytesOf files n := by
  show segmentBytesOf (AList.insert _ _ _) n = _
  rw [segmentBytesOf_insert]
  split
  · next h => rw [segmentBytesOf_openRwCreate, h]
  · rw [segmentBytesOf_openRwCreate]

theorem reads_openPrepared (hdir : DirOk config.segmentBytes files)
    (hr : scanReport config files = .ok report) :
    ∃ rs, Reads config.segmentBytes (segmentForLsn report.validEndLsn config.segmentBytes)
      (segmentBytesOf (openPrepared config files report).files
        (segmentForLsn report.validEndLsn config.segmentBytes))
      (offsetForLsn report.validEndLsn config.segmentBytes) rs := by
  rcases Nat.eq_zero_or_pos (offsetForLsn report.validEndLsn config.segmentBytes) with hz | hpos
  · exact ⟨[], hz ▸ .nil⟩
  · rcases scanReport_end hdir hr with ⟨h0, -⟩ | ⟨n, o, rs, hn, hsb, hreads, hend, -⟩
    · rw [h0] at hpos
      exact absurd hpos (by simp [offsetForLsn])
    · have hlt : o < config.segmentBytes := by
        refine lt_of_le_of_ne hsb fun he => ?_
        have hfull : lsnOf config.segmentBytes (n, o) = n * config.segmentBytes := lsnOf_full hn he
        rw [hend, show (n - 1) * config.segmentBytes + o = n * config.segmentBytes from hfull,
          offsetForLsn_mul] at hpos
        exact lt_irrefl 0 hpos
      have hseg : segmentForLsn report.validEndLsn config.segmentBytes = n := by
        rw [hend]
        exact segmentForLsn_lsnOf (p := (n, o)) hn hlt
      have hoff : offsetForLsn report.validEndLsn config.segmentBytes = o := by
        rw [hend]
        exact offsetForLsn_lsnOf (p := (n, o)) hlt
      refine ⟨rs, ?_⟩
      rw [segmentBytesOf_openPrepared, if_pos rfl, hseg, hoff, setLen_of_le hreads.le_length]
      exact hreads.congr (n := o) (by rw [take_take, Nat.min_self]) le_rfl

theorem upInv_reopen {buffer : Nat} (h : TopOk config synced control files top)
    (hdir : DirOk config.segmentBytes files) (hr : scanReport config files = .ok report) :
    UpInv config
      (fun n => min (synced n) (segmentBytesOf (openPrepared config files report).files n).length)
      control
      { queue := .start config buffer report.validEndLsn (openPrepared config files report).prevLsn
          (openPrepared config files report).files
        unlinked := false
        durableLsn := 0
        waiting := []
        taken := []
        controlled := [] } top := by
  have hle := h.le_validEnd hdir hr
  obtain ⟨rs, hreads⟩ := reads_openPrepared hdir hr
  have hmarked : Marked config.segmentBytes (openPrepared config files report).files top := by
    apply h.marked.congr
    rw [segmentBytesOf_openPrepared]
    split
    · next hseg =>
      have hoff : offsetForLsn top config.segmentBytes ≤
          offsetForLsn report.validEndLsn config.segmentBytes := by
        apply offsetForLsn_le
        rw [hseg, lsn_eq]
        exact hle
      rcases Nat.eq_zero_or_pos (offsetForLsn top config.segmentBytes) with hz | hpos
      · rw [hz, take_zero, take_zero]
      · obtain ⟨_, htop⟩ := h.marked hpos
        rw [take_setLen hoff htop.le_length]
    · rfl
  have hsb : offsetForLsn report.validEndLsn config.segmentBytes < config.segmentBytes :=
    Nat.mod_lt _ config.pos
  refine ⟨⟨hmarked, h.inner, ?_, h.control⟩, ⟨?_, ?_⟩, rfl, rfl, Queue.queueInv_start .., nofun, ?_,
    ?_, ⟨rs, hreads⟩, ?_,
    Nat.zero_le _, ?_, nofun⟩
  · rcases Nat.eq_zero_or_pos (offsetForLsn top config.segmentBytes) with hz | hpos
    · rw [hz]
      exact Nat.zero_le _
    · obtain ⟨_, htop⟩ := hmarked hpos
      exact Nat.le_min.2 ⟨h.synced, htop.le_length⟩
  · intro n
    show (segmentBytesOf (openPrepared config files report).files n).length ≤ _
    rw [segmentBytesOf_openPrepared]
    split
    · rw [length_setLen]
      exact hsb.le
    · exact hdir.size n
  · show segmentBytesOf (openPrepared config files report).files 0 = []
    rw [segmentBytesOf_openPrepared, if_neg (Nat.ne_of_lt segmentForLsn_pos)]
    exact hdir.zero
  · show (report.records.getLast?.map Record.lsn).getD 0 < 2 ^ 64
    rcases scanReport_end hdir hr with ⟨-, h0⟩ | ⟨-, -, -, -, -, -, -, hu⟩
    · rw [h0]
      decide
    · exact hu
  · exact (lsn_eq _ _).symm
  · exact hle.trans (lsn_eq _ _).symm.le
  · intro _
    simp [Marked, offsetForLsn]

end Up

variable {s} {s' s₀ s₁ : LogDir} {a : LogAction} {top c : Nat} {acts acts' : List LogAction}

theorem inv_create (config : WalConfig) (buffer : Nat) : Inv (create config buffer) 0 := by
  refine ⟨⟨?_, fun _ => rfl, ?_, nofun⟩, ⟨?_, ?_⟩, rfl, rfl, Queue.queueInv_start .., nofun,
    Nat.two_pow_pos 64, ?_, ⟨[], ?_⟩,
    Nat.zero_le _, Nat.zero_le _, ?_, nofun⟩
  · simp [Marked, offsetForLsn]
  · simp [offsetForLsn]
  · intro n
    show (segmentBytesOf (openRwCreate ∅ 1) n).length ≤ _
    rw [segmentBytesOf_openRwCreate]
    exact Nat.zero_le _
  · show segmentBytesOf (openRwCreate ∅ 1) 0 = []
    rfl
  · exact (lsn_eq config.segmentBytes 0).symm
  · show Reads _ _ _ (offsetForLsn 0 config.segmentBytes) []
    exact .nil
  · intro _
    simp [Marked, offsetForLsn]

theorem Inv.stepUp {r : Running} (hphase : s.phase = .up r)
    (h : UpInv s.config s.synced s.checkpointLsn r top)
    (hok : StepOk s a) (hs : s.stepUp r a = .ok s') : ∃ top', top ≤ top' ∧ Inv s' top' := by
  cases a with
  | queue a =>
    simp only [StepOk, hphase] at hok
    simp only [LogDir.stepUp, stepQueue, bind_eq_ok, pure_eq_ok] at hs
    obtain ⟨q, hq, rfl⟩ := hs
    have hset : r.setQueue q = { r with queue := q } := by rw [Running.setQueue, h.linked]; rfl
    refine ⟨top, le_rfl, ?_⟩
    rw [hset]
    cases a with
    | append kind txId payload =>
      have hwal : q.wal = r.queue.wal := by
        obtain ⟨a, -, rfl⟩ := append_encoded hok.1.1.1 hq
        rfl
      simp only [hwal, if_true]
      exact h.append hok.1 hok.2 hq
    | fold txId merged =>
      have hwal : q.wal = r.queue.wal := by
        obtain ⟨_, _, _, -, -, -, -, rfl⟩ := Queue.fold_eq_ok hq
        rfl
      simp only [hwal, if_true]
      exact h.fold hok.1 hq
    | write => exact h.write hq
  | sync =>
    cases hs
    exact ⟨top, le_rfl, h.sync⟩
  | flushAll =>
    cases hs
    exact ⟨top, le_rfl, { h with }⟩
  | flushed target =>
    simp only [StepOk, hphase] at hok
    simp only [LogDir.stepUp, bind_eq_ok, pure_eq_ok] at hs
    obtain ⟨-, -, rfl⟩ := hs
    exact ⟨_, le_max_left .., h.flushed hok⟩
  | writeControl lsn =>
    obtain ⟨hlsn, rfl⟩ := guarded_eq_ok.1 hs
    exact ⟨top, le_rfl, h.writeControl hlsn⟩
  | pruneFile lsn segment =>
    simp only [LogDir.stepUp, bind_eq_ok, require_eq_ok, pure_eq_ok] at hs
    obtain ⟨-, hlsn, -, hseg, rfl⟩ := hs
    exact ⟨top, le_rfl, h.pruneFile hlsn hseg.1⟩
  | crash left =>
    obtain ⟨hleft, rfl⟩ := guarded_eq_ok.1 hs
    exact ⟨top, le_rfl, h.crash hleft⟩
  | reopen => cases hs

theorem Inv.step (h : Inv s top) (hok : StepOk s a) (hs : s.step a = .ok s') :
    ∃ top', top ≤ top' ∧ Inv s' top' := by
  unfold Inv at h
  unfold LogDir.step at hs
  cases hphase : s.phase with
  | up r =>
    simp only [hphase] at h hs
    exact Inv.stepUp hphase h hok hs
  | down files =>
    simp only [hphase] at h hs
    split at hs
    · simp only [LogDir.reopen, bind_eq_ok, pure_eq_ok] at hs
      obtain ⟨report, hr, rfl⟩ := hs
      exact ⟨top, le_rfl, upInv_reopen h.1 h.2 hr⟩
    · cases hs

theorem Inv.run (h : Inv s₀ top) (hrun : Run LogDir.step StepOk s₀ acts s₁) :
    ∃ top', top ≤ top' ∧ Inv s₁ top' := by
  refine hrun.invariant (I := fun _ s => ∃ top', top ≤ top' ∧ Inv s top') ⟨top, le_rfl, h⟩ ?_
  rintro - s a s' ⟨top₁, hle, hI⟩ hok hs
  obtain ⟨top₂, hle', hI'⟩ := hI.step hok hs
  exact ⟨top₂, hle.trans hle', hI'⟩

theorem Inv.control_le (h : Inv s top) (hc : s.checkpointLsn = some c) : c ≤ top := by
  unfold Inv at h
  split at h
  · exact h.topOk.control c hc
  · exact h.1.control c hc

theorem Inv.pending_ge (h : Inv s top) : ∀ q ∈ s.pending, top ≤ q.append.startLsn := by
  intro q hq
  unfold Inv at h
  unfold pending at hq
  cases hphase : s.phase with
  | up r =>
    simp only [hphase] at h hq
    exact h.top_le.trans (h.queue.pending_ge q hq)
  | down files =>
    simp only [hphase] at hq
    cases hq

/-- Once the control file held the checkpoint LSN `c`, every record queued at any later time, also
after any number of further checkpoints, crashes and reopenings, has an LSN that is not below it. -/
theorem records_after_checkpoint {config : WalConfig} {buffer : Nat}
    (hrun : Run LogDir.step StepOk (create config buffer) acts s₀) (hc : s₀.checkpointLsn = some c)
    (hrun' : Run LogDir.step StepOk s₀ acts' s₁) : ∀ q ∈ s₁.pending, c ≤ q.append.startLsn := by
  obtain ⟨top, -, h⟩ := (inv_create config buffer).run hrun
  obtain ⟨top', hle, h'⟩ := h.run hrun'
  intro q hq
  exact (h.control_le hc).trans (hle.trans (h'.pending_ge q hq))

instance (a : QueueAction) : Decidable (FitsU64 a) :=
  match a with
  | .append .. => inferInstanceAs (Decidable (_ < _))
  | .fold .. | .write => inferInstanceAs (Decidable True)

instance (s : LogDir) (a : LogAction) : Decidable (StepOk s a) := by
  unfold StepOk
  split <;> infer_instance

def hundred : LogDir := create .small 1000

def traceCheckpoint : List LogAction :=
  [.queue (Queue.appendOf 60), .queue .write, .sync, .flushAll, .flushed 60, .writeControl 60]

def traceReopened : List LogAction :=
  [.crash ((∅ : Files).insert 1 (Record.encoded ⟨0, 0, 1, .logical, List.replicate 12 0⟩)), .reopen,
    .queue (Queue.appendOf 60)]

def startsAt (lsn : Nat) (s : LogDir) : Bool :=
  s.pending.any fun q => decide (q.append.startLsn = lsn)

theorem records_after_checkpoint_reopened :
    ∃ s₀ s₁, Run LogDir.step StepOk hundred traceCheckpoint s₀ ∧
    s₀.checkpointLsn = some 60 ∧ Run LogDir.step StepOk s₀ traceReopened s₁ ∧
      startsAt 100 s₁ = true ∧
    ∀ q ∈ s₁.pending, 60 ≤ q.append.startLsn := by
  obtain ⟨s₀, h₀, hc, s₁, h₁, hp⟩ : ∃ s₀, Run LogDir.step StepOk hundred traceCheckpoint s₀ ∧
      s₀.checkpointLsn = some 60 ∧ ∃ s₁, Run LogDir.step StepOk s₀ traceReopened s₁ ∧
        startsAt 100 s₁ = true := by
    decide +kernel
  exact ⟨s₀, s₁, h₀, hc, h₁, hp, records_after_checkpoint h₀ hc h₁⟩

def traceBoundary : List LogAction :=
  [.queue (Queue.appendOf 100), .queue .write, .sync, .flushAll, .flushed 100, .writeControl 100,
    .pruneFile 100 1]

def traceEmpty : List LogAction := [.crash ∅, .reopen, .queue (Queue.appendOf 60)]

/-- The next record starts at LSN 0, and a recovery from LSN 100 on does not replay it. -/
theorem record_below_checkpoint :
    ∃ s₀ s₁, Run LogDir.step (fun _ _ => True) hundred traceBoundary s₀ ∧
    s₀.checkpointLsn = some 100 ∧ Run LogDir.step (fun _ _ => True) s₀ traceEmpty s₁ ∧
    ∃ q ∈ s₁.pending, q.append.startLsn < 100 := by
  obtain ⟨s₀, h₀, hc, s₁, h₁, hp⟩ :
      ∃ s₀, Run LogDir.step (fun _ _ => True) hundred traceBoundary s₀ ∧
      s₀.checkpointLsn = some 100 ∧ ∃ s₁, Run LogDir.step (fun _ _ => True) s₀ traceEmpty s₁ ∧
        ∃ q ∈ s₁.pending, q.append.startLsn < 100 := by decide +kernel
  exact ⟨s₀, s₁, h₀, hc, h₁, hp⟩

end LogDir
end RedlineDb.WalFile
