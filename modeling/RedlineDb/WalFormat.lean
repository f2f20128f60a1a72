import RedlineDb.Lib.Bytes
import RedlineDb.Wal

/-!
# Log records as bytes

`wal/record.rs`: a 48-byte header with a checksum over header and payload, then the payload.
`WalFile.Record` is the record of the source with its payload still encoded; `WalRecord` is what
recovery makes of it.
-/

namespace RedlineDb.WalFile
open Lib

inductive Kind
  | begin | pageImage | pageDelta | undoAppend | commit | abort | checkpointBegin | checkpointEnd
  | segmentSeal
  | backupBegin | backupEnd | timelineFork | logical
deriving DecidableEq

def Kind.code : Kind → Nat
  | .begin => 1 | .pageImage => 2 | .pageDelta => 3 | .undoAppend => 4 | .commit => 5 | .abort => 6
  | .checkpointBegin => 7 | .checkpointEnd => 8 | .segmentSeal => 9 | .backupBegin =>
      10 | .backupEnd => 11
  | .timelineFork => 12 | .logical => 13

def Kind.fromU16 : Nat → Except Error Kind
  | 1 => .ok .begin | 2 => .ok .pageImage | 3 => .ok .pageDelta | 4 => .ok .undoAppend | 5 =>
      .ok .commit
  | 6 => .ok .abort | 7 => .ok .checkpointBegin | 8 => .ok .checkpointEnd | 9 => .ok .segmentSeal
  | 10 => .ok .backupBegin | 11 => .ok .backupEnd | 12 => .ok .timelineFork | 13 => .ok .logical
  | _ => .error (.corruptWal "unknown record kind")

theorem Kind.fromU16_code (k : Kind) : fromU16 k.code = .ok k := by cases k <;> rfl

theorem Kind.code_lt (k : Kind) : k.code < 256 ^ 2 := by cases k <;> decide

structure Record where
  lsn : Nat
  prevLsn : Nat
  txId : Nat
  kind : Kind
  payload : Bytes
deriving DecidableEq

def walMagic : Nat := 0x5244574c
def walFormatVersion : Nat := 1
def walCrcOffset : Nat := 8

/-- One byte of the CRC-32 of IEEE 802.3. -/
def crc32Byte (crc : Nat) (b : UInt8) : Nat :=
  (List.range 8).foldl (fun c _ => if c % 2 = 1 then (c / 2) ^^^ 0xedb88320 else c / 2)
    (crc ^^^ b.toNat)

def crc32 (bs : Bytes) : Nat := bs.foldl crc32Byte 0xffffffff ^^^ 0xffffffff

/-- `checksum_wal_bytes`: the checksum field itself counts as zero. -/
def checksumWalBytes (bs : Bytes) : Nat :=
  crc32 (bs.take walCrcOffset ++ ([0, 0, 0, 0] ++ bs.drop (walCrcOffset + 4)))

theorem crc32Byte_lt {crc : Nat} (h : crc < 2 ^ 32) (b : UInt8) : crc32Byte crc b < 2 ^ 32 := by
  have hstep : ∀ l : List Nat, ∀ c < 2 ^ 32,
      l.foldl (fun c _ => if c % 2 = 1 then (c / 2) ^^^ 0xedb88320 else c / 2) c < 2 ^ 32 := by
    intro l
    induction l with
    | nil => exact fun c hc => hc
    | cons _ l ih =>
      intro c hc
      rw [List.foldl_cons]
      apply ih
      split
      · exact Nat.xor_lt_two_pow (by omega) (by decide)
      · omega
  have hb : b.toNat < 2 ^ 32 := lt_trans b.toNat_lt (by decide)
  exact hstep _ _ (Nat.xor_lt_two_pow h hb)

theorem crc32_lt (bs : Bytes) : crc32 bs < 2 ^ 32 := by
  have hfold : ∀ c < 2 ^ 32, bs.foldl crc32Byte c < 2 ^ 32 := by
    induction bs with
    | nil => exact fun c hc => hc
    | cons b bs ih =>
      intro c hc
      rw [List.foldl_cons]
      exact ih _ (crc32Byte_lt hc b)
  exact Nat.xor_lt_two_pow (hfold _ (by decide)) (by decide)

namespace Record
variable (r : Record)

def encodedLen : Nat := walHeaderLen + r.payload.length

def endLsn : Nat := r.lsn + r.encodedLen

/-- The fields in the order they are written, with `crc` as the checksum. -/
def bytes (crc : Nat) : Bytes :=
  leBytes 4 walMagic ++ (leBytes 2 walFormatVersion ++ (leBytes 2 r.kind.code ++ (leBytes 4 crc ++
    (leBytes 4 r.payload.length ++ (leBytes 8 r.lsn ++ (leBytes 8 r.prevLsn ++
      (leBytes 8 r.txId ++ (leBytes 8 0 ++ r.payload))))))))

def encoded : Bytes := r.bytes (checksumWalBytes (r.bytes 0))

def encode : Except Error Bytes := do
  require (r.payload.length ≤ 2 ^ 32 - 1) (.corruptWal "payload too large")
  return r.encoded

@[simp] theorem length_bytes (crc : Nat) : (r.bytes crc).length = r.encodedLen := by
  simp only [bytes, List.length_append, length_leBytes, encodedLen, walHeaderLen]
  omega

@[simp] theorem length_encoded (r : Record) : r.encoded.length = r.encodedLen := r.length_bytes _

theorem walHeaderLen_le (r : Record) : walHeaderLen ≤ r.encodedLen := Nat.le_add_right _ _

structure Fits (r : Record) : Prop where
  lsn : r.lsn < 2 ^ 64
  prevLsn : r.prevLsn < 2 ^ 64
  txId : r.txId < 2 ^ 64
  payload : r.payload.length < 2 ^ 32

end Record

def readField (bs : Bytes) (offset w : Nat) : Except Error Nat :=
  match readLe bs offset w with
  | some n => .ok n
  | none => .error (.bufferTooSmall (offset + w) bs.length)

def Record.decode (bs : Bytes) : Except Error Record := do
  require (walHeaderLen ≤ bs.length) (.bufferTooSmall walHeaderLen bs.length)
  let magic ← readField bs 0 4
  require (magic = walMagic) (.invalidMagic magic)
  let version ← readField bs 4 2
  require (version = walFormatVersion) (.unsupportedVersion version)
  let payloadLen ← readField bs 12 4
  let recordLen := walHeaderLen + payloadLen
  require (recordLen ≤ bs.length) (.bufferTooSmall recordLen bs.length)
  let stored ← readField bs walCrcOffset 4
  require (stored = checksumWalBytes (bs.take recordLen)) .invalidChecksum
  let lsn ← readField bs 16 8
  let prevLsn ← readField bs 24 8
  let txId ← readField bs 32 8
  let kind ← Kind.fromU16 (← readField bs 6 2)
  return { lsn, prevLsn, txId, kind, payload := (bs.take recordLen).drop walHeaderLen }

theorem readField_eq_ok {bs : Bytes} {offset w n : Nat} (h : readLe bs offset w = some n) :
    readField bs offset w = .ok n := by
  rw [readField, h]

namespace Record
variable {r : Record} {crc : Nat}

theorem checksumWalBytes_bytes : checksumWalBytes (r.bytes crc) = checksumWalBytes (r.bytes 0) := by
  have hsplit : ∀ c, ∃ a b, r.bytes c = a ++ (leBytes 4 c ++ b) ∧ a.length = walCrcOffset ∧
      a = leBytes 4 walMagic ++ (leBytes 2 walFormatVersion ++ leBytes 2 r.kind.code) ∧
      b = leBytes 4 r.payload.length ++ (leBytes 8 r.lsn ++ (leBytes 8 r.prevLsn ++
        (leBytes 8 r.txId ++ (leBytes 8 0 ++ r.payload)))) := by
    intro c
    refine ⟨_, _, ?_, ?_, rfl, rfl⟩
    · simp only [bytes, List.append_assoc]
    · simp [walCrcOffset]
  have hparts : ∀ c, (r.bytes c).take walCrcOffset = leBytes 4 walMagic ++
      (leBytes 2 walFormatVersion ++ leBytes 2 r.kind.code) ∧ (r.bytes c).drop (walCrcOffset + 4) =
      leBytes 4 r.payload.length ++ (leBytes 8 r.lsn ++ (leBytes 8 r.prevLsn ++
        (leBytes 8 r.txId ++ (leBytes 8 0 ++ r.payload)))) := by
    intro c
    obtain ⟨a, b, hab, hlen, rfl, rfl⟩ := hsplit c
    rw [hab]
    constructor
    · rw [← hlen, List.take_left]
    · rw [← List.append_assoc]
      apply List.drop_left'
      rw [List.length_append, length_leBytes, hlen]
  rw [checksumWalBytes, checksumWalBytes, (hparts crc).1, (hparts crc).2, (hparts 0).1,
    (hparts 0).2]

theorem readLe_payloadLen (hr : r.Fits) : readLe (r.bytes crc) 12 4 = some r.payload.length := by
  simp (disch := decide) only [bytes, readLe_skip]
  exact readLe_leBytes hr.payload _

theorem decode_encoded (hr : r.Fits) : decode r.encoded = .ok r := by
  have hmagic : readField r.encoded 0 4 = .ok walMagic :=
    readField_eq_ok (readLe_leBytes (by decide) _)
  have hversion : readField r.encoded 4 2 = .ok walFormatVersion := by
    apply readField_eq_ok
    rw [encoded, bytes, readLe_skip (by decide)]
    exact readLe_leBytes (by decide) _
  have hkind : readField r.encoded 6 2 = .ok r.kind.code := by
    apply readField_eq_ok
    rw [encoded, bytes, readLe_skip (by decide), readLe_skip (by decide)]
    exact readLe_leBytes r.kind.code_lt _
  have hcrc : readField r.encoded walCrcOffset 4 = .ok (checksumWalBytes (r.bytes 0)) := by
    apply readField_eq_ok
    simp (disch := decide) only [encoded, bytes, walCrcOffset, readLe_skip]
    exact readLe_leBytes (crc32_lt _) _
  have hlen : readField r.encoded 12 4 = .ok r.payload.length :=
    readField_eq_ok (readLe_payloadLen hr)
  have hlsn : readField r.encoded 16 8 = .ok r.lsn := by
    apply readField_eq_ok
    simp (disch := decide) only [encoded, bytes, readLe_skip]
    exact readLe_leBytes hr.lsn _
  have hprev : readField r.encoded 24 8 = .ok r.prevLsn := by
    apply readField_eq_ok
    simp (disch := decide) only [encoded, bytes, readLe_skip]
    exact readLe_leBytes hr.prevLsn _
  have htx : readField r.encoded 32 8 = .ok r.txId := by
    apply readField_eq_ok
    simp (disch := decide) only [encoded, bytes, readLe_skip]
    exact readLe_leBytes hr.txId _
  have htake : r.encoded.take (walHeaderLen + r.payload.length) = r.encoded := by
    apply List.take_of_length_le
    rw [length_encoded, encodedLen]
  have hpayload : r.encoded.drop walHeaderLen = r.payload := by
    have hsplit : ∃ a, r.encoded = a ++ r.payload ∧ a.length = walHeaderLen := by
      refine ⟨leBytes 4 walMagic ++ (leBytes 2 walFormatVersion ++ (leBytes 2 r.kind.code ++
        (leBytes 4 (checksumWalBytes (r.bytes 0)) ++
          (leBytes 4 r.payload.length ++ (leBytes 8 r.lsn ++
          (leBytes 8 r.prevLsn ++ (leBytes 8 r.txId ++ leBytes 8 0))))))), ?_, ?_⟩
      · simp only [encoded, bytes, List.append_assoc]
      · simp [walHeaderLen]
    obtain ⟨a, ha, hlen⟩ := hsplit
    rw [ha, ← hlen, List.drop_left]
  simp only [decode, bind_eq_ok, require_eq_ok, pure_eq_ok]
  refine ⟨(), ?_, _, hmagic, (), rfl, _, hversion, (), rfl, _, hlen, (), ?_, _, hcrc, (), ?_, _,
    hlsn, _, hprev, _,
    htx, _, hkind, _, r.kind.fromU16_code, ?_⟩
  · rw [length_encoded]
    exact r.walHeaderLen_le
  · rw [length_encoded, encodedLen]
  · rw [htake]
    exact checksumWalBytes_bytes.symm
  · rw [htake, hpayload]

end Record
end RedlineDb.WalFile
