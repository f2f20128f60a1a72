import Mathlib.Data.List.AList
import Mathlib.Data.List.Sort
import RedlineDb.WalFormat

/-!
# Log segments on disk

`wal/manager/storage`: the log directory holds one file per segment. `Manager` is the writing side
(`create`, `open_prepared`, `append`, `write_encoded`, `rotate_segment`), `scanReport` reads the
directory back. Syncing a file changes none of its bytes, so it has no place here; what a crash
leaves is the business of the caller.
-/

namespace RedlineDb.WalFile
open Lib

/-- `validate_config`: a segment holds at least a header. -/
structure WalConfig where
  segmentBytes : Nat
  header_le : walHeaderLen ≤ segmentBytes

def WalConfig.small : WalConfig := ⟨100, by decide⟩

theorem WalConfig.pos (c : WalConfig) : 0 < c.segmentBytes := lt_of_lt_of_le (by decide) c.header_le

abbrev Files := AList (fun _ : Nat => Bytes)

def openRwCreate (files : Files) (segment : Nat) : Files :=
  match files.lookup segment with
  | some _ => files
  | none => files.insert segment []

def segmentBytesOf (files : Files) (segment : Nat) : Bytes := (files.lookup segment).getD []

structure Manager where
  config : WalConfig
  files : Files
  activeSegment : Nat
  activeOffset : Nat
  writtenLsn : Nat
  prevLsn : Nat

namespace Manager

def create (config : WalConfig) : Manager where
  config
  files := openRwCreate ∅ 1
  activeSegment := 1; activeOffset := 0; writtenLsn := 0; prevLsn := 0

variable (m : Manager)

def position : Nat := (m.activeSegment - 1) * m.config.segmentBytes + m.activeOffset

def rotateSegment : Manager :=
  { m with
    files := openRwCreate m.files (m.activeSegment + 1)
    activeSegment := m.activeSegment + 1
    activeOffset := 0 }

def put (a : WalAppend) (encoded : Bytes) : Manager :=
  { m with
    files := m.files.insert m.activeSegment
      (writeAt (segmentBytesOf m.files m.activeSegment) m.activeOffset encoded)
    activeOffset := m.activeOffset + encoded.length
    writtenLsn := a.endLsn
    prevLsn := a.startLsn }

def writeEncoded (a : WalAppend) (encoded : Bytes) : Except Error Manager := do
  require (encoded.length ≤ m.config.segmentBytes) (.corruptWal "record larger than wal segment")
  let m :=
    if m.position ≠ a.startLsn ∧ 0 < m.activeOffset ∧
        m.config.segmentBytes < m.activeOffset + encoded.length then
      m.rotateSegment
    else m
  require (m.position = a.startLsn) (.corruptWal "record lsn does not match write position")
  return m.put a encoded

def reserveAppend (encodedLen : Nat) : Except Error (WalAppend × Manager) := do
  require (encodedLen ≤ m.config.segmentBytes) (.corruptWal "record larger than wal segment")
  let m :=
    if 0 < m.activeOffset ∧ m.config.segmentBytes < m.activeOffset + encodedLen then
      m.rotateSegment else m
  return ({ startLsn := m.position, endLsn := m.position + encodedLen }, m)

/-- `append`. A record that does not encode is refused after the position was reserved, so the
segment may have been rotated already. -/
def append (kind : Kind) (txId : Nat) (payload : Bytes) : Except Error WalAppend × Manager :=
  match m.reserveAppend (walHeaderLen + payload.length) with
  | .error e => (.error e, m)
  | .ok (a, m) =>
    match Record.encode { lsn := a.startLsn, prevLsn := m.prevLsn, txId, kind, payload } with
    | .error e => (.error e, m)
    | .ok encoded =>
      match m.writeEncoded a encoded with
      | .error e => (.error e, m)
      | .ok m => (.ok a, m)

end Manager

structure ScanReport where
  records : List Record
  validEndLsn : Nat
  tornTail : Bool

def validateRecordPosition (r : Record) (segment offset segmentBytes : Nat) :
    Except Error Unit := do
  require ((segment - 1) * segmentBytes + offset < 2 ^ 64) (.corruptWal "lsn overflow")
  require (r.lsn = (segment - 1) * segmentBytes + offset)
    (.corruptWal "record lsn does not match segment position")

/-- What ends the scan of the last file and is an error in any other. -/
def stopAtTail (isLast : Bool) (records : List Record) (e : Error) :
    Except Error (List Record × Bool) :=
  if isLast then .ok (records, true) else .error e

/-- The loop over one file. Each round consumes a record, so the length of the file bounds the
rounds. -/
def scanLoop (segmentBytes segment : Nat) (file : Bytes) (isLast : Bool) :
    Nat → Nat → List Record → Except Error (List Record × Bool)
  | 0, _, records => .ok (records, false)
  | rounds + 1, offset, records =>
    if file.length ≤ offset then .ok (records, false)
    else if file.length - offset < walHeaderLen then
      stopAtTail isLast records (.corruptWal "partial record header before final tail")
    else do
      let payloadLen ← readField ((file.drop offset).take walHeaderLen) 12 4
      let recordLen := walHeaderLen + payloadLen
      if segmentBytes < recordLen then
        stopAtTail isLast records (.corruptWal "record length exceeds segment size")
      else if file.length - offset < recordLen then
        stopAtTail isLast records (.corruptWal "partial record body before final tail")
      else
        match Record.decode ((file.drop offset).take recordLen) with
        | .ok r => do
          validateRecordPosition r segment offset segmentBytes
          scanLoop segmentBytes segment file isLast rounds (offset + recordLen) (records ++ [r])
        | .error e =>
          if isLast ∧ file.length ≤ offset + recordLen then .ok (records, true) else .error e

def scanSegments (segmentBytes : Nat) (files : Files) :
    List Nat → List Record → Bool → Except Error (List Record × Bool)
  | [], records, stopped => .ok (records, stopped)
  | segment :: segments, records, stopped => do
    let file := segmentBytesOf files segment
    require (¬ (stopped ∧ 0 < file.length)) (.corruptWal "wal bytes after torn tail")
    let (records, stopped') ← scanLoop segmentBytes segment file segments.isEmpty file.length
      0 records
    scanSegments segmentBytes files segments records (stopped || stopped')

def validEnd (records : List Record) : Nat := (records.getLast?.map Record.endLsn).getD 0

def segmentNumbers (files : Files) : List Nat := files.keys.insertionSort (· ≤ ·)

def scanReport (config : WalConfig) (files : Files) : Except Error ScanReport := do
  let (records, tornTail) ← scanSegments config.segmentBytes files (segmentNumbers files) [] false
  return { records, validEndLsn := validEnd records, tornTail }

/-- `open_prepared` after a scan: the active file is cut to the end of the last record in it. -/
def Manager.openPrepared (config : WalConfig) (files : Files) (report : ScanReport) : Manager :=
  let activeSegment := segmentForLsn report.validEndLsn config.segmentBytes
  let activeOffset := offsetForLsn report.validEndLsn config.segmentBytes
  let files := openRwCreate files activeSegment
  { config
    files := files.insert activeSegment (setLen (segmentBytesOf files activeSegment) activeOffset)
    activeSegment
    activeOffset
    writtenLsn := report.validEndLsn
    prevLsn := (report.records.getLast?.map Record.lsn).getD 0 }

def Manager.openFiles (config : WalConfig) (files : Files) : Except Error Manager := do
  let report ← scanReport config files
  return Manager.openPrepared config files report

end RedlineDb.WalFile
