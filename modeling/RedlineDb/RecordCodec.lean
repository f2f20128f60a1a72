import Mathlib.Data.List.SplitLengths
import RedlineDb.Lib.Run
import RedlineDb.IndexKeys

/-!
# Row records

`catalog/record.rs`: a record is a format byte, the number of its columns, a serial type for each,
and the payloads one after another. The bit masks of the varints are written as arithmetic, and the
bytes from `pos` on are the rest of a list. `std::str::from_utf8` is a parameter.
-/

namespace RedlineDb.Record
open Lib Indexed List

inductive RecordError
  | empty
  | unknownFormat (format : UInt8)
  | truncated
  | invalidUtf8
  | invalidSerial (serial : Nat)
  | columnOutOfBounds
deriving DecidableEq

inductive Fault
  | err (e : RecordError)
  | panicked
deriving DecidableEq

def isizeMax : Nat := 2 ^ 63 - 1

def putVarint (value : Nat) : Bytes :=
  if value < 0x80 then [UInt8.ofNat value]
  else UInt8.ofNat (value % 0x80 + 0x80) :: putVarint (value / 0x80)
termination_by value
decreasing_by omega

def readVarint (out shift : Nat) : Bytes → Except RecordError (Nat × Bytes)
  | [] => .error .truncated
  | byte :: bytes =>
    let out := out + byte.toNat % 0x80 * 2 ^ shift % 2 ^ 64
    if byte.toNat < 0x80 then pure (out, bytes)
    else do
      require (shift + 7 < 64) .truncated
      readVarint out (shift + 7) bytes

/-- `iN::try_from(v).is_ok()` for `N = 8 * w`. -/
def Fits (w : Nat) (v : Int) : Prop := -(256 ^ w / 2) ≤ v ∧ v < 256 ^ w / 2

instance decidableFits (w : Nat) (v : Int) : Decidable (Fits w v) :=
  inferInstanceAs (Decidable (_ ∧ _))

/-- The serial types up to 5 are `ST_NULL`, `ST_I8`, `ST_I16`, `ST_I32`, `ST_I64` and `ST_F64`. -/
def serialType : OwnedValue → Nat
  | .null => 0
  | .integer v => if Fits 1 v then 1 else if Fits 2 v then 2 else if Fits 4 v then 3 else 4
  | .real _ => 5
  | .blob v => v.length * 2 + 16
  | .text v => v.length * 2 + 1 + 16

def intBytes (w : Nat) (v : Int) : Bytes := leBytes w (v % (256 ^ w : Nat)).toNat

def encodeInteger (v : Int) : Bytes :=
  if Fits 1 v then intBytes 1 v else if Fits 2 v then intBytes 2 v else if Fits 4 v then
    intBytes 4 v else intBytes 8 v

def isNan (bits : UInt64) : Prop := 2047 * 2 ^ 52 < bits.toNat % 2 ^ 63

instance decidableIsNan (bits : UInt64) : Decidable (isNan bits) :=
  inferInstanceAs (Decidable (_ < _))

def canonicalF64 (bits : UInt64) : UInt64 :=
  if bits.toNat % 2 ^ 63 = 0 then 0 else if isNan bits then 0x7ff8000000000000 else bits

def encodeValue : OwnedValue → Bytes
  | .null => []
  | .integer v => encodeInteger v
  | .real v => leBytes 8 (canonicalF64 v).toNat
  | .text v => v
  | .blob v => v

def header (values : List OwnedValue) : Bytes :=
  1 :: (putVarint values.length ++ (values.map serialType).flatMap putVarint)

def payloads (values : List OwnedValue) : Bytes := values.flatMap encodeValue

def output (values : List OwnedValue) : Bytes := header values ++ payloads values

def encodeRecord (values : List OwnedValue) : Except Fault Bytes := do
  -- a serial type overflows, or no `Vec` holds the output
  require ((∀ v ∈ values, serialType v < 2 ^ 64) ∧ (output values).length ≤ isizeMax) .panicked
  pure (output values)

structure RecordRef where
  bytes : Bytes
  len_le : bytes.length ≤ isizeMax

structure RecordScratch where
  serials : List Nat
  offsets : List Nat
deriving DecidableEq

def payloadLen : Nat → Except RecordError Nat
  | 0 => pure 0
  | 1 => pure 1
  | 2 => pure 2
  | 3 => pure 4
  | 4 | 5 => pure 8
  | s => if 16 ≤ s then pure ((s - 16) / 2) else .error (.invalidSerial s)

def readSerials : Nat → Bytes → Except RecordError (List Nat × Bytes)
  | 0, bytes => pure ([], bytes)
  | n + 1, bytes => do
    let (serial, bytes) ← readVarint 0 0 bytes
    let (serials, bytes) ← readSerials n bytes
    pure (serial :: serials, bytes)

/-- The second loop of `decode_into`: each column's offset, and where the last one ends. -/
def placeColumns (len : Nat) : List Nat → Nat → Except RecordError (List Nat × Nat)
  | [], payload => pure ([], payload)
  | st :: sts, payload => do
    let n ← payloadLen st
    require (payload + n < 2 ^ 64) .truncated
    require (payload + n ≤ len) .truncated
    let (offsets, last) ← placeColumns len sts (payload + n)
    pure (payload :: offsets, last)

def readExact (bytes : Bytes) (off len : Nat) : Except RecordError Bytes := do
  let last := min (off + len) (2 ^ 64 - 1)
  require (off ≤ last ∧ last ≤ bytes.length) .truncated
  pure ((bytes.drop off).take (last - off))

/-- `read_exact` into a buffer of `w` bytes. -/
def readFixed (bytes : Bytes) (off w : Nat) : Except Fault Nat := do
  let buf ← (readExact bytes off w).mapError .err
  -- `copy_from_slice`, and the index of the one-byte slice, panic on another length
  require (buf.length = w) .panicked
  pure (ofLeBytes buf)

namespace RecordRef
variable (r : RecordRef)

def new (bytes : Bytes) (h : bytes.length ≤ isizeMax) : Except RecordError RecordRef :=
  match bytes.head? with
  | none => .error .empty
  | some format => if format ≠ 1 then .error (.unknownFormat format) else pure ⟨bytes, h⟩

def columnCount : Except RecordError Nat := do
  let (n, _) ← readVarint 0 0 (r.bytes.drop 1)
  pure n

def decodeInto : Except Fault RecordScratch := do
  let (ncols, rest) ← (readVarint 0 0 (r.bytes.drop 1)).mapError .err
  -- `reserve` panics with "capacity overflow"
  require (ncols * 8 ≤ isizeMax) .panicked
  (do
    let (serials, rest) ← readSerials ncols rest
    let (offsets, payload) ← placeColumns r.bytes.length serials (r.bytes.length - rest.length)
    require (payload = r.bytes.length) .truncated
    pure ⟨serials, offsets⟩ : Except RecordError RecordScratch).mapError .err

/-- The branch of `value_at` for the serial types from `ST_VAR_BASE` on. -/
def varAt (utf8 : Bytes → Bool) (off serial : Nat) : Except Fault OwnedValue := do
  let len ← (payloadLen serial).mapError .err
  let payload ← (readExact r.bytes off len).mapError .err
  if (serial - 16) % 2 = 1 then do
    require (utf8 payload) (.err .invalidUtf8)
    pure (.text payload)
  else pure (.blob payload)

def valueAt (utf8 : Bytes → Bool) (scratch : RecordScratch) (ordinal : Nat) :
    Except Fault OwnedValue := do
  let st ← ((scratch.serials)[ordinal]?).elim (.error (.err .columnOutOfBounds)) pure
  let off ← ((scratch.offsets)[ordinal]?).elim (.error (.err .columnOutOfBounds)) pure
  match st with
  | 0 => pure .null
  | 1 => return .integer (Int.bmod (← readFixed r.bytes off 1) (256 ^ 1))
  | 2 => return .integer (Int.bmod (← readFixed r.bytes off 2) (256 ^ 2))
  | 3 => return .integer (Int.bmod (← readFixed r.bytes off 4) (256 ^ 4))
  | 4 => return .integer (Int.bmod (← readFixed r.bytes off 8) (256 ^ 8))
  | 5 => return .real (UInt64.ofNat (← readFixed r.bytes off 8))
  | s => if 16 ≤ s then r.varAt utf8 off s else .error (.err (.invalidSerial s))

end RecordRef

/-! ### Reading back what was encoded -/

variable {utf8 : Bytes → Bool} {values : List OwnedValue} {v : OwnedValue} {r : RecordRef}
    {scratch : RecordScratch}
  {pre cell post : Bytes} {i w : Nat}

theorem readVarint_putVarint {value out shift : Nat} (hout : out < 2 ^ shift)
    (hv : value * 2 ^ shift < 2 ^ 64)
    (rest : Bytes) : readVarint out shift (putVarint value ++ rest) =
    .ok (out + value * 2 ^ shift, rest) := by
  induction value using putVarint.induct generalizing out shift with
  | case1 value hlt =>
    have hbyte : (UInt8.ofNat value).toNat = value := by
      rw [UInt8.toNat_ofNat', Nat.mod_eq_of_lt (by omega)]
    rw [putVarint, if_pos hlt, singleton_append, readVarint, hbyte, Nat.mod_eq_of_lt hlt,
      Nat.mod_eq_of_lt hv,
      if_pos hlt]
    rfl
  | case2 value hle ih =>
    have hbyte : (UInt8.ofNat (value % 128 + 128)).toNat = value % 128 + 128 := by
      rw [UInt8.toNat_ofNat', Nat.mod_eq_of_lt (by omega)]
    have hsplit : value * 2 ^ shift = value % 128 * 2 ^ shift + value / 128 * 2 ^ (shift + 7) := by
      conv_lhs => rw [← Nat.mod_add_div value 128]
      ring
    have hgroup : value % 128 * 2 ^ shift ≤ 127 * 2 ^ shift := Nat.mul_le_mul_right _ (by omega)
    have hshift : shift + 7 < 64 := by
      rw [← Nat.pow_lt_pow_iff_right (a := 2) (by decide), Nat.pow_add, Nat.mul_comm]
      exact (Nat.mul_le_mul_right _ (by omega)).trans_lt hv
    have hpow : 2 ^ (shift + 7) = 2 ^ shift * 128 := Nat.pow_add 2 shift 7
    rw [putVarint, if_neg hle, cons_append, readVarint, hbyte, if_neg (by omega), Nat.add_mod_right,
      Nat.mod_mod,
      Nat.mod_eq_of_lt (a := value % 128 * 2 ^ shift) (by omega), require, if_pos hshift]
    refine (ih (by omega) (by omega)).trans ?_
    rw [hsplit, Nat.add_assoc]

theorem readSerials_flatMap (rest : Bytes) : ∀ {serials : List Nat}, (∀ s ∈ serials, s < 2 ^ 64) →
    readSerials serials.length (serials.flatMap putVarint ++ rest) = .ok (serials, rest)
  | [], _ => rfl
  | s :: serials, h => by
    have hs : s * 2 ^ 0 < 2 ^ 64 := by simpa using h s mem_cons_self
    rw [length_cons, readSerials, flatMap_cons, append_assoc, readVarint_putVarint (by decide) hs]
    simp only [bind, Except.bind, readSerials_flatMap rest fun t ht => h t (mem_cons_of_mem _ ht)]
    simp [pure, Except.pure]

def offsetsFrom : Nat → List Nat → List Nat
  | _, [] => []
  | pos, n :: lens => pos :: offsetsFrom (pos + n) lens

/-- The bytes are one varint with this value and nothing else. -/
def IsVarint (bytes : Bytes) (value : Nat) : Prop := readVarint 0 0 bytes = .ok (value, [])

/-- The record is the format byte, the varint of the column count, a varint for each serial type and
the payloads, each as long as its serial type says; the offsets are the places of the payloads. -/
def RecordRef.Filled (r : RecordRef) (scratch : RecordScratch) : Prop :=
  ∃ format count serials payloads,
    r.bytes = format :: (count ++ serials.flatten ++ payloads.flatten) ∧
    IsVarint count scratch.serials.length ∧ List.Forall₂ IsVarint serials scratch.serials ∧
    List.Forall₂ (fun st p => payloadLen st = .ok p.length) scratch.serials payloads ∧
    scratch.offsets = offsetsFrom (1 + count.length + serials.flatten.length) (payloads.map length)

theorem readVarint_split {out shift n : Nat} {bytes rest : Bytes}
    (h : readVarint out shift bytes = .ok (n, rest)) :
    ∃ taken, bytes = taken ++ rest ∧ readVarint out shift taken = .ok (n, []) := by
  induction bytes generalizing out shift with
  | nil => cases h
  | cons byte bytes ih =>
    simp only [readVarint] at h
    split at h
    · next hlast =>
      cases h
      exact ⟨[byte], rfl, by rw [readVarint, if_pos hlast]; rfl⟩
    · next hmore =>
      simp only [bind_eq_ok, require_eq_ok] at h
      obtain ⟨-, hshift, h⟩ := h
      obtain ⟨taken, rfl, htaken⟩ := ih h
      refine ⟨byte :: taken, rfl, ?_⟩
      rw [readVarint, if_neg hmore, require, if_pos hshift]
      exact htaken

theorem readSerials_split {n : Nat} {bytes rest : Bytes} {serials : List Nat}
    (h : readSerials n bytes = .ok (serials, rest)) :
    n = serials.length ∧ ∃ taken : List Bytes, bytes = taken.flatten ++ rest ∧
      List.Forall₂ IsVarint taken serials := by
  induction n generalizing bytes serials with
  | zero =>
    cases h
    exact ⟨rfl, [], rfl, .nil⟩
  | succ n ih =>
    simp only [readSerials, bind_eq_ok, pure_eq_ok, Prod.exists, Prod.mk.injEq] at h
    obtain ⟨serial, bytes', hfirst, serials', _, hrest, rfl, rfl⟩ := h
    obtain ⟨first, rfl, hv⟩ := readVarint_split hfirst
    obtain ⟨rfl, taken, rfl, hall⟩ := ih hrest
    exact ⟨rfl, first :: taken, by rw [flatten_cons, append_assoc], .cons hv hall⟩

theorem placeColumns_eq_ok {len : Nat} (hlen : len < 2 ^ 64) {sts offsets : List Nat}
    {pos last : Nat}
    (hpos : pos ≤ len) : placeColumns len sts pos = .ok (offsets, last) ↔
      ∃ lens, List.Forall₂ (fun st n => payloadLen st = .ok n) sts lens ∧
        offsets = offsetsFrom pos lens ∧
        last = pos + lens.sum ∧ last ≤ len := by
  induction sts generalizing pos offsets with
  | nil =>
    simp only [placeColumns, pure_eq_ok, Prod.mk.injEq, forall₂_nil_left_iff, exists_eq_left,
      offsetsFrom,
      sum_nil]
    constructor
    · rintro ⟨rfl, rfl⟩
      exact ⟨rfl, rfl, hpos⟩
    · rintro ⟨rfl, rfl, -⟩
      exact ⟨rfl, rfl⟩
  | cons st sts ih =>
    simp only [placeColumns, bind_eq_ok, require_eq_ok, pure_eq_ok, Prod.exists, Prod.mk.injEq,
      exists_const]
    constructor
    · rintro ⟨n, hn, -, hle, os, l, hrest, rfl, rfl⟩
      obtain ⟨lens, hall, rfl, hlast, hend⟩ := (ih hle).1 hrest
      exact ⟨n :: lens, .cons hn hall, rfl, by rw [sum_cons]; omega, hend⟩
    · rintro ⟨_, hall, rfl, hlast, hend⟩
      obtain ⟨n, lens, hn, hrest, rfl⟩ := forall₂_cons_left_iff.1 hall
      rw [sum_cons] at hlast
      exact ⟨n, hn, by omega, by omega, _, last,
        (ih (by omega)).2 ⟨lens, hrest, rfl, by omega, hend⟩, rfl, rfl⟩

/-- What the type `&[ValueRef]` says of the values, and that no real is a NaN. -/
structure Encodable (utf8 : Bytes → Bool) (values : List OwnedValue) : Prop where
  slice : values.length * 24 ≤ isizeMax
  integer : ∀ v, .integer v ∈ values → Fits 8 v
  real : ∀ bits, .real bits ∈ values → ¬ isNan bits
  text : ∀ v, .text v ∈ values → utf8 v = true

def readBack : OwnedValue → OwnedValue
  | .real bits => .real (if bits = 0x8000000000000000 then 0 else bits)
  | v => v

def RoundTrips (utf8 : Bytes → Bool) (values : List OwnedValue) : Prop :=
  ∀ bytes, encodeRecord values = .ok bytes → ∃ h r scratch, RecordRef.new bytes h = .ok r ∧
    r.decodeInto = .ok scratch ∧
    scratch.serials.length = values.length ∧
      ∀ (i : Nat) (v : OwnedValue), values[i]? = some v →
        r.valueAt utf8 scratch i = .ok (readBack v)

theorem canonicalF64_eq {bits : UInt64} (h : ¬ isNan bits) :
    canonicalF64 bits = if bits = 0x8000000000000000 then 0 else bits := by
  have hlt := bits.toNat_lt
  have heq : bits = 0x8000000000000000 ↔ bits.toNat = 2 ^ 63 := UInt64.toNat_inj.symm
  have hzero : bits = 0 ↔ bits.toNat = 0 := UInt64.toNat_inj.symm
  unfold canonicalF64
  split
  · next hmod =>
    split
    · rfl
    · next hne => exact (hzero.2 (by rw [heq] at hne; omega)).symm
  · next hmod => rw [if_neg (by rw [heq]; omega)]

theorem bmod_intBytes {v : Int} (h : Fits w v) :
    Int.bmod (ofLeBytes (intBytes w v)) (256 ^ w) = v := by
  have hm : (0 : Int) < (256 ^ w : Nat) := Int.natCast_pos.2 (Nat.pow_pos (by decide))
  have hlt : (v % (256 ^ w : Nat)).toNat < 256 ^ w := by
    omega
  rw [intBytes, ofLeBytes_leBytes hlt, Int.toNat_of_nonneg (Int.emod_nonneg v hm.ne'),
    Int.emod_bmod]
  obtain ⟨hlo, hhi⟩ := h
  apply Int.bmod_eq_of_le <;> push_cast <;> omega

theorem payloadLen_serialType (v : OwnedValue) :
    payloadLen (serialType v) = .ok (encodeValue v).length := by
  cases v with
  | null => rfl
  | integer v =>
    simp only [serialType, encodeValue, encodeInteger]
    repeat' split
    all_goals rw [intBytes, length_leBytes]; rfl
  | real bits => rw [encodeValue, length_leBytes]; rfl
  | text v =>
    have hhalf : (v.length * 2 + 1 + 16 - 16) / 2 = v.length := by omega
    exact congrArg Except.ok hhalf
  | blob v =>
    have hhalf : (v.length * 2 + 16 - 16) / 2 = v.length := by omega
    exact congrArg Except.ok hhalf

theorem readExact_append (h : (pre ++ cell ++ post).length ≤ isizeMax) :
    readExact (pre ++ cell ++ post) pre.length cell.length = .ok cell := by
  simp only [length_append, isizeMax] at h
  rw [readExact, min_eq_left (by omega), require, if_pos (by simp only [length_append]; omega)]
  simp [bind, Except.bind, pure, Except.pure]

theorem readFixed_append (h : (pre ++ cell ++ post).length ≤ isizeMax) :
    readFixed (pre ++ cell ++ post) pre.length cell.length = .ok (ofLeBytes cell) := by
  rw [readFixed, readExact_append h]
  simp [Except.mapError, bind, Except.bind, pure, Except.pure, require]

def lengths (values : List OwnedValue) : List Nat := values.map fun v => (encodeValue v).length

theorem getElem?_offsetsFrom (bytes : Bytes) (h : values[i]? = some v) :
    ∃ pre post, bytes ++ payloads values = pre ++ encodeValue v ++ post ∧
      (offsetsFrom bytes.length (lengths values))[i]? = some pre.length := by
  induction values generalizing bytes i with
  | nil => simp at h
  | cons w values ih =>
    cases i with
    | zero =>
      obtain rfl : w = v := by simpa using h
      exact ⟨bytes, payloads values, by simp [payloads], rfl⟩
    | succ i =>
      obtain ⟨pre, post, heq, hoff⟩ := ih (bytes ++ encodeValue w) (by simpa using h)
      rw [length_append] at hoff
      exact ⟨pre, post, by rw [← heq, payloads, flatMap_cons, append_assoc]; rfl, hoff⟩

theorem varAt_append (utf8 : Bytes → Bool) (hb : r.bytes = pre ++ encodeValue v ++ post) :
    r.varAt utf8 pre.length (serialType v) =
      if (serialType v - 16) % 2 = 1 then do
        require (utf8 (encodeValue v)) (.err .invalidUtf8)
        pure (.text (encodeValue v))
      else pure (.blob (encodeValue v)) := by
  have hread := readExact_append (hb ▸ r.len_le)
  rw [RecordRef.varAt, payloadLen_serialType, hb]
  simp only [Except.mapError, bind, Except.bind, hread]

theorem integer_readFixed {v : Int} (hf : Fits w v)
    (hlen : (pre ++ intBytes w v ++ post).length ≤ isizeMax) :
    (do
      let bytes ← readFixed (pre ++ intBytes w v ++ post) pre.length w
      return .integer (Int.bmod bytes (256 ^ w)) : Except Fault OwnedValue) = .ok (.integer v) := by
  have hread := readFixed_append hlen
  rw [intBytes, length_leBytes, ← intBytes] at hread
  simp only [hread, bind, Except.bind, bmod_intBytes hf]
  rfl

theorem valueAt_eq (hv : Encodable utf8 values) (hmem : v ∈ values)
    (hs : scratch.serials[i]? = some (serialType v)) (ho : scratch.offsets[i]? = some pre.length)
    (hb : r.bytes = pre ++ encodeValue v ++ post) :
    r.valueAt utf8 scratch i = .ok (readBack v) := by
  have hlen := hb ▸ r.len_le
  rw [RecordRef.valueAt, hs, ho]
  cases v with
  | null => rfl
  | integer v =>
    have h8 := hv.integer v hmem
    rw [hb]
    simp only [serialType, encodeValue, encodeInteger] at hlen ⊢
    split_ifs at hlen ⊢ with h1 h2 h4
    · exact integer_readFixed h1 hlen
    · exact integer_readFixed h2 hlen
    · exact integer_readFixed h4 hlen
    · exact integer_readFixed h8 hlen
  | real bits =>
    have hread := readFixed_append hlen
    rw [encodeValue, length_leBytes, ofLeBytes_leBytes (canonicalF64 bits).toNat_lt] at hread
    rw [hb, readBack, ← canonicalF64_eq (hv.real bits hmem)]
    simp only [serialType, Option.elim, encodeValue, pure, Except.pure, bind, Except.bind, hread,
      UInt64.ofNat_toNat]
  | text v =>
    refine (varAt_append utf8 hb).trans ?_
    have hutf8 : utf8 (encodeValue (.text v)) = true := hv.text v hmem
    rw [if_pos (by rw [serialType]; omega), require, if_pos hutf8]
    rfl
  | blob v =>
    refine (varAt_append utf8 hb).trans ?_
    rw [if_neg (by rw [serialType]; omega)]
    rfl

theorem placeColumns_encoded (values : List OwnedValue) (hlen : (output values).length ≤ isizeMax) :
    placeColumns (output values).length (values.map serialType) (header values).length =
      .ok (offsetsFrom (header values).length (lengths values), (output values).length) := by
  have hall : List.Forall₂ (fun st n => payloadLen st = .ok n) (values.map serialType)
      (lengths values) := by
    rw [lengths, forall₂_map_left_iff, forall₂_map_right_iff]
    exact forall₂_same.2 fun v _ => payloadLen_serialType v
  unfold isizeMax at hlen
  refine (placeColumns_eq_ok (by omega) (by rw [output, length_append]; omega)).2
    ⟨_, hall, rfl, ?_, le_rfl⟩
  rw [output, length_append, payloads, length_flatMap, lengths]

theorem roundTrips (hv : Encodable utf8 values) : RoundTrips utf8 values := by
  intro bytes henc
  obtain ⟨⟨hser, hlen⟩, rfl⟩ := guarded_eq_ok.1 henc
  have hslice := hv.slice
  have hcount : values.length * 8 ≤ isizeMax := by omega
  have hserials :
      readSerials values.length ((values.map serialType).flatMap putVarint ++ payloads values) =
      .ok (values.map serialType, payloads values) := by
    rw [← length_map serialType]
    exact readSerials_flatMap _ (forall_mem_map.2 hser)
  have hrest : (output values).drop 1 = putVarint values.length ++
      ((values.map serialType).flatMap putVarint ++ payloads values) := by
    rw [output, header, cons_append, drop_one, tail_cons, append_assoc]
  have hstart : (output values).length - (payloads values).length = (header values).length := by
    rw [output, length_append, Nat.add_sub_cancel]
  refine ⟨hlen, ⟨_, hlen⟩,
    ⟨values.map serialType, offsetsFrom (header values).length (lengths values)⟩, rfl, ?_,
    length_map _, ?_⟩
  · simp only [RecordRef.decodeInto, hrest]
    rw [readVarint_putVarint (by decide) (by unfold isizeMax at hcount; omega)]
    simp only [pow_zero, Nat.mul_one, Nat.zero_add, Except.mapError, bind, Except.bind, require,
      if_pos hcount, hserials,
      hstart, placeColumns_encoded values hlen, if_true]
    rfl
  · intro i v hi
    obtain ⟨pre, post, heq, hoff⟩ := getElem?_offsetsFrom (header values) hi
    refine valueAt_eq hv (mem_of_getElem? hi) ?_ hoff heq
    rw [getElem?_map, hi]
    rfl

def NoPanic {α : Type} (x : Except Fault α) : Prop := x ≠ .error .panicked

theorem noPanic_ok {α : Type} (a : α) : NoPanic (.ok a) := by simp [NoPanic]

theorem noPanic_mapError {α : Type} (x : Except RecordError α) : NoPanic (x.mapError .err) := by
  cases x <;> simp [NoPanic, Except.mapError]

theorem NoPanic.bind {α β : Type} {x : Except Fault α} {f : α → Except Fault β} (hx : NoPanic x)
    (hf : ∀ a, NoPanic (f a)) :
    NoPanic (x >>= f) := by
  cases x with
  | ok a => exact hf a
  | error e => exact fun h => hx (congrArg Except.error (Except.error.inj h))

theorem noPanic_readFixed (r : RecordRef) (off w : Nat) : NoPanic (readFixed r.bytes off w) := by
  have hlen := r.len_le
  unfold isizeMax at hlen
  intro h
  cases hread : readExact r.bytes off w with
  | error e => simp [readFixed, hread, Except.mapError, bind, Except.bind] at h
  | ok buf =>
    have hw : buf.length = w := by
      obtain ⟨hin, rfl⟩ := guarded_eq_ok.1 hread
      rw [length_take, length_drop]
      omega
    simp [readFixed, hread, hw, Except.mapError, bind, Except.bind, require, pure, Except.pure] at h

theorem noPanic_valueAt (r : RecordRef) (utf8 : Bytes → Bool) (scratch : RecordScratch)
    (ordinal : Nat) :
    NoPanic (r.valueAt utf8 scratch ordinal) := by
  have helim : ∀ o : Option Nat, NoPanic (o.elim (.error (.err .columnOutOfBounds)) pure) := by
    intro o
    cases o <;> simp [NoPanic, pure, Except.pure]
  refine (helim _).bind fun st => (helim _).bind fun off => ?_
  split
  · exact noPanic_ok _
  iterate 5 exact (noPanic_readFixed r off _).bind fun _ => noPanic_ok _
  · split
    · refine (noPanic_mapError _).bind fun len => (noPanic_mapError _).bind fun payload => ?_
      split
      · refine .bind ?_ fun _ => noPanic_ok _
        unfold require
        split <;> simp [NoPanic]
      · exact noPanic_ok _
    · simp [NoPanic]

theorem filled_of_decodeInto (h : r.decodeInto = .ok scratch) : r.Filled scratch := by
  have hlen := r.len_le
  unfold isizeMax at hlen
  have hmap : ∀ {α : Type} {x : Except RecordError α} {a : α}, x.mapError Fault.err = .ok a →
      x = .ok a := by
    intro α x a hx
    cases x with
    | ok b => exact congrArg _ (Except.ok.inj hx)
    | error e => cases hx
  simp only [RecordRef.decodeInto, bind_eq_ok, require_eq_ok, Prod.exists] at h
  obtain ⟨ncols, rest, hcount, -, -, h⟩ := h
  have h := hmap h
  simp only [bind_eq_ok, require_eq_ok, pure_eq_ok, Prod.exists] at h
  obtain ⟨serials, body, hserials, offsets, payload, hplace, -, hend, rfl⟩ := h
  obtain ⟨count, hsplit, hvarint⟩ := readVarint_split (hmap hcount)
  obtain ⟨rfl, taken, rfl, htaken⟩ := readSerials_split hserials
  -- the count could be read, so there is a byte before it
  obtain ⟨format, hbytes⟩ : ∃ format, r.bytes = format :: (count ++ (taken.flatten ++ body)) := by
    cases hb : r.bytes with
    | nil =>
      rw [hb] at hsplit
      rw [(append_eq_nil_iff.1 hsplit.symm).1] at hvarint
      cases hvarint
    | cons format bytes => exact ⟨format, congrArg _ (by simpa [hb] using hsplit)⟩
  have hstart : r.bytes.length - body.length = 1 + count.length + taken.flatten.length := by
    simp only [hbytes, length_cons, length_append]
    omega
  obtain ⟨lens, hall, hoff, hlast, -⟩ := (placeColumns_eq_ok (by omega) (by omega)).1 hplace
  have hsum : lens.sum = body.length := by
    simp only [hbytes, length_cons, length_append] at hlast hend hstart
    omega
  have hlens := map_splitLengths_length body lens hsum.le
  refine ⟨format, count, taken, lens.splitLengths body, ?_, hvarint, htaken, ?_, ?_⟩
  · rw [flatten_splitLengths body lens hsum.ge, hbytes, append_assoc]
  · rw [← hlens, forall₂_map_right_iff] at hall
    exact hall
  · rw [hlens, ← hstart, hoff]

theorem noPanic_decodeInto_iff (r : RecordRef) :
    NoPanic r.decodeInto ↔ ∀ n, r.columnCount = .ok n → n * 8 ≤ isizeMax := by
  unfold RecordRef.decodeInto RecordRef.columnCount
  cases readVarint 0 0 (r.bytes.drop 1) with
  | error e => simp [NoPanic, Except.mapError, bind, Except.bind]
  | ok p =>
    obtain ⟨n, rest⟩ := p
    constructor
    · intro hno m hm
      cases hm
      by_contra hbig
      exact hno (by simp [Except.mapError, bind, Except.bind, require, hbig])
    · intro hsmall
      change NoPanic (require (n * 8 ≤ isizeMax) .panicked >>= fun _ => Except.mapError _ _)
      rw [require, if_pos (hsmall n rfl)]
      exact noPanic_mapError _

/-- Values are read back and every accepted record is filled exactly. The count of columns, which
`decode_into` reserves memory for before it has seen a column, is the one input that makes it panic.
-/
theorem record_codec (utf8 : Bytes → Bool) :
    (∀ values, Encodable utf8 values → RoundTrips utf8 values) ∧ ∀ r : RecordRef,
      (∀ scratch ordinal, NoPanic (r.valueAt utf8 scratch ordinal)) ∧
      (∀ scratch, r.decodeInto = .ok scratch → r.Filled scratch) ∧
      (NoPanic r.decodeInto ↔ ∀ n, r.columnCount = .ok n → n * 8 ≤ isizeMax) :=
  ⟨fun _ => roundTrips,
    fun r => ⟨noPanic_valueAt r utf8, fun _ => filled_of_decodeInto, noPanic_decodeInto_iff r⟩⟩

def hugeCount : RecordRef := ⟨[1, 0x80, 0x80, 0x80, 0x80, 0x80, 0x80, 0x80, 0x80, 0x10], by decide⟩

/-- Ten bytes that declare `2 ^ 60` columns. -/
theorem huge_count_panics : RecordRef.new hugeCount.bytes hugeCount.len_le = .ok hugeCount ∧
    hugeCount.columnCount = .ok (2 ^ 60) ∧ hugeCount.decodeInto = .error .panicked :=
  ⟨rfl, by decide +kernel, by decide +kernel⟩

end RedlineDb.Record
