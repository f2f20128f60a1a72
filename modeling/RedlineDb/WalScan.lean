import Mathlib.Data.List.Range
import RedlineDb.WalStorage

/-!
# Scanning a log directory

`Holds files contents` says what is in the segment files, in order. A directory whose files are
encoded records, each at its LSN, is read back as these records; in the last file the scan stops
before a torn record.
-/

namespace RedlineDb.WalFile
open Lib List
variable {sb : Nat}

/-! ### Files with records -/

def encs (rs : List Record) : Bytes := rs.flatMap Record.encoded

@[simp] theorem encs_nil : encs [] = [] := rfl

@[simp] theorem encs_cons (r : Record) (rs : List Record) :
    encs (r :: rs) = r.encoded ++ encs rs := rfl

@[simp] theorem encs_append (rs rs' : List Record) : encs (rs ++ rs') = encs rs ++ encs rs' :=
  flatMap_append

def At : Nat → List Record → Prop
  | _, [] => True
  | lsn, r :: rs => r.lsn = lsn ∧ At (lsn + r.encodedLen) rs

theorem at_append {lsn : Nat} {rs rs' : List Record} :
    At lsn (rs ++ rs') ↔ At lsn rs ∧ At (lsn + (encs rs).length) rs' := by
  induction rs generalizing lsn with
  | nil => simp [At]
  | cons r rs ih =>
    rw [cons_append, At, At, ih, encs_cons, length_append, Record.length_encoded, Nat.add_assoc,
      and_assoc]

theorem At.mem {lsn : Nat} {rs : List Record} (h : At lsn rs) {r : Record} (hr : r ∈ rs) :
    lsn ≤ r.lsn ∧ r.endLsn ≤ lsn + (encs rs).length := by
  induction rs generalizing lsn with
  | nil => cases hr
  | cons r' rs ih =>
    obtain ⟨h1, h2⟩ := h
    rw [encs_cons, length_append, Record.length_encoded]
    rcases mem_cons.1 hr with rfl | hr
    · rw [Record.endLsn, h1]
      omega
    · have := ih h2 hr
      omega

theorem At.getLast {lsn : Nat} {rs : List Record} {r : Record} (h : At lsn (rs ++ [r])) :
    r.endLsn = lsn + (encs (rs ++ [r])).length := by
  obtain ⟨-, h, -⟩ := at_append.1 h
  rw [Record.endLsn, h, encs_append, length_append, encs_cons, encs_nil, append_nil,
    Record.length_encoded]
  omega

section File
variable {seg : Nat} {isLast : Bool} {file a b : Bytes} {r : Record} {acc : List Record}
    {rounds : Nat}

theorem readField_header {bs : Bytes} (hr : r.Fits) (hpre : r.encoded.take walHeaderLen = bs) :
    readField bs 12 4 = .ok r.payload.length := by
  apply readField_eq_ok
  have hle : walHeaderLen ≤ r.encoded.length := by
    rw [Record.length_encoded]
    exact r.walHeaderLen_le
  have hlen : 12 + 4 ≤ bs.length := by
    rw [← hpre, length_take_of_le hle]
    decide
  have happ := readLe_append (a := r.encoded.drop walHeaderLen) hlen
  rw [← hpre, take_append_drop] at happ
  rw [← hpre, ← happ]
  exact Record.readLe_payloadLen hr

/-! `Reads` says how far a file can be read, whatever follows. -/

structure ReadsAt (sb seg : Nat) (file : Bytes) (o : Nat) (r : Record) : Prop where
  header : readField ((file.drop o).take walHeaderLen) 12 4 = .ok r.payload.length
  size : r.encodedLen ≤ sb
  inside : o + r.encodedLen ≤ file.length
  decode : Record.decode ((file.drop o).take r.encodedLen) = .ok r
  lsn : r.lsn = (seg - 1) * sb + o
  u64 : r.lsn < 2 ^ 64

inductive Reads (sb seg : Nat) (file : Bytes) : Nat → List Record → Prop
  | nil : Reads sb seg file 0 []
  | snoc {o : Nat} {rs : List Record} {r : Record} :
      Reads sb seg file o rs → ReadsAt sb seg file o r →
        Reads sb seg file (o + r.encodedLen) (rs ++ [r])

variable {o n : Nat} {file' : Bytes} {rs : List Record}

theorem take_drop_congr {k : Nat} (h : file.take n = file'.take n) (hk : o + k ≤ n) :
    (file.drop o).take k = (file'.drop o).take k := by
  have hcut : ∀ f : Bytes, (f.drop o).take k = ((f.take n).drop o).take k := by
    intro f
    rw [drop_take, take_take, min_eq_left (by omega)]
  rw [hcut file, h, ← hcut file']

theorem ReadsAt.congr (h : ReadsAt sb seg file o r) (hf : file.take n = file'.take n)
    (hn : o + r.encodedLen ≤ n) :
    ReadsAt sb seg file' o r := by
  have h48 := r.walHeaderLen_le
  refine ⟨?_, h.size, ?_, ?_, h.lsn, h.u64⟩
  · rw [← take_drop_congr hf (by omega)]
    exact h.header
  · have hlen := congrArg length hf
    have hin := h.inside
    rw [length_take, length_take] at hlen
    omega
  · rw [← take_drop_congr hf hn]
    exact h.decode

section
variable (h : Reads sb seg file o rs)
include h

theorem Reads.le_length : o ≤ file.length := by
  cases h with
  | nil => exact Nat.zero_le _
  | snoc _ hr => exact hr.inside

theorem Reads.congr (hf : file.take n = file'.take n) (hn : o ≤ n) :
    Reads sb seg file' o rs := by
  induction h with
  | nil => exact .nil
  | snoc _ hr ih => exact .snoc (ih (by omega)) (hr.congr hf hn)

theorem Reads.length_le : rs.length ≤ o := by
  induction h with
  | nil => exact le_rfl
  | @snoc o rs r _ _ ih =>
    have h48 := r.walHeaderLen_le
    have hpos : 0 < walHeaderLen := by decide
    rw [length_append, length_singleton]
    omega

theorem Reads.getLast (ho : 0 < o) :
    ∃ r, rs.getLast? = some r ∧ r.endLsn = (seg - 1) * sb + o ∧ r.lsn < 2 ^ 64 := by
  cases h with
  | nil => exact absurd ho (lt_irrefl 0)
  | @snoc o rs r _ hr =>
    refine ⟨r, getLast?_concat, ?_, hr.u64⟩
    rw [Record.endLsn, hr.lsn, Nat.add_assoc]

omit h in
theorem readsAt_encoded {a b : Bytes} (hr : r.Fits) (hle : r.encodedLen ≤ sb)
    (hlsn : r.lsn = (seg - 1) * sb + a.length) :
    ReadsAt sb seg (a ++ (r.encoded ++ b)) a.length r := by
  have h48 := r.walHeaderLen_le
  refine ⟨readField_header hr ?_, hle, ?_, ?_, hlsn, hr.lsn⟩
  · rw [drop_left, take_append_of_le_length (by rw [Record.length_encoded]; exact h48)]
  · simp only [length_append, Record.length_encoded]
    omega
  · rw [drop_left, take_left' (Record.length_encoded r)]
    exact Record.decode_encoded hr

omit h in
theorem ReadsAt.scanLoop (h : ReadsAt sb seg file o r) :
    scanLoop sb seg file isLast (n + 1) o acc = scanLoop sb seg file isLast n (o + r.encodedLen)
      (acc ++ [r]) := by
  have h48 := r.walHeaderLen_le
  have hpos : 0 < walHeaderLen := by decide
  have hin := h.inside
  have hvalid : validateRecordPosition r seg o sb = .ok () := by
    have hu := h.u64
    simp only [validateRecordPosition, ← h.lsn, require, if_pos hu, if_true]
    rfl
  rw [WalFile.scanLoop, if_neg (by omega), if_neg (by omega)]
  have hlen : walHeaderLen + r.payload.length = r.encodedLen := rfl
  simp only [h.header, bind, Except.bind, hlen, h.decode, hvalid]
  rw [if_neg (not_lt.2 h.size), if_neg (by omega)]

theorem Reads.scanLoop : scanLoop sb seg file isLast file.length 0 acc =
    scanLoop sb seg file isLast (file.length - rs.length) o (acc ++ rs) := by
  have hloop : ∀ n, WalFile.scanLoop sb seg file isLast (rs.length + n) 0 acc =
      WalFile.scanLoop sb seg file isLast n o (acc ++ rs) := by
    induction h with
    | nil => simp
    | snoc _ hr ih =>
      intro n
      rw [length_append, length_singleton, Nat.add_assoc, Nat.add_comm 1 n, ih, hr.scanLoop,
        append_assoc]
  rw [← hloop, Nat.add_sub_cancel' (h.length_le.trans h.le_length)]

end

theorem reads_encs (hr : ∀ r ∈ rs, r.Fits) (hat : At ((seg - 1) * sb) rs)
    (hle : (encs rs).length ≤ sb) :
    Reads sb seg (encs rs ++ b) (encs rs).length rs := by
  induction rs using reverseRecOn generalizing b with
  | nil => exact .nil
  | append_singleton rs r ih =>
    obtain ⟨hat, hlsn, -⟩ := at_append.1 hat
    rw [encs_append, encs_cons, encs_nil, append_nil, length_append, Record.length_encoded] at hle
    rw [encs_append, encs_cons, encs_nil, append_nil, append_assoc, length_append,
      Record.length_encoded]
    exact .snoc (ih (fun r' h => hr r' (by simp [h])) hat (by omega))
      (readsAt_encoded (hr r (by simp)) (by omega) hlsn)

def Torn (sb : Nat) (b : Bytes) : Prop :=
  ∃ r : Record, ∃ c, r.Fits ∧ r.encodedLen ≤ sb ∧ 0 < c ∧ c < r.encodedLen ∧ b = r.encoded.take c

theorem scanLoop_torn (hfile : file = a ++ b) (ht : Torn sb b) :
    scanLoop sb seg file true (rounds + 1) a.length acc = .ok (acc, true) := by
  obtain ⟨r, c, hr, hle, hpos, hlt, rfl⟩ := ht
  have hblen : (r.encoded.take c).length = c := by
    apply length_take_of_le
    rw [Record.length_encoded]
    omega
  have hdrop : file.drop a.length = r.encoded.take c := by rw [hfile, drop_left]
  have hlen : file.length - a.length = c := by
    rw [hfile, length_append, hblen]
    omega
  rw [scanLoop, if_neg (by omega)]
  by_cases hc : c < walHeaderLen
  · rw [if_pos (by omega)]
    rfl
  · have hheader : readField ((file.drop a.length).take walHeaderLen) 12 4 =
        .ok r.payload.length := by
      refine readField_header hr ?_
      rw [hdrop, take_take, min_eq_left (by omega)]
    rw [if_neg (by omega)]
    simp only [hheader, bind, Except.bind]
    rw [if_neg (show ¬ sb < walHeaderLen + r.payload.length from not_lt.2 hle),
      if_pos (show file.length - a.length < walHeaderLen + r.payload.length by
        rw [hlen]; exact hlt)]
    rfl

end File

theorem scanLoop_whole {seg : Nat} {isLast : Bool} {rs acc : List Record} (hr : ∀ r ∈ rs, r.Fits)
    (hat : At ((seg - 1) * sb) rs) (hle : (encs rs).length ≤ sb) :
    scanLoop sb seg (encs rs) isLast (encs rs).length 0 acc = .ok (acc ++ rs, false) := by
  have hreads : Reads sb seg (encs rs ++ []) (encs rs).length rs := reads_encs hr hat hle
  rw [append_nil] at hreads
  rw [hreads.scanLoop]
  cases (encs rs).length - rs.length with
  | zero => rfl
  | succ n => rw [scanLoop, if_pos le_rfl]

theorem scanLoop_tail {seg : Nat} {rs acc : List Record} {b : Bytes} (hr : ∀ r ∈ rs, r.Fits)
    (hat : At ((seg - 1) * sb) rs) (hle : (encs rs).length ≤ sb) (ht : Torn sb b) :
    scanLoop sb seg (encs rs ++ b) true (encs rs ++ b).length 0 acc = .ok (acc ++ rs, true) := by
  have hb : 0 < b.length := by
    obtain ⟨r, c, -, -, hpos, hlt, rfl⟩ := ht
    rw [length_take_of_le (by rw [Record.length_encoded]; omega)]
    exact hpos
  have hreads := reads_encs (b := b) hr hat hle
  obtain ⟨n, hn⟩ : ∃ n, (encs rs ++ b).length - rs.length = n + 1 := by
    have := hreads.length_le
    refine ⟨(encs rs ++ b).length - rs.length - 1, ?_⟩
    rw [length_append]
    omega
  rw [hreads.scanLoop, hn]
  exact scanLoop_torn rfl ht

def Holds (files : Files) (contents : List Bytes) : Prop :=
  files.lookup 0 = none ∧ ∀ k, files.lookup (k + 1) = contents[k]?

namespace Holds
variable {files : Files} {contents : List Bytes} {bs : Bytes} {k : Nat}
section
variable (h : Holds files contents)
include h

theorem segmentBytesOf_eq (hk : contents[k]? = some bs) : segmentBytesOf files (k + 1) = bs := by
  rw [segmentBytesOf, h.2, hk]
  rfl

theorem insert (hk : k < contents.length) :
    Holds (files.insert (k + 1) bs) (contents.set k bs) := by
  refine ⟨by rw [AList.lookup_insert_ne (by omega)]; exact h.1, fun j => ?_⟩
  by_cases hj : j = k
  · subst hj
    rw [AList.lookup_insert, getElem?_set_self hk]
  · rw [AList.lookup_insert_ne (by omega), h.2, getElem?_set_ne (Ne.symm hj)]

theorem openRwCreate_of_lt (hk : k < contents.length) : openRwCreate files (k + 1) = files := by
  rw [openRwCreate, h.2, getElem?_eq_getElem hk]

theorem openRwCreate_length :
    Holds (openRwCreate files (contents.length + 1)) (contents ++ [[]]) := by
  have hnone : files.lookup (contents.length + 1) = none := by
    rw [h.2]
    exact getElem?_eq_none le_rfl
  rw [openRwCreate, hnone]
  refine ⟨by rw [AList.lookup_insert_ne (by omega)]; exact h.1, fun j => ?_⟩
  rcases lt_trichotomy j contents.length with hj | rfl | hj
  · rw [AList.lookup_insert_ne (by omega), h.2, getElem?_append_left hj]
  · rw [AList.lookup_insert, getElem?_concat_length]
  · rw [AList.lookup_insert_ne (by omega), h.2, getElem?_eq_none (by omega),
      getElem?_eq_none (by rw [length_append]; exact hj)]

theorem mem_keys_iff {n : Nat} : n ∈ files.keys ↔ 1 ≤ n ∧ n < 1 + contents.length := by
  rw [← AList.mem_keys, ← AList.lookup_isSome]
  cases n with
  | zero => simp [h.1]
  | succ k =>
    rw [h.2, Option.isSome_iff_exists]
    constructor
    · rintro ⟨bs, hbs⟩
      have := (List.getElem?_eq_some_iff.1 hbs).1
      omega
    · intro hk
      exact ⟨_, getElem?_eq_getElem (by omega)⟩

theorem segmentNumbers_eq : segmentNumbers files = List.range' 1 contents.length := by
  have hperm : (segmentNumbers files).Perm (range' 1 contents.length) := by
    refine (perm_insertionSort _ _).trans
      ((perm_ext_iff_of_nodup files.nodupKeys nodup_range').2 ?_)
    intro n
    exact h.mem_keys_iff.trans mem_range'_1.symm
  exact hperm.eq_of_pairwise' (pairwise_insertionSort _ _) pairwise_le_range'

end
end Holds

structure SegOk (sb k : Nat) (rs : List Record) : Prop where
  lsns : At (k * sb) rs
  size : (encs rs).length ≤ sb
  fits : ∀ r ∈ rs, r.Fits

/-- A directory whose last file may end in part of a record. Only the last segment may be without
records. -/
structure Disk (sb : Nat) (files : Files) (init : List (List Record)) (last : List Record)
    (tail : Bytes) : Prop where
  holds : Holds files (init.map encs ++ [encs last ++ tail])
  segs : ∀ k rs, (init ++ [last])[k]? = some rs → SegOk sb k rs
  nonempty : ∀ rs ∈ init, rs ≠ []
  torn : tail = [] ∨ Torn sb tail
  size : (encs last ++ tail).length ≤ sb

variable {files : Files}

theorem scanSegments_eq {last acc : List Record} {tail : Bytes} {segs : List (List Record)}
    {k : Nat}
    (hfiles : ∀ i, files.lookup (k + i + 1) = (segs.map encs ++ [encs last ++ tail])[i]?)
    (hsegs : ∀ i rs, (segs ++ [last])[i]? = some rs → SegOk sb (k + i) rs)
    (ht : tail = [] ∨ Torn sb tail) :
    scanSegments sb files (List.range' (k + 1) (segs.length + 1)) acc false =
      .ok (acc ++ (segs.flatten ++ last), decide (tail ≠ [])) := by
  induction segs generalizing k acc with
  | nil =>
    have hfile : segmentBytesOf files (k + 1) = encs last ++ tail := by
      rw [segmentBytesOf, hfiles 0]
      rfl
    have hok := hsegs 0 last rfl
    have hat : At ((k + 1 - 1) * sb) last := hok.lsns
    rw [length_nil, range'_one, scanSegments, hfile]
    rcases ht with rfl | ht
    · rw [append_nil, scanLoop_whole hok.fits hat hok.size]
      simp [require, bind, Except.bind, scanSegments]
    · have hne : tail ≠ [] := by
        obtain ⟨r, c, -, -, hpos, hlt, rfl⟩ := ht
        rw [← length_pos_iff, length_take_of_le (by rw [Record.length_encoded]; omega)]
        exact hpos
      rw [isEmpty_nil, scanLoop_tail hok.fits hat hok.size ht]
      simp [require, bind, Except.bind, scanSegments, hne]
  | cons rs segs ih =>
    have hfile : segmentBytesOf files (k + 1) = encs rs := by
      rw [segmentBytesOf, hfiles 0]
      rfl
    have hok := hsegs 0 rs rfl
    have hat : At ((k + 1 - 1) * sb) rs := hok.lsns
    have hrest : scanSegments sb files (range' (k + 1 + 1) (segs.length + 1))
        (acc ++ rs) false = _ :=
      ih (fun i => by rw [Nat.add_right_comm k 1 i]; exact hfiles (i + 1))
        (fun i rs' h => by rw [Nat.add_right_comm k 1 i]; exact hsegs (i + 1) rs' h)
    rw [length_cons, range'_succ, scanSegments, hfile, scanLoop_whole hok.fits hat hok.size]
    simp only [require, bind, Except.bind, Bool.false_eq_true, false_and, not_false_eq_true,
      if_true,
      Bool.or_self, hrest]
    rw [flatten_cons, append_assoc, append_assoc]

theorem Disk.scanReport_eq {config : WalConfig} {init : List (List Record)} {last : List Record}
    {tail : Bytes} (h : Disk config.segmentBytes files init last tail) : scanReport config files =
      .ok ⟨init.flatten ++ last, validEnd (init.flatten ++ last), decide (tail ≠ [])⟩ := by
  have hscan : scanSegments config.segmentBytes files (range' (0 + 1) (init.length + 1))
      [] false = _ :=
    scanSegments_eq (fun i => by rw [Nat.zero_add]; exact h.holds.2 i)
    (fun i rs hi => by rw [Nat.zero_add]; exact h.segs i rs hi) h.torn
  have hlen : (init.map encs ++ [encs last ++ tail]).length = init.length + 1 := by simp
  rw [scanReport, h.holds.segmentNumbers_eq, hlen, hscan]
  rfl

/-! ### Files with anything in them -/

section Reads
variable {seg o n : Nat} {file : Bytes} {r : Record} {rs acc res : List Record}
    {isLast stopped : Bool}

theorem readLe_of_readField {bs : Bytes} {w k : Nat} (h : readField bs o w = .ok k) :
    readLe bs o w = some k := by
  unfold readField at h
  split at h
  · next hread =>
    cases h
    exact hread
  · cases h

theorem decode_payload {bs : Bytes} (h : Record.decode bs = .ok r) :
    readField bs 12 4 = .ok r.payload.length := by
  simp only [Record.decode, bind_eq_ok, require_eq_ok, pure_eq_ok] at h
  obtain ⟨-, -, -, -, -, -, -, -, -, -, payloadLen, hlen, -, hle, -, -, -, -, -, -, -, -, -, -, -,
      -, -, -, rfl⟩ := h
  rw [hlen]
  simp only [length_drop, length_take]
  rw [min_eq_left hle, Nat.add_sub_cancel_left]

theorem stopAtTail_ok {e : Error} (h : stopAtTail isLast acc e = .ok (res, stopped)) :
    res = acc := by
  unfold stopAtTail at h
  split at h
  · cases h
    rfl
  · cases h

theorem scanLoop_succ (h : scanLoop sb seg file isLast (n + 1) o acc = .ok (res, stopped)) :
    res = acc ∨ ∃ r, ReadsAt sb seg file o r ∧
      scanLoop sb seg file isLast n (o + r.encodedLen) (acc ++ [r]) = .ok (res, stopped) := by
  rw [scanLoop] at h
  split at h
  · cases h
    exact .inl rfl
  split at h
  · exact .inl (stopAtTail_ok h)
  rw [bind_eq_ok] at h
  obtain ⟨payloadLen, hlen, h⟩ := h
  dsimp only at h
  split at h
  · exact .inl (stopAtTail_ok h)
  split at h
  · exact .inl (stopAtTail_ok h)
  next hsize hinside =>
  split at h
  · next r hdec =>
    rw [bind_eq_ok] at h
    obtain ⟨_, hvalid, h⟩ := h
    simp only [validateRecordPosition, bind_eq_ok, require_eq_ok] at hvalid
    obtain ⟨_, hu, hlsn⟩ := hvalid
    have hp : payloadLen = r.payload.length := by
      have hsame : (file.drop o).take (walHeaderLen + payloadLen) =
          (file.drop o).take walHeaderLen ++ ((file.drop o).drop walHeaderLen).take payloadLen :=
        take_add
      have hl : ((file.drop o).take walHeaderLen).length = walHeaderLen := by
        rw [length_take, length_drop]
        omega
      have hlen' := readLe_of_readField (decode_payload hdec)
      rw [hsame, readLe_append (by rw [hl]; decide), readLe_of_readField hlen] at hlen'
      exact Option.some.inj hlen'
    subst hp
    refine .inr ⟨r, ⟨hlen, not_lt.1 hsize, ?_, hdec, hlsn, hlsn ▸ hu⟩, h⟩
    show o + (walHeaderLen + r.payload.length) ≤ file.length
    omega
  · split at h
    · cases h
      exact .inl rfl
    · cases h

theorem scanLoop_reads {rs₀ : List Record}
    (h : scanLoop sb seg file isLast n o acc = .ok (res, stopped))
    (h₀ : Reads sb seg file o rs₀) : ∃ o' rs, o ≤ o' ∧ res = acc ++ rs ∧
    Reads sb seg file o' (rs₀ ++ rs) := by
  have hstop : ∃ o' rs, o ≤ o' ∧ acc = acc ++ rs ∧ Reads sb seg file o' (rs₀ ++ rs) :=
    ⟨o, [], le_rfl, by simp, by simpa using h₀⟩
  induction n generalizing o acc rs₀ with
  | zero =>
    cases h
    exact hstop
  | succ n ih =>
    rcases scanLoop_succ h with rfl | ⟨r, hat, h⟩
    · exact hstop
    · obtain ⟨o', rs, hle, hres, hr⟩ :=
        ih h (.snoc h₀ hat) ⟨_, [], le_rfl, by simp, (append_nil (rs₀ ++ [r])).symm ▸ h₀.snoc hat⟩
      exact ⟨o', r :: rs, (Nat.le_add_right ..).trans hle, by simpa using hres, by simpa using hr⟩

end Reads

variable {stopped stopped' : Bool}

/-- The scan of a directory takes the last record from the last file it could read one in. -/
theorem scanSegments_last {segs : List Nat} {acc res : List Record}
    (h : scanSegments sb files segs acc stopped = .ok (res, stopped')) :
    res = acc ∨ ∃ n ∈ segs, ∃ o rs r, Reads sb n (segmentBytesOf files n) o rs ∧ 0 < o ∧
      rs.getLast? = some r ∧ res.getLast? = some r := by
  induction segs generalizing acc stopped with
  | nil =>
    cases h
    exact .inl rfl
  | cons n segs ih =>
    simp only [scanSegments, bind_eq_ok, require_eq_ok, Prod.exists] at h
    obtain ⟨-, -, res₁, stopped₁, hloop, h⟩ := h
    obtain ⟨o, rs, -, rfl, hreads⟩ := scanLoop_reads hloop .nil
    rw [nil_append] at hreads
    rcases ih h with rfl | ⟨n', hn', hrest⟩
    · rcases Nat.eq_zero_or_pos o with rfl | ho
      · left
        have hnil : rs = [] := length_eq_zero_iff.1 (Nat.le_zero.1 hreads.length_le)
        rw [hnil, append_nil]
      · obtain ⟨r, hr, -⟩ := hreads.getLast ho
        exact .inr ⟨n, mem_cons_self .., o, rs, r, hreads, ho, hr, by rw [getLast?_append, hr]; rfl⟩
    · exact .inr ⟨n', mem_cons_of_mem _ hn', hrest⟩

theorem scanSegments_ge {segs : List Nat} {acc res rs : List Record}
    {n o : Nat} (h : scanSegments sb files segs acc stopped = .ok (res, stopped'))
    (hsort : segs.Pairwise (· < ·))
    (hn : n ∈ segs) (hreads : Reads sb n (segmentBytesOf files n) o rs) (ho : 0 < o)
    (hsize : (segmentBytesOf files n).length ≤ sb) (hpos : 1 ≤ n) :
    (n - 1) * sb + o ≤ validEnd res := by
  induction segs generalizing acc stopped with
  | nil => cases hn
  | cons n' segs ih =>
    simp only [scanSegments, bind_eq_ok, require_eq_ok, Prod.exists] at h
    obtain ⟨-, -, res₁, stopped₁, hloop, h⟩ := h
    obtain ⟨hlt, hsort⟩ := pairwise_cons.1 hsort
    rcases mem_cons.1 hn with rfl | hn
    · rw [hreads.scanLoop] at hloop
      obtain ⟨o', rs', ho', rfl, hreads'⟩ := scanLoop_reads hloop hreads
      obtain ⟨r, hr, hend, -⟩ := hreads'.getLast (by omega)
      rcases scanSegments_last h with rfl | ⟨n'', hn'', o'', rs'', r'', hreads'', ho'', hr'', hlast⟩
      · have hlast : (acc ++ rs ++ rs').getLast? = some r := by
          rw [append_assoc, getLast?_append, hr]
          rfl
        rw [validEnd, hlast]
        show _ ≤ r.endLsn
        omega
      · obtain ⟨r₁, hr₁, hend₁, -⟩ := hreads''.getLast ho''
        rw [hr''] at hr₁
        cases hr₁
        rw [validEnd, hlast]
        show _ ≤ r''.endLsn
        have hseg : n * sb ≤ (n'' - 1) * sb :=
          Nat.mul_le_mul_right _ (by have := hlt n'' hn''; omega)
        have hfull : (n - 1) * sb + sb = n * sb := by
          rw [← Nat.succ_mul]
          congr 1
          omega
        have := hreads.le_length
        omega
    · exact ih h hsort hn

end RedlineDb.WalFile
