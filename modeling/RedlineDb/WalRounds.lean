import RedlineDb.WalQueue
import RedlineDb.WalScan

/-!
# Rounds of appending, crashing and reopening

A crash cuts the last segment file at any byte; `WalManager::open` then goes on behind the last
whole record. When the cut falls into the first record of a segment, that is in the segment before,
and the file with the torn bytes stays. A later rotation opens this file again without emptying it,
so a record shorter than what is in there is followed by old bytes. `NoLeftover` excludes such a
write, and LSNs beyond `u64`.
-/

namespace RedlineDb.WalFile
open Lib Manager List
variable {sb : Nat}

inductive Phase
  | running (m : Manager)
  | down (files : Files)

def Phase.files : Phase → Files
  | .running m => m.files
  | .down files => files

/-- The log and, in `log`, the records that were written wholly and not cut since. -/
structure Rounds where
  config : WalConfig
  phase : Phase
  log : List Record

inductive RoundAction
  | append (kind : Kind) (txId : UInt64) (payload : Bytes)
  | crash (cut : Nat)
  | reopen

def lastSegment (files : Files) : Nat := (segmentNumbers files).getLast?.getD 0

def keeps (sb segment cut : Nat) (r : Record) : Bool :=
  !decide (segmentForLsn r.lsn sb = segment ∧ (segment - 1) * sb + cut < r.endLsn)

namespace Rounds

def create (config : WalConfig) : Rounds := ⟨config, .running (Manager.create config), []⟩

/-- One step; the error `none` stands for an action the phase does not have. -/
def step (s : Rounds) : RoundAction → Except (Option Error) Rounds
  | .append kind txId payload =>
    match s.phase with
    | .running m =>
      match m.append kind txId.toNat payload with
      | (.ok a, m') => .ok
        { s with
          phase := .running m'
          log := s.log ++
            [{ lsn := a.startLsn, prevLsn := m.prevLsn, txId := txId.toNat, kind, payload }] }
      | (.error _, m') => .ok { s with phase := .running m' }
    | .down _ => .error none
  | .crash cut =>
    match s.phase with
    | .running m =>
      let segment := lastSegment m.files
      .ok
        { s with
          phase := .down (m.files.insert segment ((segmentBytesOf m.files segment).take cut))
          log := s.log.filter (keeps s.config.segmentBytes segment cut) }
    | .down _ => .error none
  | .reopen =>
    match s.phase with
    | .running _ => .error none
    | .down files =>
      match openFiles s.config files with
      | .ok m => .ok { s with phase := .running m }
      | .error e => .error (some e)

end Rounds

/-- Where `reserve_append` puts a record of this length. -/
def Manager.target (m : Manager) (len : Nat) : Nat × Nat :=
  if 0 < m.activeOffset ∧ m.config.segmentBytes < m.activeOffset + len then (m.activeSegment + 1, 0)
  else (m.activeSegment, m.activeOffset)

/-- The file a record goes to has no bytes behind the record, and the LSNs stay below `2 ^ 64`. -/
def Rounds.NoLeftover (s : Rounds) : RoundAction → Prop
  | .append _ _ payload =>
    match s.phase with
    | .running m =>
      (segmentBytesOf m.files (m.target (walHeaderLen + payload.length)).1).length ≤
          (m.target (walHeaderLen + payload.length)).2 + (walHeaderLen + payload.length) ∧
        (m.activeSegment + 1) * m.config.segmentBytes ≤ 2 ^ 64
    | .down _ => True
  | _ => True

/-! ### What an append does to the directory -/

theorem SegOk.nil (k : Nat) : SegOk sb k [] := ⟨trivial, Nat.zero_le _, fun _ h => nomatch h⟩

variable {rs : List Record} {r : Record}

theorem SegOk.concat {k : Nat} (h : SegOk sb k rs) (hr : r.Fits)
    (hlsn : r.lsn = k * sb + (encs rs).length) (hle : (encs rs).length + r.encodedLen ≤ sb) :
    SegOk sb k (rs ++ [r]) := by
  refine ⟨at_append.2 ⟨h.lsns, hlsn, trivial⟩, ?_, ?_⟩
  · rw [encs_append, length_append, encs_cons, encs_nil, append_nil, Record.length_encoded]
    exact hle
  · intro r' hr'
    rcases mem_append.1 hr' with h' | h'
    · exact h.fits r' h'
    · rw [mem_singleton.1 h']
      exact hr

variable {init : List (List Record)} {last : List Record}

theorem segs_concat :
    (∀ k rs, (init ++ [last])[k]? = some rs → SegOk sb k rs) ↔
      (∀ k rs, init[k]? = some rs → SegOk sb k rs) ∧ SegOk sb init.length last := by
  constructor
  · intro h
    refine ⟨fun k rs hk => h k rs ?_, h init.length last getElem?_concat_length⟩
    rw [List.getElem?_append_left (List.getElem?_eq_some_iff.1 hk).1]
    exact hk
  · rintro ⟨hinit, hlast⟩ k rs hk
    rcases lt_or_ge k init.length with hlt | hge
    · rw [getElem?_append_left hlt] at hk
      exact hinit k rs hk
    · rw [getElem?_append_right hge, getElem?_singleton] at hk
      split at hk
      · obtain rfl : k = init.length := by omega
        cases hk
        exact hlast
      · cases hk

inductive Active (m : Manager) : List (List Record) → List Record → Bytes → Prop
  | last {init : List (List Record)} {last : List Record} {tail : Bytes} :
      m.activeSegment = init.length + 1 → m.activeOffset = (encs last).length → tail = [] ∨
        last = [] →
      Active m init last tail
  | before {init : List (List Record)} {rs : List Record} {tail : Bytes} :
      m.activeSegment = init.length + 1 → m.activeOffset = (encs rs).length →
        Active m (init ++ [rs]) [] tail

section Append
variable {m : Manager} {init : List (List Record)} {last : List Record} {tail : Bytes} {r : Record}
    {a : WalAppend}

def Writes (m : Manager) (log : List Record) : Prop :=
  ∃ init last tail, Disk m.config.segmentBytes m.files init last tail ∧ log = init.flatten ++ last ∧
    Active m init last tail

variable {log : List Record}

theorem Writes.rotateSegment (h : Writes m log) (hpos : 0 < m.activeOffset) :
    Writes m.rotateSegment log := by
  obtain ⟨init, last, tail, hd, rfl, hact⟩ := h
  have hlen : (init.map encs ++ [encs last ++ tail]).length = init.length + 1 := by simp
  cases hact with
  | last hseg hoff hor =>
    have hne : last ≠ [] := by
      rintro rfl
      rw [hoff] at hpos
      exact lt_irrefl _ hpos
    obtain rfl : tail = [] := hor.resolve_right hne
    have hholds := hd.holds.openRwCreate_length
    rw [hlen, append_nil, ← hseg] at hholds
    refine ⟨init ++ [last], [], [],
      ⟨?_, segs_concat.2 ⟨hd.segs, .nil _⟩, ?_, .inl rfl, Nat.zero_le _⟩, by simp,
      .last ?_ rfl (.inl rfl)⟩
    · rw [map_append]
      exact hholds
    · intro rs hrs
      rcases mem_append.1 hrs with h | h
      · exact hd.nonempty rs h
      · rw [mem_singleton.1 h]
        exact hne
    · rw [length_append]
      exact congrArg (· + 1) hseg
  | @before init rs _ hseg hoff =>
    have hfiles : m.rotateSegment.files = m.files := by
      refine (congrArg (openRwCreate m.files) (congrArg (· + 1) hseg)).trans
        (hd.holds.openRwCreate_of_lt ?_)
      rw [hlen, length_append]
      exact lt_add_one _
    refine ⟨init ++ [rs], [], tail, ?_, rfl, .last ?_ rfl (.inr rfl)⟩
    · rw [hfiles]
      exact hd
    · rw [length_append]
      exact congrArg (· + 1) hseg

theorem put_holds {contents : List Bytes} {k : Nat} {bs old : Bytes} (h : Holds m.files contents)
    (hk : contents[k]? = some (bs ++ old)) (hseg : m.activeSegment = k + 1)
    (hoff : m.activeOffset = bs.length)
    (hold : old.length ≤ r.encodedLen) :
    Holds (m.put a r.encoded).files (contents.set k (bs ++ r.encoded)) := by
  have hwrite : writeAt (segmentBytesOf m.files m.activeSegment) m.activeOffset r.encoded = bs ++
      r.encoded := by
    rw [hseg, h.segmentBytesOf_eq hk, hoff]
    exact writeAt_append (by rw [Record.length_encoded]; exact hold)
  rw [put, hwrite, hseg]
  exact h.insert (List.getElem?_eq_some_iff.1 hk).1

theorem Writes.put (h : Writes m log) (hr : r.Fits) (hlsn : r.lsn = m.position)
    (hle : m.activeOffset + r.encodedLen ≤ m.config.segmentBytes)
    (hfile : (segmentBytesOf m.files m.activeSegment).length ≤ m.activeOffset + r.encodedLen) :
    Writes (m.put a r.encoded) (log ++ [r]) := by
  obtain ⟨init, last, tail, hd, rfl, hact⟩ := h
  have hsegs := segs_concat.1 hd.segs
  cases hact with
  | last hseg hoff hor =>
    have hk : (init.map encs ++ [encs last ++ tail])[init.length]? =
        some (encs last ++ tail) := by simp
    rw [hseg, hd.holds.segmentBytesOf_eq hk, length_append, hoff] at hfile
    rw [position, hseg, hoff] at hlsn
    rw [hoff] at hle
    have hnew : encs (last ++ [r]) = encs last ++ r.encoded := by simp
    refine ⟨init, last ++ [r], [], ⟨?_, ?_, hd.nonempty, .inl rfl, ?_⟩, by simp,
      .last hseg ?_ (.inl rfl)⟩
    · have hh := put_holds (r := r) (a := a) hd.holds hk hseg hoff (by omega)
      simpa using hh
    · exact segs_concat.2 ⟨hsegs.1, hsegs.2.concat hr hlsn hle⟩
    · rw [append_nil, hnew, length_append, Record.length_encoded]
      exact hle
    · rw [hnew, length_append, Manager.put, hoff]
  | @before init rs _ hseg hoff =>
    have hk : ((init ++ [rs]).map encs ++ [encs [] ++ tail])[init.length]? =
        some (encs rs ++ []) := by simp
    rw [Manager.position, hseg, hoff] at hlsn
    rw [hoff] at hle
    have hinit := segs_concat.1 hsegs.1
    refine ⟨init ++ [rs ++ [r]], [], tail, ⟨?_, ?_, ?_, hd.torn, hd.size⟩, by simp, .before hseg ?_⟩
    · have hh := put_holds (r := r) (a := a) hd.holds hk hseg hoff (Nat.zero_le _)
      simpa using hh
    · exact segs_concat.2 ⟨segs_concat.2 ⟨hinit.1, hinit.2.concat hr hlsn hle⟩, .nil _⟩
    · intro rs' hrs'
      rcases mem_append.1 hrs' with h | h
      · exact hd.nonempty rs' (mem_append_left _ h)
      · rw [mem_singleton.1 h]
        simp
    · rw [Manager.put, hoff]
      simp

theorem segmentBytesOf_openRwCreate (files : Files) (k : Nat) :
    segmentBytesOf (openRwCreate files k) k = segmentBytesOf files k := by
  rw [openRwCreate]
  split
  · rfl
  · rename_i h
    rw [segmentBytesOf, segmentBytesOf, AList.lookup_insert, h]
    rfl

def Manager.reserved (m : Manager) (len : Nat) : Manager :=
  if 0 < m.activeOffset ∧ m.config.segmentBytes < m.activeOffset + len then m.rotateSegment else m

theorem reserveAppend_eq {len : Nat} (h : len ≤ m.config.segmentBytes) : m.reserveAppend len =
      .ok (⟨(m.reserved len).position, (m.reserved len).position + len⟩, m.reserved len) := by
  simp only [reserveAppend, require, if_pos h]
  rfl

theorem Writes.reserved {len : Nat} (h : Writes m log) (hle : len ≤ m.config.segmentBytes) :
    Writes (m.reserved len) log ∧ (m.reserved len).config = m.config ∧
      (m.reserved len).prevLsn = m.prevLsn ∧
      ((m.reserved len).activeSegment, (m.reserved len).activeOffset) = m.target len ∧
      (m.reserved len).activeOffset + len ≤ m.config.segmentBytes ∧
      segmentBytesOf (m.reserved len).files (m.target len).1 = segmentBytesOf m.files
        (m.target len).1 := by
  unfold Manager.reserved Manager.target
  split
  case isTrue hrot =>
    refine ⟨h.rotateSegment hrot.1, rfl, rfl, rfl, ?_, segmentBytesOf_openRwCreate ..⟩
    rw [Manager.rotateSegment, Nat.zero_add]
    exact hle
  case isFalse hrot => exact ⟨h, rfl, rfl, rfl, by omega, rfl⟩

theorem Writes.one_le (h : Writes m log) : 1 ≤ m.activeSegment := by
  obtain ⟨init, last, tail, -, -, hact⟩ := h
  cases hact <;> omega

theorem Writes.append (kind : Kind) {txId : Nat} {payload : Bytes} (h : Writes m log)
    (hprev : m.prevLsn < 2 ^ 64) (htx : txId < 2 ^ 64)
    (hfile : (segmentBytesOf m.files (m.target (walHeaderLen + payload.length)).1).length ≤
      (m.target (walHeaderLen + payload.length)).2 + (walHeaderLen + payload.length))
    (hlsn : (m.activeSegment + 1) * m.config.segmentBytes ≤ 2 ^ 64) : ∃ m', m'.config = m.config ∧
    m'.prevLsn < 2 ^ 64 ∧
      ((∃ e, m.append kind txId payload = (.error e, m') ∧ Writes m' log) ∨
        ∃ a, m.append kind txId payload = (.ok a, m') ∧
          Writes m' (log ++
            [{ lsn := a.startLsn, prevLsn := m.prevLsn, txId, kind, payload }])) := by
  by_cases hlen : walHeaderLen + payload.length ≤ m.config.segmentBytes
  swap
  · refine ⟨m, rfl, hprev, .inl ⟨.corruptWal "record larger than wal segment", ?_, h⟩⟩
    simp only [Manager.append, Manager.reserveAppend, require, if_neg hlen]
    rfl
  obtain ⟨hw, hcfg, hprev', htarget, hle, hbytes⟩ := h.reserved hlen
  have hone := hw.one_le
  rw [← hbytes, ← htarget] at hfile
  -- the new position is in the active segment or the next one
  have hpos : (m.reserved (walHeaderLen + payload.length)).position < 2 ^ 64 := by
    have hseg : (m.reserved (walHeaderLen + payload.length)).activeSegment ≤
        m.activeSegment + 1 := by
      have h1 := congrArg Prod.fst htarget
      dsimp only at h1
      rw [h1, target]
      split <;> simp
    have hlt : 0 < walHeaderLen := by decide
    have hmul := Nat.mul_le_mul_right m.config.segmentBytes hseg
    rw [position, hcfg]
    generalize (m.reserved (walHeaderLen + payload.length)).activeSegment = seg at *
    obtain ⟨k, rfl⟩ : ∃ k, seg = k + 1 := ⟨seg - 1, by omega⟩
    rw [Nat.succ_mul] at hmul
    rw [Nat.add_sub_cancel]
    omega
  generalize hm1 : m.reserved (walHeaderLen + payload.length) = m1 at *
  have hres := reserveAppend_eq hlen
  rw [hm1] at hres
  by_cases henc : payload.length ≤ 2 ^ 32 - 1
  swap
  · refine ⟨m1, hcfg, hprev' ▸ hprev, .inl ⟨.corruptWal "payload too large", ?_, hw⟩⟩
    simp only [Manager.append, hres, Record.encode, require, if_neg henc]
    rfl
  · have hfits : Record.Fits { lsn := m1.position, prevLsn := m1.prevLsn, txId, kind, payload } :=
      ⟨hpos, hprev' ▸ hprev, htx, by
        dsimp only
        omega⟩
    have hwrite : m1.writeEncoded ⟨m1.position, m1.position + (walHeaderLen + payload.length)⟩
        (Record.encoded { lsn := m1.position, prevLsn := m1.prevLsn, txId, kind, payload }) =
        .ok _ :=
      writeEncoded_eq_ok.2 ⟨by rw [Record.length_encoded, hcfg]; exact hlen, .inl ⟨rfl, rfl⟩⟩
    refine ⟨m1.put ⟨m1.position, m1.position + (walHeaderLen + payload.length)⟩
      (Record.encoded { lsn := m1.position, prevLsn := m1.prevLsn, txId, kind, payload }),
      hcfg, hpos,
      .inr ⟨⟨m1.position, m1.position + (walHeaderLen + payload.length)⟩, ?_, ?_⟩⟩
    · simp only [Manager.append, hres, Record.encode, require, if_pos henc, bind, Except.bind, pure,
        Except.pure,
        hwrite]
    · rw [← hprev']
      exact hw.put hfits rfl (hcfg ▸ hle) hfile

end Append

/-! ### What a cut leaves -/

theorem Torn.take {b : Bytes} (h : Torn sb b) (c : Nat) : b.take c = [] ∨ Torn sb (b.take c) := by
  obtain ⟨r, c', hr, hle, hpos, hlt, rfl⟩ := h
  rw [take_take]
  rcases Nat.eq_zero_or_pos c with rfl | hc
  · exact .inl (by simp)
  · exact .inr ⟨r, min c c', hr, hle, by omega, by omega, rfl⟩

theorem encs_take {base : Nat} (hat : At base rs) (hfits : ∀ r ∈ rs, r.Fits)
    (hle : (encs rs).length ≤ sb) (cut : Nat) :
    ∃ rs1 rs2 t, rs = rs1 ++ rs2 ∧ (encs rs).take cut = encs rs1 ++ t ∧ (t = [] ∨ Torn sb t) ∧
      (∀ r ∈ rs1, r.endLsn ≤ base + cut) ∧ ∀ r ∈ rs2, base + cut < r.endLsn := by
  induction rs generalizing base cut with
  | nil => exact ⟨[], [], [], rfl, by simp, .inl rfl, by simp, by simp⟩
  | cons r rs ih =>
    obtain ⟨hlsn, hrest⟩ := hat
    rw [encs_cons, length_append, Record.length_encoded] at hle
    by_cases hcut : r.encodedLen ≤ cut
    · obtain ⟨rs1, rs2, t, rfl, htake, ht, h1, h2⟩ :=
        ih hrest (fun r' h => hfits r' (mem_cons_of_mem _ h)) (by omega) (cut - r.encodedLen)
      have hadd : base + r.encodedLen + (cut - r.encodedLen) = base + cut := by omega
      rw [hadd] at h1 h2
      refine ⟨r :: rs1, rs2, t, rfl, ?_, ht, ?_, h2⟩
      · rw [encs_cons, take_append, take_of_length_le (by rw [Record.length_encoded]; exact hcut),
          Record.length_encoded, htake, encs_cons, append_assoc]
      · intro r' hr'
        rcases mem_cons.1 hr' with rfl | hr'
        · rw [Record.endLsn, hlsn]
          omega
        · exact h1 r' hr'
    · refine ⟨[], r :: rs, r.encoded.take cut, rfl, ?_, ?_, by simp, ?_⟩
      · rw [encs_cons, take_append_of_le_length (by rw [Record.length_encoded]; omega)]
        rfl
      · rcases Nat.eq_zero_or_pos cut with rfl | h0
        · exact .inl (by simp)
        · exact .inr ⟨r, cut, hfits r (mem_cons_self ..), by omega, h0, by omega, rfl⟩
      · intro r' hr'
        rcases mem_cons.1 hr' with rfl | hr'
        · rw [Record.endLsn, hlsn]
          omega
        · have hmem := (hrest.mem hr').1
          rw [Record.endLsn]
          omega

theorem SegOk.segmentForLsn_eq {k : Nat} (h : SegOk sb k rs) (hr : r ∈ rs) :
    segmentForLsn r.lsn sb = k + 1 := by
  obtain ⟨h1, h2⟩ := h.lsns.mem hr
  have hsize := h.size
  have hlen := r.walHeaderLen_le
  have hpos : 0 < walHeaderLen := by decide
  rw [Record.endLsn] at h2
  rw [segmentForLsn, Nat.div_eq_of_lt_le h1 (by rw [Nat.succ_mul]; omega)]

namespace Disk
variable {files : Files} {init : List (List Record)} {last : List Record} {tail : Bytes}
section
variable (h : Disk sb files init last tail)
include h

theorem lastSegment_eq : lastSegment files = init.length + 1 := by
  have hlen : (init.map encs ++ [encs last ++ tail]).length = init.length + 1 := by simp
  rw [lastSegment, h.holds.segmentNumbers_eq, hlen, range'_1_concat, getLast?_concat,
    Option.getD_some,
    Nat.add_comm]

theorem keeps_init {r : Record} (hr : r ∈ init.flatten) (cut : Nat) :
    keeps sb (init.length + 1) cut r = true := by
  obtain ⟨rs, hrs, hr⟩ := mem_flatten.1 hr
  obtain ⟨k, hk⟩ := mem_iff_getElem?.1 hrs
  have hlt := (List.getElem?_eq_some_iff.1 hk).1
  have hseg := ((segs_concat.1 h.segs).1 k rs hk).segmentForLsn_eq hr
  rw [keeps, hseg, Bool.not_eq_true', decide_eq_false_iff_not]
  rintro ⟨h1, -⟩
  omega

theorem keeps_last {r : Record} (hr : r ∈ last) (cut : Nat) :
    keeps sb (init.length + 1) cut r = true ↔ r.endLsn ≤ init.length * sb + cut := by
  have hseg := (segs_concat.1 h.segs).2.segmentForLsn_eq hr
  rw [keeps, hseg, Bool.not_eq_true', decide_eq_false_iff_not, Nat.add_sub_cancel]
  simp

theorem cut (cut : Nat) :
    ∃ last' tail',
      Disk sb (files.insert (init.length + 1) ((segmentBytesOf files (init.length + 1)).take cut))
        init last' tail' ∧ (init.flatten ++ last).filter (keeps sb (init.length + 1) cut) =
          init.flatten ++ last' := by
  have hk : (init.map encs ++ [encs last ++ tail])[init.length]? =
      some (encs last ++ tail) := by simp
  obtain ⟨hinit, hlast⟩ := segs_concat.1 h.segs
  have hkeep : init.flatten.filter (keeps sb (init.length + 1) cut) = init.flatten :=
    filter_eq_self.2 fun r hr => h.keeps_init hr cut
  have hholds : ∀ bs, Holds (files.insert (init.length + 1) bs) (init.map encs ++ [bs]) := by
    intro bs
    have hh : Holds (files.insert (init.length + 1) bs) _ :=
      h.holds.insert (List.getElem?_eq_some_iff.1 hk).1
    simpa using hh
  have hsize : ((encs last ++ tail).take cut).length ≤ sb :=
    (length_take_le' ..).trans h.size
  rw [h.holds.segmentBytesOf_eq hk, filter_append, hkeep]
  by_cases hcut : cut ≤ (encs last).length
  · obtain ⟨rs1, rs2, t, rfl, htake, ht, h1, h2⟩ := encs_take hlast.lsns hlast.fits hlast.size cut
    rw [take_append_of_le_length hcut, htake] at hsize ⊢
    have hlsns := (at_append.1 hlast.lsns).1
    refine ⟨rs1, t, ⟨hholds _, segs_concat.2 ⟨hinit, hlsns, ?_, ?_⟩, h.nonempty, ht, hsize⟩, ?_⟩
    · rw [length_append] at hsize
      omega
    · exact fun r hr => hlast.fits r (mem_append_left _ hr)
    · have hf1 : rs1.filter (keeps sb (init.length + 1) cut) = rs1 :=
        filter_eq_self.2 fun r hr => (h.keeps_last (mem_append_left _ hr) cut).2 (h1 r hr)
      have hf2 : rs2.filter (keeps sb (init.length + 1) cut) = [] :=
        filter_eq_nil_iff.2 fun r hr hk =>
          not_le.2 (h2 r hr) ((h.keeps_last (mem_append_right _ hr) cut).1 hk)
      rw [filter_append, hf1, hf2, append_nil]
  · have htake : (encs last ++ tail).take cut = encs last ++
        tail.take (cut - (encs last).length) := by
      rw [take_append, take_of_length_le (by omega)]
    rw [htake] at hsize ⊢
    refine ⟨last, tail.take (cut - (encs last).length),
      ⟨hholds _, h.segs, h.nonempty, ?_, hsize⟩, ?_⟩
    · rcases h.torn with rfl | ht
      · exact .inl (by simp)
      · exact ht.take _
    · have hf : last.filter (keeps sb (init.length + 1) cut) = last :=
        filter_eq_self.2 fun r hr => (h.keeps_last hr cut).2 (by
          have := (hlast.lsns.mem hr).2
          omega)
      rw [hf]

end
end Disk

theorem SegOk.validEnd_eq {k : Nat} {rs log : List Record} (h : SegOk sb k rs) (hne : rs ≠ []) :
    validEnd (log ++ rs) = k * sb + (encs rs).length := by
  obtain ⟨rs, r, rfl⟩ := (eq_nil_or_concat' rs).resolve_left hne
  rw [validEnd, ← append_assoc, getLast?_concat]
  exact h.lsns.getLast

section Reopen
variable {config : WalConfig} {files : Files} {report : ScanReport}

/-- Going on in a segment that is there: what is behind the end of the records is cut off. -/
theorem openPrepared_of_lt {contents : List Bytes} {k : Nat} {bs old : Bytes}
    (h : Holds files contents)
    (hk : contents[k]? = some (bs ++ old))
    (hend : report.validEndLsn = k * config.segmentBytes + bs.length)
    (hlt : bs.length < config.segmentBytes) :
    Holds (openPrepared config files report).files (contents.set k bs) ∧
      (openPrepared config files report).activeSegment = k + 1 ∧
      (openPrepared config files report).activeOffset = bs.length := by
  have hlen := (List.getElem?_eq_some_iff.1 hk).1
  have hseg : segmentForLsn report.validEndLsn config.segmentBytes = k + 1 := by
    rw [hend]
    exact segmentForLsn_lsnOf (p := (k + 1, bs.length)) (Nat.le_add_left 1 k) hlt
  have hoff : offsetForLsn report.validEndLsn config.segmentBytes = bs.length := by
    rw [hend]
    exact offsetForLsn_lsnOf (p := (k + 1, bs.length)) hlt
  refine ⟨?_, hseg, hoff⟩
  simp only [openPrepared, hseg, hoff, h.openRwCreate_of_lt hlen, h.segmentBytesOf_eq hk]
  rw [setLen_of_le (by rw [length_append]; omega), take_left]
  exact h.insert hlen

theorem openPrepared_full {contents : List Bytes} (h : Holds files contents)
    (hend : report.validEndLsn = contents.length * config.segmentBytes) :
    Holds (openPrepared config files report).files (contents ++ [[]]) ∧
      (openPrepared config files report).activeSegment = contents.length + 1 ∧
      (openPrepared config files report).activeOffset = 0 := by
  have hseg : segmentForLsn report.validEndLsn config.segmentBytes = contents.length + 1 := by
    rw [hend]
    exact segmentForLsn_mul _ config.pos
  have hoff : offsetForLsn report.validEndLsn config.segmentBytes = 0 := by
    rw [hend]
    exact offsetForLsn_mul _
  refine ⟨?_, hseg, hoff⟩
  have hnew := h.openRwCreate_length
  have hk : (contents ++ [[]])[contents.length]? = some ([] : Bytes) := getElem?_concat_length
  simp only [openPrepared, hseg, hoff, hnew.segmentBytesOf_eq hk]
  have hins : Holds ((openRwCreate files (contents.length + 1)).insert (contents.length + 1)
      []) _ :=
    hnew.insert (List.getElem?_eq_some_iff.1 hk).1
  rw [set_append_right _ _ le_rfl, Nat.sub_self] at hins
  exact hins

variable {init : List (List Record)} {last : List Record} {tail : Bytes}

theorem Disk.openPrepared_last (h : Disk config.segmentBytes files init last tail)
    (hend : report.validEndLsn = init.length * config.segmentBytes + (encs last).length)
    (hlt : (encs last).length < config.segmentBytes) :
    Writes (openPrepared config files report) (init.flatten ++ last) := by
  have hk : (init.map encs ++ [encs last ++ tail])[init.length]? =
      some (encs last ++ tail) := by simp
  obtain ⟨hholds, hseg, hoff⟩ := openPrepared_of_lt h.holds hk hend hlt
  refine ⟨init, last, [], ⟨?_, h.segs, h.nonempty, .inl rfl, ?_⟩, rfl, .last hseg hoff (.inl rfl)⟩
  · simpa using hholds
  · rw [append_nil]
    exact hlt.le

theorem Disk.openPrepared_writes (h : Disk config.segmentBytes files init last tail)
    (hend : report.validEndLsn = validEnd (init.flatten ++ last)) :
    Writes (openPrepared config files report) (init.flatten ++ last) := by
  obtain ⟨hinit, hlast⟩ := segs_concat.1 h.segs
  by_cases hne : last = []
  · subst hne
    rcases eq_nil_or_concat' init with rfl | ⟨init, rs, rfl⟩
    · exact h.openPrepared_last (by rw [hend]; simp [validEnd]) config.pos
    · -- the cut fell into the first record of the last segment
      have hrs := (segs_concat.1 hinit).2
      rw [append_nil, flatten_append, flatten_singleton,
        hrs.validEnd_eq (h.nonempty rs (by simp))] at hend
      rcases lt_or_eq_of_le hrs.size with hlt | heq
      · have hk : ((init ++ [rs]).map encs ++ [encs [] ++ tail])[init.length]? =
            some (encs rs ++ []) := by simp
        obtain ⟨hholds, hseg, hoff⟩ := openPrepared_of_lt h.holds hk hend hlt
        refine ⟨init ++ [rs], [], tail, ⟨?_, h.segs, h.nonempty, h.torn, h.size⟩, rfl,
          .before hseg hoff⟩
        simpa using hholds
      · refine h.openPrepared_last ?_ config.pos
        rw [hend, heq, length_append, length_singleton, Nat.succ_mul]
        rfl
  · rw [hlast.validEnd_eq hne] at hend
    rcases lt_or_eq_of_le hlast.size with hlt | heq
    · exact h.openPrepared_last hend hlt
    · have hsize := h.size
      rw [length_append] at hsize
      obtain rfl : tail = [] := length_eq_zero_iff.1 (by omega)
      have hlen : (init.map encs ++ [encs last ++ []]).length = init.length + 1 := by simp
      obtain ⟨hholds, hseg, hoff⟩ := openPrepared_full h.holds
        (by rw [hend, heq, hlen, Nat.succ_mul])
      refine ⟨init ++ [last], [], [],
        ⟨?_, segs_concat.2 ⟨h.segs, .nil _⟩, ?_, .inl rfl, Nat.zero_le _⟩, by simp,
        .last ?_ hoff (.inl rfl)⟩
      · simpa using hholds
      · intro rs hrs
        rcases mem_append.1 hrs with h' | h'
        · exact h.nonempty rs h'
        · rw [mem_singleton.1 h']
          exact hne
      · rw [hseg, hlen, length_append, length_singleton]

end Reopen

theorem Disk.fits {files : Files} {tail : Bytes}
    (h : Disk sb files init last tail) (hr : r ∈ init.flatten ++ last) : r.Fits := by
  obtain ⟨hinit, hlast⟩ := segs_concat.1 h.segs
  rcases mem_append.1 hr with hr | hr
  · obtain ⟨rs, hrs, hr⟩ := mem_flatten.1 hr
    obtain ⟨k, hk⟩ := mem_iff_getElem?.1 hrs
    exact (hinit k rs hk).fits r hr
  · exact hlast.fits r hr

theorem Disk.openFiles_eq {config : WalConfig} {files : Files}
    {tail : Bytes} (h : Disk config.segmentBytes files init last tail) :
    ∃ m, openFiles config files = .ok m ∧ m.config = config ∧ m.prevLsn < 2 ^ 64 ∧
      Writes m (init.flatten ++ last) := by
  refine ⟨openPrepared config files
    ⟨init.flatten ++ last, validEnd (init.flatten ++ last), decide (tail ≠ [])⟩, ?_, rfl, ?_,
    h.openPrepared_writes rfl⟩
  · rw [openFiles, h.scanReport_eq]
    rfl
  · rw [openPrepared]
    cases hl : (init.flatten ++ last).getLast? with
    | none => simp
    | some r => exact (h.fits (mem_of_getLast? hl)).lsn

namespace Rounds
variable {s s' : Rounds}

def Recorded (config : WalConfig) (log : List Record) : Phase → Prop
  | .running m => m.config = config ∧ m.prevLsn < 2 ^ 64 ∧ Writes m log
  | .down files => ∃ init last tail, Disk config.segmentBytes files init last tail ∧
      log = init.flatten ++ last

theorem Recorded.disk {config : WalConfig} {log : List Record} {phase : Phase}
    (h : Recorded config log phase) :
    ∃ init last tail, Disk config.segmentBytes phase.files init last tail ∧
      log = init.flatten ++ last := by
  cases phase with
  | running m =>
    obtain ⟨rfl, -, init, last, tail, hd, hlog, -⟩ := h
    exact ⟨init, last, tail, hd, hlog⟩
  | down files => exact h

theorem recorded_create (config : WalConfig) : Recorded config [] (create config).phase := by
  refine ⟨rfl, Nat.two_pow_pos _, [], [], [],
    ⟨⟨rfl, fun k => ?_⟩, ?_, nofun, .inl rfl, Nat.zero_le _⟩, rfl,
    .last rfl rfl (.inl rfl)⟩
  · cases k <;> rfl
  · exact segs_concat.2 ⟨nofun, .nil 0⟩

theorem Recorded.step {a : RoundAction} (h : Recorded s.config s.log s.phase) (hok : s.NoLeftover a)
    (hs : s.step a = .ok s') : Recorded s'.config s'.log s'.phase := by
  obtain ⟨config, phase, log⟩ := s
  cases phase with
  | running m =>
    obtain ⟨hcfg, hprev, hw⟩ := h
    cases a with
    | append kind txId payload =>
      obtain ⟨m', hcfg', hprev', hcase⟩ := hw.append kind hprev txId.toNat_lt hok.1 hok.2
      rcases hcase with ⟨e, happ, hw'⟩ | ⟨a, happ, hw'⟩
      all_goals
        simp only [Rounds.step, happ, Except.ok.injEq] at hs
        subst hs
        exact ⟨hcfg'.trans hcfg, hprev', hw'⟩
    | crash cut =>
      subst hcfg
      obtain ⟨init, last, tail, hd, rfl, -⟩ := hw
      obtain ⟨last', tail', hd', hlog⟩ := hd.cut cut
      simp only [Rounds.step, hd.lastSegment_eq, hlog, Except.ok.injEq] at hs
      subst hs
      exact ⟨init, last', tail', hd', rfl⟩
    | reopen => cases hs
  | down files =>
    obtain ⟨init, last, tail, hd, hlog⟩ := h
    cases a with
    | append kind txId payload => cases hs
    | crash cut => cases hs
    | reopen =>
      obtain ⟨m, hopen, hcfg, hprev, hw⟩ := hd.openFiles_eq
      simp only [Rounds.step, hopen, Except.ok.injEq] at hs
      subst hs
      exact ⟨hcfg, hprev, hlog ▸ hw⟩

/-- However appends, crashes and reopenings follow each other: the scan of the directory succeeds
and returns the records written wholly before each cut and after it, in order, and the log can be
opened again. -/
theorem scan_returns_written {config : WalConfig} {acts : List RoundAction}
    (hrun : Run Rounds.step NoLeftover (create config) acts s) :
    (∃ tornTail, scanReport s.config s.phase.files = .ok ⟨s.log, validEnd s.log, tornTail⟩) ∧
      ∀ files, s.phase = .down files → ∃ s', s.step .reopen = .ok s' ∧ s'.log = s.log := by
  have hI : Recorded s.config s.log s.phase :=
    hrun.invariant (I := fun _ s => Recorded s.config s.log s.phase) (recorded_create config)
      fun _ _ _ _ hI => hI.step
  obtain ⟨init, last, tail, hd, hlog⟩ := hI.disk
  refine ⟨⟨_, by rw [hd.scanReport_eq, hlog]⟩, fun files hdown => ?_⟩
  rw [hdown] at hd
  obtain ⟨m, hopen, -⟩ := hd.openFiles_eq
  refine ⟨{ s with phase := .running m }, ?_, rfl⟩
  simp only [Rounds.step, hdown]
  rw [show openFiles s.config files = .ok m from hopen]

instance (s : Rounds) (a : RoundAction) : Decidable (s.NoLeftover a) := by
  unfold NoLeftover
  split
  · split <;> infer_instance
  · infer_instance

def small : Rounds := create ⟨120, by decide⟩

def appendOf (n : Nat) : RoundAction := .append .logical 1 (List.replicate (n - walHeaderLen) 0)

def traceCovered : List RoundAction :=
  [appendOf 60, appendOf 110, .crash 109, .reopen, appendOf 115]

def scanned (s : Rounds) : Option (List Nat) :=
  match scanReport s.config s.phase.files with
  | .ok report => some (report.records.map Record.lsn)
  | .error _ => none

theorem scan_returns_written_traceCovered :
    ∃ s, Run Rounds.step NoLeftover small traceCovered s ∧
      decide (s.scanned = some [0, 120]) = true ∧
      ∃ tornTail, scanReport s.config s.phase.files = .ok ⟨s.log, validEnd s.log, tornTail⟩ := by
  obtain ⟨s, hrun, hq⟩ : ∃ s, Run Rounds.step NoLeftover small traceCovered s ∧
      decide (s.scanned = some [0, 120]) = true := by decide +kernel
  exact ⟨s, hrun, hq, (scan_returns_written hrun).1⟩

def traceLeftover : List RoundAction :=
  [appendOf 60, appendOf 120, .crash 119, .reopen, appendOf 61]

def unreadable (s : Rounds) : Bool :=
  decide (s.log.map Record.lsn = [0, 120]) && decide (s.scanned = none)

theorem scan_fails_behind_leftover :
    ∃ s, Run Rounds.step (fun _ _ => True) small traceLeftover s ∧ s.unreadable = true := by
  decide +kernel

end Rounds
end RedlineDb.WalFile
