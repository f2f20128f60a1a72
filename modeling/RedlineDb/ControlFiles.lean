import RedlineDb.Recovery
import RedlineDb.WalFormat

/-!
# The dual control file

`ControlStore` of `storage/control.rs` down to the bytes of `CONTROL_A` and `CONTROL_B`. `writeNext`
writes the next generation to the file of its parity; a write that does not complete leaves a file
that is torn at some byte, and the process goes on with the control file it had or is opened again.
The generation is a 64-bit counter: a call whose next generation does not fit is not accepted.

A torn file is one that `decode` rejects, unless the tear left it as it was or complete (`Sound`).
-/

namespace RedlineDb.Control
open Lib

def controlMagic : Nat := 0x52444354
def controlVersion : Nat := 1
def controlLen : Nat := 64
def checksumOffset : Nat := 8

/-- `checksum_control_bytes`: the checksum field itself counts as zero. -/
def checksumControlBytes (bs : Bytes) : Nat :=
  WalFile.crc32 (bs.take checksumOffset ++ ([0, 0, 0, 0] ++ bs.drop (checksumOffset + 4)))

section Encoding
variable {c : ControlFile} {crc : Nat}

def header : Bytes := leBytes 4 controlMagic ++ leBytes 4 controlVersion

def body (c : ControlFile) : Bytes :=
  leBytes 4 0 ++ (leBytes 8 c.generation ++ (leBytes 8 c.checkpointLsn ++ (leBytes 8 c.pageCount ++
    List.replicate 24 0)))

def bytes (c : ControlFile) (crc : Nat) : Bytes := header ++ (leBytes 4 crc ++ body c)

def encode (c : ControlFile) : Bytes := bytes c (checksumControlBytes (bytes c 0))

def decode (bs : Bytes) : Except Error ControlFile := do
  require (bs.length = controlLen) (.bufferTooSmall controlLen bs.length)
  let magic ← WalFile.readField bs 0 4
  require (magic = controlMagic) (.invalidMagic magic)
  let version ← WalFile.readField bs 4 4
  require (version = controlVersion) (.unsupportedVersion (version % 2 ^ 16))
  let stored ← WalFile.readField bs checksumOffset 4
  require (stored = checksumControlBytes bs) .invalidChecksum
  let generation ← WalFile.readField bs 16 8
  let checkpointLsn ← WalFile.readField bs 24 8
  let pageCount ← WalFile.readField bs 32 8
  return { generation, checkpointLsn, pageCount }

structure Fits (c : ControlFile) : Prop where
  generation : c.generation < 2 ^ 64
  checkpointLsn : c.checkpointLsn < 2 ^ 64
  pageCount : c.pageCount < 2 ^ 64

@[simp] theorem length_header : header.length = checksumOffset := rfl

@[simp] theorem length_bytes : (bytes c crc).length = controlLen := by
  simp [bytes, body, checksumOffset, controlLen]

theorem checksumControlBytes_bytes :
    checksumControlBytes (bytes c crc) = checksumControlBytes (bytes c 0) := by
  have hparts : ∀ n, (bytes c n).take checksumOffset = header ∧
      (bytes c n).drop (checksumOffset + 4) = body c := by
    intro n
    constructor
    · rw [bytes, ← length_header, List.take_left]
    · rw [bytes, ← List.append_assoc]
      apply List.drop_left'
      rw [List.length_append, length_header, length_leBytes]
  rw [checksumControlBytes, checksumControlBytes, (hparts crc).1, (hparts crc).2, (hparts 0).1,
    (hparts 0).2]

theorem decode_encode (hc : Fits c) : decode (encode c) = .ok c := by
  have hmagic : WalFile.readField (encode c) 0 4 = .ok controlMagic := by
    apply WalFile.readField_eq_ok
    exact readLe_leBytes (by decide) _
  have hversion : WalFile.readField (encode c) 4 4 = .ok controlVersion := by
    apply WalFile.readField_eq_ok
    rw [encode, bytes, header, List.append_assoc, readLe_skip (by decide)]
    exact readLe_leBytes (by decide) _
  have hcrc : WalFile.readField (encode c) checksumOffset 4 =
      .ok (checksumControlBytes (bytes c 0)) := by
    apply WalFile.readField_eq_ok
    rw [encode, bytes, header, List.append_assoc, checksumOffset, readLe_skip (by decide),
      readLe_skip (by decide)]
    exact readLe_leBytes (WalFile.crc32_lt _) _
  -- the fields behind the checksum
  have hbody : ∀ offset w, 16 ≤ offset →
      readLe (encode c) offset w = readLe (leBytes 8 c.generation ++
      (leBytes 8 c.checkpointLsn ++ (leBytes 8 c.pageCount ++ List.replicate 24 0)))
        (offset - 16) w := by
    intro offset w h
    rw [encode, bytes, header, body, List.append_assoc, readLe_skip (by omega),
      readLe_skip (by omega),
      readLe_skip (by omega), readLe_skip (by omega)]
    congr 1
  have hgeneration : WalFile.readField (encode c) 16 8 = .ok c.generation := by
    apply WalFile.readField_eq_ok
    rw [hbody 16 8 (by decide)]
    exact readLe_leBytes hc.generation _
  have hlsn : WalFile.readField (encode c) 24 8 = .ok c.checkpointLsn := by
    apply WalFile.readField_eq_ok
    rw [hbody 24 8 (by decide), readLe_skip (by decide)]
    exact readLe_leBytes hc.checkpointLsn _
  have hpages : WalFile.readField (encode c) 32 8 = .ok c.pageCount := by
    apply WalFile.readField_eq_ok
    rw [hbody 32 8 (by decide), readLe_skip (by decide), readLe_skip (by decide)]
    exact readLe_leBytes hc.pageCount _
  simp only [decode, bind_eq_ok, require_eq_ok, pure_eq_ok]
  exact ⟨(), length_bytes, _, hmagic, (), rfl, _, hversion, (), rfl, _, hcrc, (),
    checksumControlBytes_bytes.symm, _,
    hgeneration, _, hlsn, _, hpages, rfl⟩

end Encoding

inductive Name
  | a | b
deriving DecidableEq

def Name.other : Name → Name
  | .a => .b
  | .b => .a

def nameFor (generation : Nat) : Name := if 2 ∣ generation then .b else .a

theorem nameFor_succ (n : Nat) : nameFor (n + 1) = (nameFor n).other := by
  unfold nameFor
  rcases Nat.even_or_odd n with h | h
  · rw [if_neg (by have := h.two_dvd; omega), if_pos h.two_dvd]; rfl
  · rw [if_pos h.add_one.two_dvd, if_neg (by have := h.add_one.two_dvd; omega)]; rfl

/-- `files` is the directory and `checkpoint` the control file that the engine holds. The rest is
not in the source: `latest` is the control file that the last completed call returned or the last
opening found, `interrupted` are those whose write did not complete since, `completed` the
generations of the calls that completed. -/
structure ControlStore where
  files : Name → Option Bytes
  checkpoint : Option ControlFile
  latest : Option ControlFile
  interrupted : List ControlFile
  completed : List Nat

namespace ControlStore

def new : ControlStore where
  files := fun _ => none
  checkpoint := none
  latest := none
  interrupted := []
  completed := []

def readFile : Option Bytes → Except Error (Option ControlFile)
  | none => .ok none
  | some bs => (decode bs).map some

variable (s : ControlStore)

def readNamed (name : Name) : Except Error (Option ControlFile) := readFile (s.files name)

def loadLatest : Except Error (Option ControlFile) :=
  match s.readNamed .a, s.readNamed .b with
  | .ok (some a), .ok (some b) => .ok (some (if a.generation ≥ b.generation then a else b))
  | .ok (some a), _ => .ok (some a)
  | _, .ok (some b) => .ok (some b)
  | .ok none, .ok none => .ok none
  | .error left, .error _ => .error left
  | .error _, .ok none => .ok none
  | .ok none, .error _ => .ok none

def setFile (name : Name) (file : Option Bytes) : ControlStore :=
  { s with files := Function.update s.files name file }

def next (previous : Option ControlFile) (checkpointLsn pageCount : UInt64) :
    Except Error ControlFile := do
  let generation := match previous with
    | some control => control.generation + 1
    | none => 1
  require (generation < 2 ^ 64) (.transactionState "attempt to add with overflow")
  return { generation, checkpointLsn := checkpointLsn.toNat, pageCount := pageCount.toNat }

def writeNext (checkpointLsn pageCount : UInt64) : Except Error ControlStore := do
  let c ← next s.checkpoint checkpointLsn pageCount
  return { s.setFile (nameFor c.generation) (some (encode c)) with
    checkpoint := some c, latest := some c, interrupted := [], completed :=
      s.completed ++ [c.generation] }

/-- What an interrupted write leaves of the file: its first `n` bytes, and with `truncated` nothing
behind them, else the bytes the file had. -/
def torn (old : Option Bytes) (new : Bytes) (n : Nat) (truncated : Bool) : Option Bytes :=
  if truncated then some (new.take n)
  else if n = 0 then old
  else some (new.take n ++ (old.getD []).drop n)

def interrupt (checkpointLsn pageCount : UInt64) (n : Nat) (truncated : Bool) :
    Except Error ControlStore := do
  let c ← next s.checkpoint checkpointLsn pageCount
  let name := nameFor c.generation
  return { s.setFile name (torn (s.files name) (encode c) n truncated) with interrupted :=
    s.interrupted ++ [c] }

def reopen : Except Error ControlStore := do
  let found ← s.loadLatest
  return { s with checkpoint := found, latest := found, interrupted := [] }

inductive Act
  | write (checkpointLsn pageCount : UInt64)
  | interrupt (checkpointLsn pageCount : UInt64) (n : Nat) (truncated : Bool)
  | reopen
deriving DecidableEq

def step : Act → Except Error ControlStore
  | .write checkpointLsn pageCount => s.writeNext checkpointLsn pageCount
  | .interrupt checkpointLsn pageCount n truncated =>
      s.interrupt checkpointLsn pageCount n truncated
  | .reopen => s.reopen

def Sound : Act → Prop
  | .interrupt checkpointLsn pageCount n truncated =>
    match next s.checkpoint checkpointLsn pageCount with
    | .ok c =>
      let old := s.files (nameFor c.generation)
      let file := torn old (encode c) n truncated
      file = some (encode c) ∨ file = old ∨ (file.map fun bs => (decode bs).isOk) = some false
    | .error _ => True
  | _ => True

instance (s : ControlStore) (a : Act) : Decidable (s.Sound a) := by
  unfold Sound
  split
  · split <;> infer_instance
  · infer_instance

variable {s} {s' : ControlStore} {c : ControlFile} {name : Name}

@[simp] theorem other_other : name.other.other = name := by cases name <;> rfl

theorem other_ne : name.other ≠ name := by cases name <;> decide

def generation (s : ControlStore) : Nat := (s.latest.map (·.generation)).getD 0

structure Inv (s : ControlStore) : Prop where
  checkpoint : s.checkpoint = s.latest
  kept : ∀ c, s.latest = some c → Fits c ∧ s.files (nameFor c.generation) = some (encode c)
  empty : s.latest = none → s.files (nameFor 0) = none
  spare : ∀ c, s.readNamed (nameFor (s.generation + 1)) = .ok (some c) →
    c.generation < s.generation ∨ c ∈ s.interrupted ∧ c.generation = s.generation + 1 ∧ Fits c ∧
      s.files (nameFor c.generation) = some (encode c)
  completed : ∀ g ∈ s.completed, 0 < g ∧ g ≤ s.generation

theorem inv_new : Inv new where
  checkpoint := rfl
  kept := by simp [new]
  empty := fun _ => rfl
  spare := by simp [new, readNamed, readFile]
  completed := by simp [new]

theorem readNamed_encode (hc : Fits c) (h : s.files name = some (encode c)) :
    s.readNamed name = .ok (some c) := by
  simp [readNamed, readFile, h, decode_encode hc, Except.map]

theorem loadLatest_eq_some (h : s.readNamed name = .ok (some c))
    (hother : ∀ c', s.readNamed name.other = .ok (some c') → c'.generation < c.generation) :
    s.loadLatest = .ok (some c) := by
  cases name with
  | a =>
    rcases hb : s.readNamed .b with e | _ | c'
    · simp [loadLatest, h, hb]
    · simp [loadLatest, h, hb]
    · have := hother c' hb
      simp [loadLatest, h, hb, this.le]
  | b =>
    rcases ha : s.readNamed .a with e | _ | c'
    · simp [loadLatest, h, ha]
    · simp [loadLatest, h, ha]
    · have := hother c' ha
      simp [loadLatest, h, ha, this]

theorem loadLatest_eq_none (h : s.readNamed name = .ok none)
    (hother : ∀ c, s.readNamed name.other ≠ .ok (some c)) :
    s.loadLatest = .ok none := by
  cases name with
  | a =>
    rcases hb : s.readNamed .b with e | _ | c
    · simp [loadLatest, h, hb]
    · simp [loadLatest, h, hb]
    · exact absurd hb (hother c)
  | b =>
    rcases ha : s.readNamed .a with e | _ | c
    · simp [loadLatest, h, ha]
    · simp [loadLatest, h, ha]
    · exact absurd ha (hother c)

theorem generation_eq (h : s.latest = some c) :
    s.generation = c.generation := by simp [generation, h]

section
variable (h : Inv s)
include h

theorem Inv.readNamed_generation : s.readNamed (nameFor s.generation) = .ok s.latest := by
  rcases hl : s.latest with _ | c
  · simp [readNamed, readFile, generation, hl, h.empty hl]
  · obtain ⟨hfits, hfile⟩ := h.kept c hl
    rw [generation_eq hl]
    exact readNamed_encode hfits hfile

/-- `load_latest` finds the control file in force, and then the other file holds nothing newer, or
an interrupted one. -/
theorem Inv.loadLatest : (s.loadLatest = .ok s.latest ∧
      ∀ c, s.readNamed (nameFor (s.generation + 1)) = .ok (some c) → c.generation < s.generation) ∨
    ∃ c ∈ s.interrupted, s.loadLatest = .ok (some c) ∧ c.generation = s.generation + 1 ∧ Fits c ∧
      s.files (nameFor c.generation) = some (encode c) := by
  have hother : nameFor (s.generation + 1) = (nameFor s.generation).other := nameFor_succ _
  have hmain := h.readNamed_generation
  by_cases hnew : ∃ c, s.readNamed (nameFor (s.generation + 1)) = .ok (some c) ∧
    s.generation < c.generation
  · obtain ⟨c, hc, hgt⟩ := hnew
    obtain hlt | ⟨hi, hgen, hfits, hfile⟩ := h.spare c hc
    · omega
    · refine .inr ⟨c, hi, loadLatest_eq_some hc ?_, hgen, hfits, hfile⟩
      intro c' hc'
      rw [hother, other_other, hmain] at hc'
      have hl : s.latest = some c' := by simpa using hc'
      rw [generation_eq hl] at hgt
      exact hgt
  · have hold : ∀ c, s.readNamed (nameFor s.generation).other = .ok (some c) →
        c.generation < s.generation := by
      intro c hc
      rw [← hother] at hc
      obtain hlt | ⟨-, hgen, -⟩ := h.spare c hc
      · exact hlt
      · exact absurd ⟨c, hc, by omega⟩ hnew
    refine .inl ⟨?_, hother ▸ hold⟩
    rcases hl : s.latest with _ | c
    · rw [hl] at hmain
      refine loadLatest_eq_none hmain fun c hc => ?_
      have hlt := hold c hc
      simp [generation, hl] at hlt
    · rw [hl] at hmain
      refine loadLatest_eq_some hmain fun c' hc' => ?_
      rw [← generation_eq hl]
      exact hold c' hc'

variable {checkpointLsn pageCount : UInt64}

theorem next_eq_ok (hn : next s.checkpoint checkpointLsn pageCount = .ok c) :
    c.generation = s.generation + 1 ∧ Fits c := by
  rw [h.checkpoint] at hn
  obtain ⟨hlt, rfl⟩ := guarded_eq_ok.1 hn
  refine ⟨?_, ⟨hlt, checkpointLsn.toNat_lt, pageCount.toNat_lt⟩⟩
  rcases hl : s.latest with _ | c <;> simp [generation, hl]

theorem Inv.write (hs : s.writeNext checkpointLsn pageCount = .ok s') : Inv s' := by
  simp only [writeNext, bind_eq_ok, pure_eq_ok] at hs
  obtain ⟨c, hn, rfl⟩ := hs
  obtain ⟨hgen, hfits⟩ := next_eq_ok h hn
  have hname : nameFor (c.generation + 1) = nameFor s.generation := by
    rw [nameFor_succ, hgen, nameFor_succ, other_other]
  have hne : nameFor s.generation ≠ nameFor c.generation := by
    rw [hgen, nameFor_succ]
    exact other_ne.symm
  refine ⟨rfl, ?_, by simp, ?_, ?_⟩
  · rintro c' hc'
    cases hc'
    exact ⟨hfits, by simp [setFile]⟩
  · -- the file that is not written holds the control file that was in force
    intro c' hc'
    left
    have hread : s.readNamed (nameFor s.generation) = .ok (some c') := by
      rw [← hname]
      rw [← hname] at hne
      simpa [readNamed, setFile, generation, Function.update_of_ne hne] using hc'
    rw [h.readNamed_generation, Except.ok.injEq] at hread
    have hold := generation_eq hread
    show c'.generation < c.generation
    omega
  · intro g hg
    simp only [List.mem_append, List.mem_singleton] at hg
    show 0 < g ∧ g ≤ c.generation
    rcases hg with hg | rfl
    · have := h.completed g hg
      omega
    · omega

theorem Inv.interrupt {n : Nat} {truncated : Bool}
    (hsound : s.Sound (.interrupt checkpointLsn pageCount n truncated))
    (hs : s.interrupt checkpointLsn pageCount n truncated = .ok s') : Inv s' := by
  simp only [ControlStore.interrupt, bind_eq_ok, pure_eq_ok] at hs
  obtain ⟨c, hn, rfl⟩ := hs
  obtain ⟨hgen, hfits⟩ := next_eq_ok h hn
  simp only [Sound, hn] at hsound
  have hname : nameFor (s.generation + 1) = nameFor c.generation := by rw [hgen]
  have hkept : ∀ file, (s.setFile (nameFor c.generation) file).files (nameFor s.generation) =
      s.files (nameFor s.generation) := by
    intro file
    have hne : nameFor s.generation ≠ nameFor c.generation := by
      rw [hgen, nameFor_succ]
      exact other_ne.symm
    simp [setFile, Function.update_of_ne hne]
  have hspare : ∀ file, (s.setFile (nameFor c.generation) file).files (nameFor c.generation) =
      file := by
    simp [setFile]
  generalize torn (s.files (nameFor c.generation)) (encode c) n truncated = file at hsound ⊢
  refine ⟨h.checkpoint, ?_, ?_, ?_, h.completed⟩
  · intro old hl
    rw [← generation_eq hl]
    have hold := h.kept old hl
    rw [← generation_eq hl] at hold
    exact ⟨hold.1, (hkept file).trans hold.2⟩
  · intro hl
    have h0 : s.generation = 0 := by
      have hl : s.latest = none := hl
      simp [generation, hl]
    have hempty := hkept file
    rw [h0, h.empty hl] at hempty
    exact hempty
  · intro c' hc'
    have hread : readFile file = .ok (some c') := by
      have hc' : readFile
          ((s.setFile (nameFor c.generation) file).files (nameFor (s.generation + 1))) = .ok
          (some c') :=
        hc'
      rw [hname, hspare] at hc'
      exact hc'
    rcases hsound with rfl | rfl | hrejected
    · simp only [readFile, decode_encode hfits, Except.map, Except.ok.injEq,
        Option.some.injEq] at hread
      subst hread
      exact .inr ⟨by simp, hgen, hfits, hspare _⟩
    · -- the file is as it was, perhaps since an earlier write that did not complete
      have hread : s.readNamed (nameFor (s.generation + 1)) = .ok (some c') := by
        rw [hname]
        exact hread
      obtain hlt | ⟨hi, hgen', hfits', hfile'⟩ := h.spare c' hread
      · exact .inl hlt
      · refine .inr ⟨List.mem_append_left _ hi, hgen', hfits', ?_⟩
        rw [hgen', ← hgen] at hfile' ⊢
        exact (hspare _).trans hfile'
    · rcases file with _ | bs
      · simp [readFile] at hread
      · simp only [Option.map_some, Option.some.injEq] at hrejected
        rcases hd : decode bs with e | d
        · simp [readFile, hd, Except.map] at hread
        · simp [hd, Except.isOk, Except.toBool] at hrejected

theorem Inv.reopen (hs : s.reopen = .ok s') : Inv s' := by
  simp only [ControlStore.reopen, bind_eq_ok, pure_eq_ok] at hs
  obtain ⟨found, hload, rfl⟩ := hs
  obtain ⟨hlatest, hold⟩ | ⟨c, hi, hload', hgen, hfits, hfile⟩ := h.loadLatest
  · rw [hlatest, Except.ok.injEq] at hload
    subst hload
    exact ⟨rfl, h.kept, h.empty, fun c hc => .inl (hold c hc), h.completed⟩
  · rw [hload', Except.ok.injEq] at hload
    subst hload
    refine ⟨rfl, ?_, by simp, ?_, ?_⟩
    · rintro c' hc'
      cases hc'
      exact ⟨hfits, hfile⟩
    · intro c' hc'
      left
      have hname : nameFor (c.generation + 1) = nameFor s.generation := by
        rw [nameFor_succ, hgen, nameFor_succ, other_other]
      have hread : s.readNamed (nameFor s.generation) = .ok (some c') := by
        rw [← hname]
        exact hc'
      rw [h.readNamed_generation, Except.ok.injEq] at hread
      have hold := generation_eq hread
      show c'.generation < c.generation
      omega
    · intro g hg
      show 0 < g ∧ g ≤ c.generation
      have := h.completed g hg
      omega

theorem Inv.step {a : Act} (hsound : s.Sound a) (hs : s.step a = .ok s') : Inv s' := by
  cases a with
  | write checkpointLsn pageCount => exact h.write hs
  | interrupt checkpointLsn pageCount n truncated => exact h.interrupt hsound hs
  | reopen => exact h.reopen hs

end

/-- In every run of completed and interrupted writes and openings, `load_latest` finds the control
file that the last completed call returned or the last opening found, or one whose write was
interrupted since; it is not older than any completed one, and there is one as soon as a call has
completed. -/
theorem load_latest_after_tear {acts : List Act} (hrun : Run step Sound new acts s) :
    ∃ found, s.loadLatest = .ok found ∧ (found = s.latest ∨ ∃ c ∈ s.interrupted, found = some c) ∧
      ∀ g ∈ s.completed, ∃ c, found = some c ∧ g ≤ c.generation := by
  have h : Inv s := hrun.invariant (I := fun _ s => Inv s) inv_new fun _ _ _ _ h hsound hs =>
      h.step hsound hs
  obtain ⟨hload, -⟩ | ⟨c, hi, hload, hgen, -⟩ := h.loadLatest
  · refine ⟨s.latest, hload, .inl rfl, ?_⟩
    intro g hg
    obtain ⟨hpos, hle⟩ := h.completed g hg
    rcases hl : s.latest with _ | c
    · simp [generation, hl] at hle
      omega
    · exact ⟨c, rfl, (generation_eq hl) ▸ hle⟩
  · refine ⟨some c, hload, .inr ⟨c, hi, rfl⟩, ?_⟩
    intro g hg
    have := h.completed g hg
    exact ⟨c, rfl, by omega⟩

def tornTrace : List Act :=
  [.write 100 3, .write 200 5, .interrupt 300 7 40 true, .reopen, .interrupt 310 7 30 false,
    .reopen]

theorem load_latest_after_tear_twice : ∃ s, Run step Sound new tornTrace s ∧ s.completed = [1, 2] ∧
    s.latest = some ⟨2, 200, 5⟩ ∧ ∃ found, s.loadLatest = .ok found ∧ ∀ g ∈ s.completed, ∃ c,
      found = some c ∧
      g ≤ c.generation := by
  obtain ⟨s, hrun, hcompleted, hlatest⟩ : ∃ s, Run step Sound new tornTrace s ∧
      s.completed = [1, 2] ∧
      s.latest = some ⟨2, 200, 5⟩ := by decide +kernel
  obtain ⟨found, hload, -, hnew⟩ := load_latest_after_tear hrun
  exact ⟨s, hrun, hcompleted, hlatest, found, hload, hnew⟩

end ControlStore
end RedlineDb.Control
