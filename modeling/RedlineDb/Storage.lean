import Mathlib.Data.List.AList
import RedlineDb.Format
import RedlineDb.Lib.Run

/-!
# Page file and buffer pool

`Store` is the page file together with the resident frames of the buffer pool. A page is read from
its frame when it is resident and from the file otherwise. The configured page size carries the
bounds that `validate_page_size` checks when the engine is opened.
-/

namespace RedlineDb

/-- A page size accepted by `validate_page_size`: room for a header and a slot, offsets in 16 bits.
-/
structure PageSize where
  bytes : Nat
  min_le : pageHeaderLen + slotLen ≤ bytes
  le_max : bytes ≤ 65535

def PageSize.small : PageSize := ⟨512, by decide, by decide⟩

structure Frame where
  page : Page
  dirty : Bool
deriving DecidableEq

/-- `file` holds the pages written, `pageCount` is the length of the file in pages (a page below it
may be a hole of zeros), `nextPageId` the allocation counter. -/
structure Store where
  pageSize : PageSize
  file : Nat → Option Page
  pageCount : Nat
  frames : AList (fun _ : Nat => Frame)
  nextPageId : Nat

namespace Store

def create (pageSize : PageSize) : Store where
  pageSize
  file := fun _ => none
  pageCount := 0
  frames := ∅
  nextPageId := 1

variable (s : Store)

/-- `PageFile::read_page`. A hole has no magic; past the end the read fails. -/
def readPage (pid : Nat) : Except Error Page :=
  match s.file pid with
  | some p => .ok p
  | none => if pid ≤ s.pageCount then .error (.invalidMagic 0) else .error .io

/-- `write_page_direct`: the file only, a resident frame is left alone. -/
def writePageDirect (p : Page) : Store :=
  { s with
    file := fun pid => if pid = p.pageId then some p else s.file pid
    pageCount := max s.pageCount p.pageId }

def fetch (pid : Nat) : Except Error Page :=
  match s.frames.lookup pid with
  | some f => .ok f.page
  | none => s.readPage pid

def setFrame (pid : Nat) (f : Frame) : Store :=
  { s with frames := s.frames.insert pid f }

def pin (pid : Nat) : Except Error (Frame × Store) :=
  match s.frames.lookup pid with
  | some f => .ok (f, s)
  | none => do
    let p ← s.readPage pid
    return (⟨p, false⟩, s.setFrame pid ⟨p, false⟩)

def allocate (kind : PageKind) (relId : Nat) : Except Error (Nat × Store) :=
  let pid := s.nextPageId
  match s.frames.lookup pid with
  | some _ => .error (.corruptPage "allocated page already resident")
  | none =>
    .ok (pid, { s with nextPageId := pid + 1 }.setFrame pid ⟨Page.new kind pid relId, true⟩)

def flushFrame (pid : Nat) : Store :=
  match s.frames.lookup pid with
  | some f => (s.writePageDirect f.page).setFrame pid { f with dirty := false }
  | none => s

/-- `dirty_frames`: the dirty pages whose changes are durable in the log, in the order of the table.
-/
def dirtyFrames (durableLsn : Nat) : List Nat :=
  (s.frames.entries.filter fun e => e.2.dirty && decide (e.2.page.pageLsn ≤ durableLsn)).map (·.1)

/-- `flush_dirty_batch_inner` with nobody else at work: the pages flushed, and the store. -/
def flushDirtyBatch (durableLsn maxPages : Nat) : Nat × Store :=
  let frames := s.dirtyFrames durableLsn
  let pageLimit := min (max maxPages 1) (max frames.length 1)
  let batch := frames.take pageLimit
  (batch.length, batch.foldl flushFrame s)

/-- The loop of `flush_dirty_batches`: an empty or a short batch ends it. -/
def flushLoop (durableLsn batchPages : Nat) : Nat → Store → Store
  | 0, s => s
  | rounds + 1, s =>
    let (flushed, s) := s.flushDirtyBatch durableLsn batchPages
    if flushed = 0 then s
    else if flushed < batchPages then s
    else flushLoop durableLsn batchPages rounds s

/-- Each round but the last flushes a page, so there are at most as many rounds as dirty pages, and
one. -/
def flushDirtyBatches (durableLsn batchPages : Nat) : Store :=
  flushLoop durableLsn (max batchPages 1) ((s.dirtyFrames durableLsn).length + 1) s

/-- `BufferPool::new` over an existing page file: nothing is resident, ids go on after the file. -/
def openFile (pageSize : PageSize) (file : Nat → Option Page) (pageCount : Nat) : Store where
  pageSize; file; pageCount
  frames := ∅
  nextPageId := pageCount + 1

def dropFrame (pid : Nat) : Store := { s with frames := s.frames.erase pid }

variable {s} {pid pid' : Nat} {p : Page} {f : Frame}

theorem fetch_eq_ok : s.fetch pid = .ok p ↔
    (∃ f, s.frames.lookup pid = some f ∧ f.page = p) ∨
    (s.frames.lookup pid = none ∧ s.file pid = some p) := by
  unfold fetch readPage
  cases hf : s.frames.lookup pid with
  | some f => simp
  | none =>
    cases hp : s.file pid with
    | some q => simp
    | none => simp; split <;> simp

@[simp] theorem fetch_setFrame_self : (s.setFrame pid f).fetch pid = .ok f.page := by
  simp [fetch, setFrame]

theorem fetch_setFrame_ne (h : pid' ≠ pid) : (s.setFrame pid f).fetch pid' = s.fetch pid' := by
  simp only [fetch, setFrame, AList.lookup_insert_ne h]
  rfl

theorem fetch_setFrame :
    (s.setFrame pid f).fetch pid' = if pid' = pid then .ok f.page else s.fetch pid' := by
  split
  · next h => subst h; simp
  · next h => exact fetch_setFrame_ne h

theorem pin_ok {s' : Store} (h : s.pin pid = .ok (f, s')) :
    s.fetch pid = .ok f.page ∧ (∀ q, s'.fetch q = s.fetch q) ∧ s'.frames.lookup pid = some f ∧
      s'.file = s.file ∧ s'.pageCount = s.pageCount ∧ s'.nextPageId = s.nextPageId ∧
        s'.pageSize = s.pageSize := by
  unfold pin at h
  split at h
  · next f' hf =>
    simp only [Except.ok.injEq, Prod.mk.injEq] at h
    obtain ⟨rfl, rfl⟩ := h
    simp [fetch, hf]
  · next hf =>
    simp only [Lib.bind_eq_ok, Lib.pure_eq_ok, Prod.mk.injEq] at h
    obtain ⟨p, hp, rfl, rfl⟩ := h
    refine ⟨by simp [fetch, hf, hp], fun q => ?_, by simp [setFrame], rfl, rfl, rfl, rfl⟩
    rw [fetch_setFrame]
    split
    · next hq => subst hq; simp [fetch, hf, hp]
    · rfl

theorem allocate_ok {kind : PageKind} {relId : Nat} {s' : Store}
    (h : s.allocate kind relId = .ok (pid, s')) :
    pid = s.nextPageId ∧
      s' = { s with nextPageId := s.nextPageId + 1 }.setFrame pid
        ⟨Page.new kind pid relId, true⟩ := by
  unfold allocate at h
  dsimp only at h
  split at h
  · cases h
  · simp only [Except.ok.injEq, Prod.mk.injEq] at h
    obtain ⟨rfl, rfl⟩ := h
    exact ⟨rfl, rfl⟩

end Store
end RedlineDb
