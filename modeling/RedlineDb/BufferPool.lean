import RedlineDb.Recovery

/-!
# The buffer pool with its writers and flushers

The buffer pool at the grain of its frame locks: writers of the heap, which log and mark a page
under one lock, writers of indexes, which change the page, log and mark it in three steps, and
flushers, which copy a page, write the copy and clear the dirty flag. A page is what flushing looks
at, its LSN, together with the changes it has been through. A step that would have to wait for a
lock is not accepted.
-/

namespace RedlineDb
open Lib

structure PoolPage where
  pageLsn : Nat
  changes : List Nat
deriving DecidableEq

structure PoolFrame where
  page : PoolPage
  dirty : Bool
  writeInProgress : Bool
deriving DecidableEq

/-- An index writer that has changed its page, and then logged the change. It keeps the page pinned
until `mark_dirty`. -/
inductive WriterPhase
  | modified (pid change : Nat)
  | logged (pid change endLsn : Nat)
deriving DecidableEq

def WriterPhase.pid : WriterPhase → Nat
  | .modified pid _ => pid
  | .logged pid _ _ => pid

structure LoggedChange where
  pid : Nat
  change : Nat
  lsn : Nat
deriving DecidableEq

/-- Where a flusher stands, with its local variables: a checkpoint waiting for the log, in
`dirty_frames` (the frames resident when it began, those looked at, those found), in the loop over a
batch, in `flush_frame_checked` with its copy of the page, and after the flush. `single` is
`flush_frame_checked` called for one page by an eviction, `flush_page` or `flush_all`. -/
inductive FlushPhase
  | waiting (target : Nat)
  | collecting (durableLsn : Nat) (start seen found : List Nat)
  | batch (durableLsn : Nat) (todo : List Nat) (flushed : Nat)
  | writing (durableLsn : Nat) (pid : Nat) (page : PoolPage) (todo : List Nat) (flushed : Nat)
  | flushed (durableLsn : Nat)
  | controlWritten (checkpointLsn : Nat)
  | single (pid : Nat) (page : PoolPage)
deriving DecidableEq

namespace FlushPhase

def lsn? : FlushPhase → Option Nat
  | collecting c _ _ _ | batch c _ _ | writing c _ _ _ _ | flushed c | controlWritten c => some c
  | waiting _ | single _ _ => none

def flushLsn? : FlushPhase → Option Nat
  | collecting c _ _ _ | batch c _ _ | writing c _ _ _ _ => some c
  | _ => none

def copy? : FlushPhase → Option (Nat × PoolPage)
  | writing _ pid page _ _ | single pid page => some (pid, page)
  | _ => none

end FlushPhase

structure Pool where
  file : Nat → Option PoolPage
  nextPageId : Nat
  frames : AList (fun _ : Nat => PoolFrame)
  wal : WalCoordinator
  nextChange : Nat
  logged : List LoggedChange
  writers : AList (fun _ : Nat => WriterPhase)
  jobs : AList (fun _ : Nat => FlushPhase)

inductive PoolAction
  | allocate
  | load (pid : Nat)
  | evict (pid : Nat)
  /-- A cell appended to a page under the frame's lock, with its record. -/
  | append (pid : Nat) (kind : WalRecordKind) (txId : Nat) (payload : WalPayload)
  /-- The same without a record: undo cells are appended so, with LSN `1`. -/
  | appendUnlogged (pid lsn : Nat)
  | modify (writer pid : Nat)
  | log (writer : Nat) (kind : WalRecordKind) (txId : Nat) (payload : WalPayload)
  /-- `mark_dirty`, with the end of the record, or with `lsn` when nothing was logged. -/
  | markDirty (writer lsn : Nat)
  /-- The append to the log failed, or the writer never marks its page. -/
  | abandon (writer : Nat)
  | writeLog (lsn : Nat)
  | flushPage (job pid durableLsn : Nat)
  /-- A checkpoint looks at one frame in `dirty_frames`. -/
  | visit (job pid : Nat)
  /-- The next step of a flusher. -/
  | flush (job : Nat)

namespace Pool

def openFile (file : Nat → Option PoolPage) (pageCount segmentBytes walBufferBytes : Nat)
    (records : List WalRecord) :
    Pool where
  file := fun pid => if pid ≤ pageCount then file pid else none
  nextPageId := pageCount + 1
  frames := ∅
  wal := .openScan segmentBytes walBufferBytes records
  nextChange := 0
  logged := []
  writers := ∅
  jobs := ∅

variable (s : Pool)

def setFrame (pid : Nat) (f : PoolFrame) : Pool := { s with frames := s.frames.insert pid f }

def setJob (job : Nat) (p : FlushPhase) : Pool := { s with jobs := s.jobs.insert job p }

def setWriter (writer : Nat) (p : WriterPhase) : Pool :=
  { s with writers := s.writers.insert writer p }

def onDisk (pid : Nat) : List Nat := ((s.file pid).map PoolPage.changes).getD []

def mutableFrame (pid : Nat) : Except Error PoolFrame :=
  match s.frames.lookup pid with
  | some f => if f.writeInProgress then .error .lockTimeout else .ok f
  | none => .error .io

def isDirtyFrame (pid durableLsn : Nat) : Bool :=
  (s.frames.lookup pid).any fun f => f.dirty && !f.writeInProgress &&
    decide (f.page.pageLsn ≤ durableLsn)

def allocate : Except Error Pool :=
  let pid := s.nextPageId
  match s.frames.lookup pid with
  | some _ => .error (.corruptPage "allocated page already resident")
  | none => .ok ({ s with nextPageId := pid + 1 }.setFrame pid ⟨⟨0, []⟩, true, false⟩)

/-- `pin` of a page that is not resident. -/
def load (pid : Nat) : Except Error Pool :=
  match s.frames.lookup pid, s.file pid with
  | none, some page => .ok (s.setFrame pid ⟨page, false, false⟩)
  | _, _ => .error .io

/-- `remove_frame_if_unpinned`. -/
def evict (pid : Nat) : Except Error Pool := do
  let f ← s.mutableFrame pid
  require (f.dirty = false ∧ ∀ w ∈ s.writers.entries, w.2.pid ≠ pid)
    (.corruptPage "no unpinned frame available for eviction")
  return { s with frames := s.frames.erase pid }

def append (pid : Nat) (kind : WalRecordKind) (txId : Nat) (payload : WalPayload) :
    Except Error Pool := do
  let f ← s.mutableFrame pid
  let (a, wal) ← s.wal.append kind txId payload
  return { s with
    wal
    nextChange := s.nextChange + 1
    logged := ⟨pid, s.nextChange, a.startLsn⟩ :: s.logged }.setFrame pid
      { f with page := ⟨a.endLsn, s.nextChange :: f.page.changes⟩, dirty := true }

def appendUnlogged (pid lsn : Nat) : Except Error Pool := do
  let f ← s.mutableFrame pid
  return { s with nextChange := s.nextChange + 1 }.setFrame pid
    { f with page := ⟨lsn, s.nextChange :: f.page.changes⟩, dirty := true }

/-- `with_page_mut`: the page is changed, its LSN and the dirty flag are not. -/
def modify (writer pid : Nat) : Except Error Pool := do
  let f ← s.mutableFrame pid
  require (s.writers.lookup writer = none) .writeConflict
  return ({ s with nextChange := s.nextChange + 1 }.setFrame pid
    { f with page := { f.page with changes := s.nextChange :: f.page.changes } }).setWriter writer
      (.modified pid s.nextChange)

def log (writer : Nat) (kind : WalRecordKind) (txId : Nat) (payload : WalPayload) :
    Except Error Pool :=
  match s.writers.lookup writer with
  | some (.modified pid change) => do
    let (a, wal) ← s.wal.append kind txId payload
    return { s with wal, logged := ⟨pid, change, a.startLsn⟩ :: s.logged }.setWriter writer
      (.logged pid change a.endLsn)
  | _ => .error .writeConflict

def markedPage (writer lsn : Nat) : Option (Nat × Nat) :=
  match s.writers.lookup writer with
  | some (.modified pid _) => some (pid, lsn)
  | some (.logged pid _ endLsn) => some (pid, endLsn)
  | none => none

def markDirty (writer lsn : Nat) : Except Error Pool :=
  match s.markedPage writer lsn with
  | some (pid, lsn) => do
    let f ← s.mutableFrame pid
    return { s.setFrame pid { f with page := { f.page with pageLsn := lsn }, dirty := true } with
      writers := s.writers.erase writer }
  | none => .error .writeConflict

def abandon (writer : Nat) : Except Error Pool :=
  match s.writers.lookup writer with
  | some (.modified _ _) => .ok { s with writers := s.writers.erase writer }
  | _ => .error .writeConflict

def writeLog (lsn : Nat) : Except Error Pool := do
  require (lsn ≤ s.wal.reservedLsn) (.corruptWal "nothing reserved there")
  let (_, wal) ← s.wal.flushUntil lsn
  return { s with wal }

/-- `flush_frame_checked` up to the write: nothing when the page is clean or its LSN is not durable.
It does not ask whether somebody else is writing the page. -/
def beginWrite (pid durableLsn : Nat) : Option (PoolPage × Pool) :=
  match s.frames.lookup pid with
  | some f =>
    if f.dirty ∧ f.page.pageLsn ≤ durableLsn then
      some (f.page, s.setFrame pid { f with writeInProgress := true })
    else none
  | none => none

def endWrite (pid : Nat) (page : PoolPage) : Pool :=
  let s := { s with file := fun q => if q = pid then some page else s.file q }
  match s.frames.lookup pid with
  | some f =>
    s.setFrame pid { f with
      writeInProgress := false
      dirty := if f.page.pageLsn ≤ page.pageLsn then false else f.dirty }
  | none => s

def flushPage (job pid durableLsn : Nat) : Except Error Pool :=
  match s.jobs.lookup job, s.beginWrite pid durableLsn with
  | none, some (page, s) => .ok (s.setJob job (.single pid page))
  | _, _ => .error .lockTimeout

def visit (job pid : Nat) : Except Error Pool :=
  match s.jobs.lookup job with
  | some (.collecting c start seen found) => do
    require (pid ∉ seen) .io
    return s.setJob job
      (.collecting c start (pid :: seen) (if s.isDirtyFrame pid c then found ++ [pid] else found))
  | _ => .error .io

/-- `flush_dirty_batches` from the beginning of `dirty_frames`. -/
def collect (job durableLsn : Nat) : Pool :=
  s.setJob job (.collecting durableLsn s.frames.keys [] [])

def flush (job : Nat) : Except Error Pool :=
  match s.jobs.lookup job with
  | none => .ok (s.setJob job (.waiting s.wal.reservedLsn))
  | some (.waiting target) => do
    let (durableLsn, wal) ← s.wal.flushUntil target
    return { s with wal }.collect job durableLsn
  | some (.collecting c start seen found) => do
    require (∀ pid ∈ start, pid ∈ seen) .lockTimeout
    let pageLimit := min defaultCheckpointBatchPages (max found.length 1)
    return s.setJob job (.batch c (found.take pageLimit) 0)
  | some (.batch c [] flushed) =>
    if flushed = 0 then .ok (s.setJob job (.flushed c))
    else if flushed < defaultCheckpointBatchPages then .ok (s.setJob job (.flushed c))
    else .ok (s.collect job c)
  | some (.batch c (pid :: todo) flushed) =>
    match s.beginWrite pid c with
    | some (page, s) => .ok (s.setJob job (.writing c pid page todo flushed))
    | none => .ok (s.setJob job (.batch c todo flushed))
  | some (.writing c pid page todo flushed) =>
      .ok ((s.endWrite pid page).setJob job (.batch c todo (flushed + 1)))
  | some (.flushed c) => .ok (s.setJob job (.controlWritten c))
  | some (.controlWritten _) => .error .io
  | some (.single pid page) => .ok { s.endWrite pid page with jobs := s.jobs.erase job }

def step : PoolAction → Except Error Pool
  | .allocate => s.allocate
  | .load pid => s.load pid
  | .evict pid => s.evict pid
  | .append pid kind txId payload => s.append pid kind txId payload
  | .appendUnlogged pid lsn => s.appendUnlogged pid lsn
  | .modify writer pid => s.modify writer pid
  | .log writer kind txId payload => s.log writer kind txId payload
  | .markDirty writer lsn => s.markDirty writer lsn
  | .abandon writer => s.abandon writer
  | .writeLog lsn => s.writeLog lsn
  | .flushPage job pid durableLsn => s.flushPage job pid durableLsn
  | .visit job pid => s.visit job pid
  | .flush job => s.flush job

/-! ### When nobody disturbs a flush -/

def isPending (pid c : Nat) : Bool :=
  (s.frames.lookup pid).any fun f => f.dirty && decide (f.page.pageLsn ≤ c)

def isWriting (pid : Nat) : Bool := (s.frames.lookup pid).any PoolFrame.writeInProgress

def flushLsns : List Nat := s.jobs.entries.filterMap fun e => e.2.flushLsn?

/-- No writer gives a higher LSN to a page that a checkpoint still has to write, no two flushers
work on one page, and when a checkpoint takes its LSN, every change below it that is not in the file
is on a page it can see: dirty, with an LSN not above. -/
def Undisturbed : PoolAction → Prop
  | .append pid _ _ _ => ∀ c ∈ s.flushLsns, s.isPending pid c = false
  | .appendUnlogged pid lsn => ∀ c ∈ s.flushLsns, s.isPending pid c = true → lsn ≤ c
  | .markDirty writer lsn =>
    match s.markedPage writer lsn with
    | some (pid, lsn) => ∀ c ∈ s.flushLsns, s.isPending pid c = true → lsn ≤ c
    | none => True
  | .flushPage _ pid _ => s.isWriting pid = false
  | .visit job pid =>
    match s.jobs.lookup job with
    | some (.collecting c _ _ _) => s.isPending pid c = true → s.isWriting pid = false
    | _ => True
  | .flush job =>
    match s.jobs.lookup job with
    | some (.waiting target) => ∀ r ∈ s.logged, r.lsn < max s.wal.durableLsn target →
        r.change ∈ s.onDisk r.pid ∨ s.isPending r.pid (max s.wal.durableLsn target) = true
    | some (.batch c (pid :: _) _) => s.isDirtyFrame pid c = true
    | _ => True
  | _ => True

instance (s : Pool) (a : PoolAction) : Decidable (s.Undisturbed a) := by
  unfold Undisturbed
  repeat' split
  all_goals infer_instance

variable {s} {s' : Pool} {pid pid' job c : Nat} {f : PoolFrame}

theorem isPending_iff : s.isPending pid c = true ↔
    ∃ f, s.frames.lookup pid = some f ∧ f.dirty = true ∧ f.page.pageLsn ≤ c := by
  simp [isPending, Option.any_eq_true]

theorem isDirtyFrame_iff : s.isDirtyFrame pid c = true ↔
    ∃ f, s.frames.lookup pid = some f ∧ f.dirty = true ∧ f.writeInProgress = false ∧
      f.page.pageLsn ≤ c := by
  simp [isDirtyFrame, Option.any_eq_true, and_assoc]

theorem isWriting_eq_false (h : s.frames.lookup pid = some f) :
    s.isWriting pid = false ↔ f.writeInProgress = false := by
  simp [isWriting, h]

theorem mutableFrame_ok : s.mutableFrame pid = .ok f ↔ s.frames.lookup pid = some f ∧
    f.writeInProgress = false := by
  unfold mutableFrame
  split
  · next g hg =>
    split
    · next hw =>
      simp only [hg, Option.some.injEq, reduceCtorEq, false_iff, not_and]
      rintro rfl
      simp [hw]
    · next hw =>
      simp only [hg, Except.ok.injEq, Option.some.injEq]
      constructor
      · rintro rfl
        exact ⟨rfl, by simpa using hw⟩
      · exact fun h => h.1
  · next hg => simp [hg]

theorem lookup_setFrame :
    (s.setFrame pid f).frames.lookup pid' = if pid' = pid then some f else s.frames.lookup pid' :=
  Lib.lookup_insert

theorem lookup_setJob {p : FlushPhase} (j : Nat) :
    (s.setJob job p).jobs.lookup j = if j = job then some p else s.jobs.lookup j :=
    Lib.lookup_insert

theorem lookup_eraseJob (j : Nat) :
    (s.jobs.erase job).lookup j = if j = job then none else s.jobs.lookup j :=
  Lib.lookup_erase

theorem mem_flushLsns {p : FlushPhase} (hj : s.jobs.lookup job = some p)
    (hc : p.flushLsn? = some c) : c ∈ s.flushLsns :=
  List.mem_filterMap.2 ⟨⟨job, p⟩, AList.mem_lookup_iff.1 hj, hc⟩

theorem beginWrite_ok {page : PoolPage} (h : s.beginWrite pid c = some (page, s')) :
    ∃ f, s.frames.lookup pid = some f ∧ f.dirty = true ∧ f.page.pageLsn ≤ c ∧ page = f.page ∧
      s' = s.setFrame pid { f with writeInProgress := true } := by
  unfold Pool.beginWrite at h
  split at h
  · next f hf =>
    split at h
    · next hd =>
      cases h
      exact ⟨f, hf, hd.1, hd.2, rfl, rfl⟩
    · cases h
  · cases h

inductive FlushStep (s : Pool) (job : Nat) : Pool → Prop
  | start (hj : s.jobs.lookup job = none) :
      FlushStep s job (s.setJob job (.waiting s.wal.reservedLsn))
  | flushAll {target d : Nat} {wal : WalCoordinator}
      (hj : s.jobs.lookup job = some (.waiting target))
      (hf : s.wal.flushUntil target = .ok (d, wal)) : FlushStep s job ({ s with wal }.collect job d)
  | collected {c : Nat} {start seen found : List Nat}
      (hj : s.jobs.lookup job = some (.collecting c start seen found))
      (hall : ∀ pid ∈ start, pid ∈ seen) :
      FlushStep s job
        (s.setJob job
        (.batch c (found.take (min defaultCheckpointBatchPages (max found.length 1))) 0))
  | short {c flushed : Nat} (hj : s.jobs.lookup job = some (.batch c [] flushed))
      (hlt : flushed < defaultCheckpointBatchPages) : FlushStep s job (s.setJob job (.flushed c))
  | again {c flushed : Nat} (hj : s.jobs.lookup job = some (.batch c [] flushed)) :
      FlushStep s job (s.collect job c)
  | copy {c pid flushed : Nat} {todo : List Nat} {f : PoolFrame}
      (hj : s.jobs.lookup job = some (.batch c (pid :: todo) flushed))
      (hf : s.frames.lookup pid = some f) :
      FlushStep s job ((s.setFrame pid { f with writeInProgress := true }).setJob job
        (.writing c pid f.page todo flushed))
  | skip {c pid flushed : Nat} {todo : List Nat}
      (hj : s.jobs.lookup job = some (.batch c (pid :: todo) flushed))
      (hnot : s.beginWrite pid c = none) : FlushStep s job (s.setJob job (.batch c todo flushed))
  | write {c pid flushed : Nat} {page : PoolPage} {todo : List Nat}
      (hj : s.jobs.lookup job = some (.writing c pid page todo flushed)) :
      FlushStep s job ((s.endWrite pid page).setJob job (.batch c todo (flushed + 1)))
  | control {c : Nat} (hj : s.jobs.lookup job = some (.flushed c)) :
      FlushStep s job (s.setJob job (.controlWritten c))
  | single {pid : Nat} {page : PoolPage} (hj : s.jobs.lookup job = some (.single pid page)) :
      FlushStep s job { s.endWrite pid page with jobs := s.jobs.erase job }

theorem flush_ok (hs : s.flush job = .ok s') : FlushStep s job s' := by
  unfold Pool.flush at hs
  split at hs
  · next hj =>
    cases hs
    exact .start hj
  · next target hj =>
    simp only [bind_eq_ok, pure_eq_ok, Prod.exists] at hs
    obtain ⟨d, wal, hf, rfl⟩ := hs
    exact .flushAll hj hf
  · next hj =>
    obtain ⟨hall, rfl⟩ := guarded_eq_ok.1 hs
    exact .collected hj hall
  · next hj =>
    split at hs
    · next h0 =>
      cases hs
      exact .short hj (by rw [h0]; decide)
    · split at hs
      · next hlt =>
        cases hs
        exact .short hj hlt
      · cases hs
        exact .again hj
  · next hj =>
    split at hs
    · next hb =>
      cases hs
      obtain ⟨f, hf, -, -, rfl, rfl⟩ := beginWrite_ok hb
      exact .copy hj hf
    · next hb =>
      cases hs
      exact .skip hj hb
  · next hj =>
    cases hs
    exact .write hj
  · next hj =>
    cases hs
    exact .control hj
  · cases hs
  · next hj =>
    cases hs
    exact .single hj

inductive PoolStep (s : Pool) : PoolAction → Pool → Prop
  | allocate (hn : s.frames.lookup s.nextPageId = none) :
      PoolStep s .allocate
        ({ s with nextPageId := s.nextPageId + 1 }.setFrame s.nextPageId ⟨⟨0, []⟩, true, false⟩)
  | load {pid : Nat} {page : PoolPage} (hn : s.frames.lookup pid = none)
      (hfile : s.file pid = some page) :
      PoolStep s (.load pid) (s.setFrame pid ⟨page, false, false⟩)
  | evict {pid : Nat} {f : PoolFrame} (hf : s.frames.lookup pid = some f)
      (hw : f.writeInProgress = false)
      (hclean : f.dirty = false) (hno : ∀ w p, s.writers.lookup w = some p → p.pid ≠ pid) :
      PoolStep s (.evict pid) { s with frames := s.frames.erase pid }
  | append {pid txId : Nat} {kind : WalRecordKind} {payload : WalPayload} {f : PoolFrame}
      {a : WalAppend} {wal : WalCoordinator}
      (hf : s.frames.lookup pid = some f) (hw : f.writeInProgress = false)
      (ha : s.wal.append kind txId payload = .ok (a, wal)) :
      PoolStep s (.append pid kind txId payload)
        ({ s with wal, nextChange := s.nextChange + 1, logged := ⟨pid, s.nextChange, a.startLsn⟩ ::
          s.logged }.setFrame pid
          { f with page := ⟨a.endLsn, s.nextChange :: f.page.changes⟩, dirty := true })
  | appendUnlogged {pid lsn : Nat} {f : PoolFrame} (hf : s.frames.lookup pid = some f)
      (hw : f.writeInProgress = false) :
      PoolStep s (.appendUnlogged pid lsn) ({ s with nextChange := s.nextChange + 1 }.setFrame pid
        { f with page := ⟨lsn, s.nextChange :: f.page.changes⟩, dirty := true })
  | modify {writer pid : Nat} {f : PoolFrame} (hf : s.frames.lookup pid = some f)
      (hw : f.writeInProgress = false)
      (hnew : s.writers.lookup writer = none) :
      PoolStep s (.modify writer pid) (({ s with nextChange := s.nextChange + 1 }.setFrame pid
        { f with page := { f.page with changes := s.nextChange :: f.page.changes } }).setWriter
          writer
          (.modified pid s.nextChange))
  | log {writer txId pid x : Nat} {kind : WalRecordKind} {payload : WalPayload} {a : WalAppend}
      {wal : WalCoordinator}
      (hmod : s.writers.lookup writer = some (.modified pid x))
      (ha : s.wal.append kind txId payload = .ok (a, wal)) :
      PoolStep s (.log writer kind txId payload)
        ({ s with wal, logged := ⟨pid, x, a.startLsn⟩ :: s.logged }.setWriter writer
          (.logged pid x a.endLsn))
  | markDirty {writer lsn pid l : Nat} {f : PoolFrame}
      (hm : s.markedPage writer lsn = some (pid, l))
      (hf : s.frames.lookup pid = some f) (hw : f.writeInProgress = false) :
      PoolStep s (.markDirty writer lsn)
        { s.setFrame pid { f with page := { f.page with pageLsn := l }, dirty := true } with
          writers := s.writers.erase writer }
  | abandon {writer pid x : Nat} (hmod : s.writers.lookup writer = some (.modified pid x)) :
      PoolStep s (.abandon writer) { s with writers := s.writers.erase writer }
  | writeLog {lsn d : Nat} {wal : WalCoordinator} (hle : lsn ≤ s.wal.reservedLsn)
      (hf : s.wal.flushUntil lsn = .ok (d, wal)) :
      PoolStep s (.writeLog lsn) { s with wal }
  | flushPage {job pid d : Nat} {f : PoolFrame} (hj : s.jobs.lookup job = none)
      (hf : s.frames.lookup pid = some f) :
      PoolStep s (.flushPage job pid d)
        ((s.setFrame pid { f with writeInProgress := true }).setJob job (.single pid f.page))
  | visit {job pid c : Nat} {start seen found : List Nat}
      (hj : s.jobs.lookup job = some (.collecting c start seen found)) :
      PoolStep s (.visit job pid) (s.setJob job
        (.collecting c start (pid :: seen)
          (if s.isDirtyFrame pid c then found ++ [pid] else found)))
  | flush {job : Nat} {s' : Pool} (hs : FlushStep s job s') : PoolStep s (.flush job) s'

theorem step_ok {a : PoolAction} (hs : s.step a = .ok s') : PoolStep s a s' := by
  cases a with
  | allocate =>
    simp only [Pool.step, Pool.allocate] at hs
    split at hs
    · cases hs
    · next hn =>
      cases hs
      exact .allocate hn
  | load pid =>
    simp only [Pool.step, Pool.load] at hs
    split at hs
    · next hn hfile =>
      cases hs
      exact .load hn hfile
    · cases hs
  | evict pid =>
    simp only [Pool.step, Pool.evict, bind_eq_ok, pure_eq_ok, mutableFrame_ok, require_eq_ok] at hs
    obtain ⟨f, ⟨hf, hw⟩, -, ⟨hclean, hno⟩, rfl⟩ := hs
    exact .evict hf hw hclean fun w p h => hno ⟨w, p⟩ (AList.mem_lookup_iff.1 h)
  | append pid kind tx payload =>
    simp only [Pool.step, Pool.append, bind_eq_ok, pure_eq_ok, mutableFrame_ok, Prod.exists] at hs
    obtain ⟨f, ⟨hf, hw⟩, a, wal, ha, rfl⟩ := hs
    exact .append hf hw ha
  | appendUnlogged pid lsn =>
    simp only [Pool.step, Pool.appendUnlogged, bind_eq_ok, pure_eq_ok, mutableFrame_ok] at hs
    obtain ⟨f, ⟨hf, hw⟩, rfl⟩ := hs
    exact .appendUnlogged hf hw
  | modify writer pid =>
    simp only [Pool.step, Pool.modify, bind_eq_ok, pure_eq_ok, mutableFrame_ok, require_eq_ok] at hs
    obtain ⟨f, ⟨hf, hw⟩, -, hnew, rfl⟩ := hs
    exact .modify hf hw hnew
  | log writer kind tx payload =>
    simp only [Pool.step, Pool.log] at hs
    split at hs
    · next hmod =>
      simp only [bind_eq_ok, pure_eq_ok, Prod.exists] at hs
      obtain ⟨a, wal, ha, rfl⟩ := hs
      exact .log hmod ha
    · cases hs
  | markDirty writer lsn =>
    simp only [Pool.step, Pool.markDirty] at hs
    split at hs
    · next hm =>
      simp only [bind_eq_ok, pure_eq_ok, mutableFrame_ok] at hs
      obtain ⟨f, ⟨hf, hw⟩, rfl⟩ := hs
      exact .markDirty hm hf hw
    · cases hs
  | abandon writer =>
    simp only [Pool.step, Pool.abandon] at hs
    split at hs
    · next hmod =>
      cases hs
      exact .abandon hmod
    · cases hs
  | writeLog lsn =>
    simp only [Pool.step, Pool.writeLog, bind_eq_ok, pure_eq_ok, require_eq_ok, Prod.exists] at hs
    obtain ⟨-, hle, d, wal, hf, rfl⟩ := hs
    exact .writeLog hle hf
  | flushPage job pid d =>
    simp only [Pool.step, Pool.flushPage] at hs
    split at hs
    · next hj hb =>
      cases hs
      obtain ⟨f, hf, -, -, rfl, rfl⟩ := beginWrite_ok hb
      exact .flushPage hj hf
    · cases hs
  | visit job pid =>
    simp only [Pool.step, Pool.visit] at hs
    split at hs
    · next hj =>
      simp only [bind_eq_ok, pure_eq_ok] at hs
      obtain ⟨-, -, rfl⟩ := hs
      exact .visit hj
    · cases hs
  | flush job => exact .flush (flush_ok hs)

end Pool
end RedlineDb
