import RedlineDb.BufferPool

/-!
# Page guards and the frames they refer to

The buffer pool once more, now with the frames as objects of their own: a shard map from pages to
frames, and pins, guards, flushers and evictions that keep a frame between two critical sections. A
call of `pin` looks the frame up under the shard's lock and counts itself under the frame's; a frame
to be loaded is put in the map first and filled later. Whether there is room is not looked at: an
eviction may come at any time, so every capacity is covered. `history` is what was done to each page
through any guard.

Between the lookup and the count an eviction may take the frame out of the map
(`guard_of_evicted_frame`); when it does not, and flushers and guards behave, see `guards_current`.
-/

namespace RedlineDb
open Lib Function

structure FrameEntry where
  pageId : Nat
  page : Option PoolPage
  pinCount : Nat
  dirty : Bool
  writeInProgress : Bool
  loadFailed : Bool

/-- A call under way, with the frame it keeps: `allocate` with its page id; `pin` that found a
frame, that has put its own in the map, that has read the page; a guard, and whether it has changed
the page since its last `mark_dirty`; a flusher with its copy, before and after the write. -/
inductive PageCall
  | allocating (page : Nat)
  | found (page frame : Nat)
  | loading (page frame : Nat)
  | loaded (page frame : Nat) (image : PoolPage)
  | guard (page frame : Nat) (unmarked : Bool)
  | flushing (frame : Nat) (image : PoolPage)
  | wrote (frame : Nat) (image : PoolPage) (ok : Bool)
deriving DecidableEq

namespace PageCall

def pinned? : PageCall → Option Nat
  | loading _ frame | loaded _ frame _ | guard _ frame _ => some frame
  | _ => none

inductive Task
  | allocate (page : Nat)
  | load (frame : Nat)
  | flush (frame : Nat)

def task? : PageCall → Option Task
  | allocating page => some (.allocate page)
  | loading _ frame | loaded _ frame _ => some (.load frame)
  | flushing frame _ | wrote frame _ _ => some (.flush frame)
  | found .. | guard .. => none

def frame? : PageCall → Option Nat
  | allocating _ => none
  | found _ frame | loading _ frame | loaded _ frame _ | guard _ frame _ | flushing frame _
  | wrote frame _ _ => some frame

variable {c : PageCall} {frame : Nat}

theorem frame?_of_pinned (h : c.pinned? = some frame) : c.frame? = some frame := by
  cases c with
  | loading | loaded | guard => exact h
  | _ => cases h

theorem frame?_of_loads (h : c.task? = some (.load frame)) : c.frame? = some frame := by
  cases c with
  | loading | loaded => exact congrArg some (Task.load.inj (Option.some.inj h))
  | _ => cases h

theorem frame?_of_flushes (h : c.task? = some (.flush frame)) : c.frame? = some frame := by
  cases c with
  | flushing | wrote => exact congrArg some (Task.flush.inj (Option.some.inj h))
  | _ => cases h

end PageCall

structure GuardedPool where
  file : Nat → Option PoolPage
  nextPageId : Nat
  map : Nat → Option Nat
  frames : Nat → FrameEntry
  nextFrame : Nat
  calls : AList (fun _ : Nat => PageCall)
  history : Nat → List Nat

inductive GuardAction
  /-- `allocate` takes a page id. -/
  | reserve (call : Nat)
  | insertNew (call : Nat)
  /-- `pin` finds a frame in the map. -/
  | lookup (call page : Nat)
  /-- `pin` counts itself, or starts again when the load has failed. -/
  | count (call : Nat)
  /-- `pin` puts a frame to be loaded in the map. -/
  | load (call page : Nat)
  /-- The page is read, or the read fails and the frame is taken out of the map. -/
  | readPage (call : Nat) (ok : Bool)
  | install (call : Nat)
  | mutate (call change : Nat)
  | markDirty (call lsn : Nat)
  | drop (call : Nat)
  | startFlush (call frame durableLsn : Nat)
  /-- The copy is written, or something else is left in the file. -/
  | writePage (call : Nat) (failed : Option (Option PoolPage))
  | finishFlush (call : Nat)
  /-- `remove_frame_if_unpinned`. -/
  | remove (page frame : Nat)

namespace GuardedPool

def openFile (file : Nat → Option PoolPage) (pageCount : Nat) : GuardedPool where
  file := fun page => if page ≤ pageCount then file page else none
  nextPageId := pageCount + 1
  map := fun _ => none
  frames := fun _ => ⟨0, none, 0, false, false, false⟩
  nextFrame := 0
  calls := ∅
  history := fun page => if page ≤ pageCount then ((file page).map PoolPage.changes).getD [] else []

variable (s : GuardedPool)

def setCall (call : Nat) (c : PageCall) : GuardedPool := { s with calls := s.calls.insert call c }

def endCall (call : Nat) : GuardedPool := { s with calls := s.calls.erase call }

def setFrame (frame : Nat) (f : FrameEntry) : GuardedPool :=
  { s with frames := update s.frames frame f }

def addFrame (page : Nat) (f : FrameEntry) : GuardedPool :=
  { s.setFrame s.nextFrame f with
    nextFrame := s.nextFrame + 1, map := update s.map page (some s.nextFrame) }

def reserve (call : Nat) : Except Error GuardedPool := do
  require (s.calls.lookup call = none) .writeConflict
  return { s with nextPageId := s.nextPageId + 1 }.setCall call (.allocating s.nextPageId)

/-- `insert_new_frame`: a frame that was there is replaced, and the call fails. -/
def insertNew (call : Nat) : Except Error GuardedPool :=
  match s.calls.lookup call with
  | some (.allocating page) =>
    let s' := s.addFrame page ⟨page, some ⟨0, []⟩, 1, true, false, false⟩
    match s.map page with
    | none => .ok (s'.setCall call (.guard page s.nextFrame false))
    | some _ => .ok (s'.endCall call)
  | _ => .error .writeConflict

def lookup (s : GuardedPool) (call page : Nat) : Except Error GuardedPool := do
  require (s.calls.lookup call = none) .writeConflict
  match s.map page with
  | some frame => return s.setCall call (.found page frame)
  | none => .error .io

def count (call : Nat) : Except Error GuardedPool :=
  match s.calls.lookup call with
  | some (.found page frame) =>
    let f := s.frames frame
    if f.loadFailed then .ok (s.endCall call)
    else if f.page = none then .error .lockTimeout
    else .ok ((s.setFrame frame { f with pinCount := f.pinCount + 1 }).setCall call
      (.guard page frame false))
  | _ => .error .writeConflict

def load (call page : Nat) : Except Error GuardedPool := do
  require (s.calls.lookup call = none ∧ s.map page = none) .writeConflict
  return (s.addFrame page ⟨page, none, 1, false, false, false⟩).setCall call
    (.loading page s.nextFrame)

def removeLoading (page frame : Nat) : GuardedPool :=
  if s.map page = some frame then
    { s.setFrame frame { s.frames frame with loadFailed := true } with
      map := update s.map page none }
  else s

def readPage (call : Nat) (ok : Bool) : Except Error GuardedPool :=
  match s.calls.lookup call with
  | some (.loading page frame) =>
    match s.file page with
    | some image =>
      if ok then .ok (s.setCall call (.loaded page frame image))
        else .ok ((s.removeLoading page frame).endCall call)
    | none => .ok ((s.removeLoading page frame).endCall call)
  | _ => .error .writeConflict

def install (call : Nat) : Except Error GuardedPool :=
  match s.calls.lookup call with
  | some (.loaded page frame image) =>
    .ok ((s.setFrame frame { s.frames frame with page := some image }).setCall call
      (.guard page frame false))
  | _ => .error .writeConflict

/-- `mutable_frame`: waits for a write that is in progress. -/
def mutableFrame (frame : Nat) : Except Error PoolPage := do
  require ((s.frames frame).writeInProgress = false) .lockTimeout
  match (s.frames frame).page with
  | some page => return page
  | none => .error (.corruptPage "resident frame missing page")

def mutate (call change : Nat) : Except Error GuardedPool :=
  match s.calls.lookup call with
  | some (.guard page frame _) => do
    let p ← s.mutableFrame frame
    let s := s.setFrame frame
      { s.frames frame with page := some { p with changes := change :: p.changes } }
    return { s with history := update s.history page (change :: s.history page) }.setCall call
      (.guard page frame true)
  | _ => .error .writeConflict

def markDirty (call lsn : Nat) : Except Error GuardedPool :=
  match s.calls.lookup call with
  | some (.guard page frame _) => do
    let p ← s.mutableFrame frame
    return (s.setFrame frame { s.frames frame with
      page := some { p with pageLsn := lsn }, dirty := true }).setCall call
      (.guard page frame false)
  | _ => .error .writeConflict

def drop (call : Nat) : Except Error GuardedPool :=
  match s.calls.lookup call with
  | some (.guard _ frame _) =>
    .ok ((s.setFrame frame
      { s.frames frame with pinCount := (s.frames frame).pinCount - 1 }).endCall call)
  | _ => .error .writeConflict

/-- `flush_frame_checked` up to the write, on any frame there ever was. -/
def startFlush (call frame durableLsn : Nat) : Except Error GuardedPool := do
  require (s.calls.lookup call = none ∧ frame < s.nextFrame) .writeConflict
  match (s.frames frame).page with
  | some page =>
    require ((s.frames frame).dirty = true ∧ page.pageLsn ≤ durableLsn) .io
    return (s.setFrame frame { s.frames frame with writeInProgress := true }).setCall call
      (.flushing frame page)
  | none => .error .lockTimeout

def writePage (call : Nat) (failed : Option (Option PoolPage)) : Except Error GuardedPool :=
  match s.calls.lookup call with
  | some (.flushing frame image) =>
    .ok ({ s with file := update s.file (s.frames frame).pageId (failed.getD (some image)) }.setCall
      call
      (.wrote frame image failed.isNone))
  | _ => .error .writeConflict

def finishFlush (call : Nat) : Except Error GuardedPool :=
  match s.calls.lookup call with
  | some (.wrote frame image ok) =>
    let f := s.frames frame
    let written := ok && f.page.any fun p => decide (p.pageLsn ≤ image.pageLsn)
    .ok ((s.setFrame frame { f with writeInProgress := false, dirty := f.dirty &&
      !written }).endCall call)
  | _ => .error .writeConflict

def remove (page frame : Nat) : Except Error GuardedPool := do
  let f := s.frames frame
  require (s.map page = some frame ∧ f.pinCount = 0 ∧ f.dirty = false ∧ f.writeInProgress = false ∧
    f.page ≠ none)
    (.corruptPage "no unpinned frame available for eviction")
  return { s with map := update s.map page none }

def step : GuardAction → Except Error GuardedPool
  | .reserve call => s.reserve call
  | .insertNew call => s.insertNew call
  | .lookup call page => s.lookup call page
  | .count call => s.count call
  | .load call page => s.load call page
  | .readPage call ok => s.readPage call ok
  | .install call => s.install call
  | .mutate call change => s.mutate call change
  | .markDirty call lsn => s.markDirty call lsn
  | .drop call => s.drop call
  | .startFlush call frame durableLsn => s.startFlush call frame durableLsn
  | .writePage call failed => s.writePage call failed
  | .finishFlush call => s.finishFlush call
  | .remove page frame => s.remove page frame

/-- An eviction leaves alone a frame that a `pin` has looked up and not counted itself on; a flusher
does not begin on a frame that is being written; a guard that has changed its page is not dropped
before `mark_dirty`; and nobody pins a page before `allocate` has put it in the map. -/
def Careful : GuardAction → Prop
  | .remove page frame => ∀ e ∈ s.calls.entries, e.2 ≠ .found page frame
  | .startFlush _ frame _ => (s.frames frame).writeInProgress = false
  | .drop call =>
    match s.calls.lookup call with
    | some (.guard _ _ unmarked) => unmarked = false
    | _ => True
  | .insertNew call =>
    match s.calls.lookup call with
    | some (.allocating page) => s.map page = none
    | _ => True
  | _ => True

instance (s : GuardedPool) (a : GuardAction) : Decidable (s.Careful a) := by
  unfold Careful
  repeat' split
  all_goals infer_instance

def onDisk (page : Nat) : List Nat := ((s.file page).map PoolPage.changes).getD []

def Known (page : Nat) : Prop :=
  page < s.nextPageId ∧ ∀ call, s.calls.lookup call ≠ some (.allocating page)

def CallOk : PageCall → Prop
  | .allocating page => page < s.nextPageId
  | .found page frame => s.map page = some frame ∨ (s.frames frame).loadFailed = true
  | .loading page frame => s.map page = some frame ∧ (s.frames frame).page = none
  | .loaded page frame image =>
    s.map page = some frame ∧ (s.frames frame).page = none ∧ image.changes = s.history page ∧
      s.Known page
  | .guard page frame _ => s.map page = some frame ∧ (s.frames frame).page ≠ none
  | .flushing frame image => (s.frames frame).writeInProgress = true ∧
      (s.frames frame).dirty = true ∧
      (s.frames frame).page = some image
  | .wrote frame image ok => (s.frames frame).writeInProgress = true ∧
      (s.frames frame).dirty = true ∧
      (s.frames frame).page = some image ∧ (ok = true → s.file (s.frames frame).pageId = some image)

structure FrameOk (s : GuardedPool) (page frame : Nat) : Prop where
  pageId : (s.frames frame).pageId = page
  fresh : frame < s.nextFrame
  ready : (s.frames frame).loadFailed = false
  empty : (s.frames frame).page = none → (s.frames frame).dirty = false ∧
    s.onDisk page = s.history page
  full : ∀ image, (s.frames frame).page = some image → image.changes = s.history page ∧ s.Known page
  clean : (s.frames frame).page ≠ none → (s.frames frame).dirty = true ∨
    s.onDisk page = s.history page ∨
    ∃ call, s.calls.lookup call = some (.guard page frame true)

def Exclusive : Prop := ∀ t t' c c' x, s.calls.lookup t = some c → s.calls.lookup t' = some c' →
  c.task? = some x → c'.task? = some x → t = t'

def Counted (frame : Nat) : Prop :=
  ∃ holders : List Nat, holders.length ≤ (s.frames frame).pinCount ∧
    ∀ t c, s.calls.lookup t = some c → c.pinned? = some frame → t ∈ holders

abbrev Was {α : Type} (o : Option PageCall) (p : PageCall → Option α) (x : α) : Prop :=
  ∃ c, o = some c ∧ p c = some x

/-- A call that was at `o` and is now at `n` holds its pin on, takes one or gives it back. -/
def PinStep (o n : Option PageCall) (frame k k' : Nat) : Prop :=
  (k ≤ k' ∧ ∀ c, n = some c → c.pinned? = some frame → Was o PageCall.pinned? frame) ∨
    k + 1 ≤ k' ∨ (k - 1 ≤ k' ∧ n = none ∧ Was o PageCall.pinned? frame)

structure Inv (s : GuardedPool) : Prop where
  call : ∀ call c, s.calls.lookup call = some c → s.CallOk c ∧ ∀ frame ∈ c.frame?,
    frame < s.nextFrame
  mapped : ∀ page frame, s.map page = some frame → s.FrameOk page frame
  unmapped : ∀ page, s.map page = none → s.onDisk page = s.history page
  dirty : ∀ frame, (s.frames frame).dirty = true → s.map (s.frames frame).pageId = some frame
  unknown : ∀ page, ¬ s.Known page → s.file page = none ∧ s.history page = []
  unused : ∀ frame, s.nextFrame ≤ frame → (s.frames frame).pinCount = 0
  exclusive : s.Exclusive
  pins : ∀ frame, s.Counted frame

variable {s} {s' : GuardedPool} {call page frame : Nat}

theorem inv_openFile {file : Nat → Option PoolPage} {pageCount : Nat} :
    Inv (openFile file pageCount) where
  call := by simp [openFile]
  mapped := by simp [openFile]
  unmapped := by
    intro page _
    simp only [onDisk, openFile]
    split <;> rfl
  dirty := by simp [openFile]
  unknown := by
    intro page hp
    have hlt : ¬ page ≤ pageCount :=
      fun hle => hp ⟨by simp only [openFile]; omega, by simp [openFile]⟩
    simp [openFile, if_neg hlt]
  unused := by simp [openFile]
  exclusive := by simp [Exclusive, openFile]
  pins := by
    intro frame
    exact ⟨[], Nat.zero_le _, by simp [openFile]⟩

/-! ### One call moves on -/

variable {o n : Option PageCall}

structure Moves (s s' : GuardedPool) (call : Nat) (o n : Option PageCall) : Prop where
  old : s.calls.lookup call = o
  new : s'.calls.lookup call = n
  other : ∀ t, t ≠ call → s'.calls.lookup t = s.calls.lookup t

variable {c : PageCall} {t : Nat} {f' : FrameEntry} {calls : AList (fun _ : Nat => PageCall)}

theorem Moves.setCall (ho : s.calls.lookup call = o) (hc : s'.calls = s.calls.insert call c) :
    Moves s s' call o (some c) :=
  ⟨ho, by rw [hc, AList.lookup_insert], fun t ht => by rw [hc, AList.lookup_insert_ne ht]⟩

theorem Moves.endCall (ho : s.calls.lookup call = o) (hc : s'.calls = s.calls.erase call) :
    Moves s s' call o none :=
  ⟨ho, by rw [hc, AList.lookup_erase], fun t ht => by rw [hc, AList.lookup_erase_ne ht]⟩

section
variable (h : Moves s s' call o n)
include h

theorem Moves.cases (ht : s'.calls.lookup t = some c) :
    (t = call ∧ n = some c) ∨ (t ≠ call ∧ s.calls.lookup t = some c) := by
  by_cases heq : t = call
  · subst heq
    exact .inl ⟨rfl, h.new.symm.trans ht⟩
  · exact .inr ⟨heq, (h.other t heq).symm.trans ht⟩

theorem Moves.exclusive (he : s.Exclusive) (hn : ∀ c x, n = some c → c.task? = some x →
      Was o PageCall.task? x ∨ ∀ t c', s.calls.lookup t = some c' → c'.task? ≠ some x) :
        s'.Exclusive := by
  have hone : ∀ {t c c' x}, n = some c → t ≠ call → s.calls.lookup t = some c' → c.task? = some x →
      c'.task? ≠ some x := by
    intro t c c' x hc hne ht hp hp'
    rcases hn c x hc hp with ⟨c₀, ho, hp₀⟩ | hno
    · exact hne (he t call c' c₀ x ht (h.old.trans ho) hp' hp₀)
    · exact hno t c' ht hp'
  intro t t' c c' x ht ht' hp hp'
  rcases h.cases ht with ⟨h1, h2⟩ | ⟨h1, h2⟩ <;> rcases h.cases ht' with ⟨h1', h2'⟩ | ⟨h1', h2'⟩
  · rw [h1, h1']
  · exact absurd hp' (hone h2 h1' h2' hp)
  · exact absurd hp (hone h2' h1 h2 hp')
  · exact he t t' c c' x h2 h2' hp hp'

theorem Moves.pins (hp : s.Counted frame)
    (hc : PinStep o n frame (s.frames frame).pinCount (s'.frames frame).pinCount) :
    s'.Counted frame := by
  obtain ⟨l, hl, hmem⟩ := hp
  rcases hc with ⟨hle, hkeep⟩ | hle | ⟨hle, rfl, c₀, ho, hp₀⟩
  · refine ⟨l, by omega, fun t c ht hpin => ?_⟩
    rcases h.cases ht with ⟨rfl, hn⟩ | ⟨-, ht⟩
    · obtain ⟨c', ho, hpin'⟩ := hkeep c hn hpin
      exact hmem t c' (h.old.trans ho) hpin'
    · exact hmem t c ht hpin
  · refine ⟨call :: l, by simp only [List.length_cons]; omega, fun t c ht hpin => ?_⟩
    rcases h.cases ht with ⟨rfl, -⟩ | ⟨-, ht⟩
    · exact List.mem_cons_self
    · exact List.mem_cons_of_mem _ (hmem t c ht hpin)
  · have hin : call ∈ l := hmem call c₀ (h.old.trans ho) hp₀
    refine ⟨l.erase call, by rw [List.length_erase_of_mem hin]; omega, fun t c ht hpin => ?_⟩
    rcases h.cases ht with ⟨-, hn⟩ | ⟨hne, ht⟩
    · cases hn
    · exact (List.mem_erase_of_ne hne).2 (hmem t c ht hpin)

theorem Moves.known_iff (hnext : s'.nextPageId = s.nextPageId)
    (ho : ∀ c, o = some c → c.frame? ≠ none) (hn : ∀ c, n = some c → c.frame? ≠ none) :
    s'.Known page ↔ s.Known page := by
  unfold Known
  rw [hnext]
  refine and_congr Iff.rfl ⟨fun hk t ht => ?_, fun hk t ht => ?_⟩
  · by_cases heq : t = call
    · subst heq
      exact ho _ (h.old.symm.trans ht) rfl
    · exact hk t ((h.other t heq).trans ht)
  · rcases h.cases ht with ⟨-, ht⟩ | ⟨-, ht⟩
    · exact hn _ ht rfl
    · exact hk t ht

end

structure SameFrame (f f' : FrameEntry) : Prop where
  pageId : f'.pageId = f.pageId
  page : f'.page = f.page
  dirty : f'.dirty = f.dirty
  writeInProgress : f'.writeInProgress = f.writeInProgress
  loadFailed : f'.loadFailed = f.loadFailed

theorem SameFrame.refl (f : FrameEntry) : SameFrame f f := ⟨rfl, rfl, rfl, rfl, rfl⟩

theorem CallOk.mono (h : s.CallOk c) (hnext : s.nextPageId ≤ s'.nextPageId)
    (hknown : ∀ page, s.Known page → s'.Known page)
    (hmap : ∀ frame ∈ c.frame?, ∀ page, s.map page = some frame → s'.map page = some frame)
    (hframe : ∀ frame ∈ c.frame?, SameFrame (s.frames frame) (s'.frames frame))
    (hhist : ∀ frame, c.task? = some (.load frame) → ∀ page, s.map page = some frame →
      s'.history page = s.history page)
    (hfile : ∀ frame, c.task? = some (.flush frame) →
      s'.file (s.frames frame).pageId = s.file (s.frames frame).pageId) : s'.CallOk c := by
  cases c with
  | allocating page => exact h.trans_le hnext
  | found page frame =>
    have hf := hframe frame rfl
    exact h.imp (hmap frame rfl page) fun hl => hf.loadFailed.trans hl
  | loading page frame => exact ⟨hmap frame rfl page h.1, (hframe frame rfl).page.trans h.2⟩
  | loaded page frame image =>
    obtain ⟨h1, h2, h3, h4⟩ := h
    exact ⟨hmap frame rfl page h1, (hframe frame rfl).page.trans h2,
      h3.trans (hhist frame rfl page h1).symm, hknown page h4⟩
  | guard page frame unmarked => exact ⟨hmap frame rfl page h.1, (hframe frame rfl).page ▸ h.2⟩
  | flushing frame image =>
    have hf := hframe frame rfl
    exact ⟨hf.writeInProgress.trans h.1, hf.dirty.trans h.2.1, hf.page.trans h.2.2⟩
  | wrote frame image ok =>
    have hf := hframe frame rfl
    obtain ⟨h1, h2, h3, h4⟩ := h
    refine ⟨hf.writeInProgress.trans h1, hf.dirty.trans h2, hf.page.trans h3, fun hok => ?_⟩
    rw [hf.pageId, hfile frame rfl]
    exact h4 hok

theorem FrameOk.mono (h : s.FrameOk page frame)
    (hframe : SameFrame (s.frames frame) (s'.frames frame))
    (hnext : s.nextFrame ≤ s'.nextFrame) (hdisk : s'.onDisk page = s.onDisk page)
    (hhist : s'.history page = s.history page)
    (hknown : s.Known page → s'.Known page)
    (hguard : ∀ t, s.calls.lookup t = some (.guard page frame true) →
      s'.calls.lookup t = some (.guard page frame true)) :
    s'.FrameOk page frame where
  pageId := hframe.pageId.trans h.pageId
  fresh := h.fresh.trans_le hnext
  ready := hframe.loadFailed.trans h.ready
  empty := by
    rw [hframe.page, hframe.dirty, hdisk, hhist]
    exact h.empty
  full := by
    rw [hframe.page, hhist]
    exact fun image hi => ⟨(h.full image hi).1, hknown (h.full image hi).2⟩
  clean := by
    rw [hframe.page, hframe.dirty, hdisk, hhist]
    intro hp
    rcases h.clean hp with hd | hd | ⟨t, ht⟩
    · exact .inl hd
    · exact .inr (.inl hd)
    · exact .inr (.inr ⟨t, hguard t ht⟩)

/-! ### One page and one frame change -/

structure Touches (s s' : GuardedPool) (page frame : Option Nat) : Prop where
  frames : ∀ g, g ∉ frame → s'.frames g = s.frames g
  map : ∀ q, q ∉ page → s'.map q = s.map q
  file : ∀ q, q ∉ page → s'.file q = s.file q
  history : ∀ q, q ∉ page → s'.history q = s.history q
  nextFrame : s.nextFrame ≤ s'.nextFrame
  nextPageId : s.nextPageId ≤ s'.nextPageId
  mapped : ∀ q g, s.map q = some g → (q ∈ page ↔ g ∈ frame)

theorem Inv.mapped_iff (hI : Inv s) (hm : s.map page = some frame) (q g : Nat)
    (hq : s.map q = some g) :
    q ∈ some page ↔ g ∈ some frame := by
  constructor
  · rintro ⟨⟩
    exact hm.symm.trans hq
  · rintro ⟨⟩
    exact congrArg some ((hI.mapped page frame hm).pageId.symm.trans (hI.mapped q frame hq).pageId)

theorem CallOk.writes (h : s.CallOk c) (hc : c.task? = some (.flush frame)) :
    (s.frames frame).writeInProgress = true ∧
    (s.frames frame).dirty = true ∧ (s.frames frame).page ≠ none := by
  cases c with
  | flushing g image =>
    cases hc
    exact ⟨h.1, h.2.1, by simp [h.2.2]⟩
  | wrote g image ok =>
    cases hc
    exact ⟨h.1, h.2.1, by simp [h.2.2.1]⟩
  | _ => cases hc

theorem CallOk.fills (h : s.CallOk c) (hc : c.task? = some (.load frame)) :
    (s.frames frame).page = none := by
  cases c with
  | loading =>
    cases hc
    exact h.2
  | loaded =>
    cases hc
    exact h.2.1
  | _ => cases hc

section
variable (hI : Inv s)
include hI

theorem Inv.update (h : Moves s s' call o n) {page frame : Option Nat}
    (ht : Touches s s' page frame)
    (hknown : ∀ q, s.Known q → s'.Known q)
    (hguard : ∀ t q g, q ∉ page → s.calls.lookup t = some (.guard q g true) →
      s'.calls.lookup t = some (.guard q g true))
    (hn : ∀ c, n = some c → s.calls.lookup call = some c ∧ (∀ g ∈ frame, c.frame? ≠ some g) ∨
      s'.CallOk c ∧ ∀ g ∈ c.frame?, g < s'.nextFrame)
    (hother : ∀ g ∈ frame, ∀ t c, t ≠ call → s.calls.lookup t = some c → c.frame? = some g →
      s'.CallOk c)
    (hpage : ∀ q ∈ page, (∀ g, s'.map q = some g → s'.FrameOk q g) ∧
      (s'.map q = none → s'.onDisk q = s'.history q) ∧
      (¬ s'.Known q → s'.file q = none ∧ s'.history q = []))
    (hframe : ∀ g ∈ frame, g < s'.nextFrame ∧
      ((s'.frames g).dirty = true → s'.map (s'.frames g).pageId = some g))
    (hexcl : s'.Exclusive)
    (hpin : ∀ g, g ∉ frame → ∀ c, n = some c → c.pinned? = some g → Was o PageCall.pinned? g)
    (hcount : ∀ g ∈ frame, PinStep o n g (s.frames g).pinCount (s'.frames g).pinCount) :
    Inv s' := by
  have hmap : ∀ {q g}, g ∉ frame → s.map q = some g → s'.map q = some g := fun hg hq =>
    (ht.map _ (mt (ht.mapped _ _ hq).1 hg)).trans hq
  have hkeep : ∀ {t c}, s.calls.lookup t = some c → (∀ g ∈ frame, c.frame? ≠ some g) →
      s'.CallOk c ∧ ∀ g ∈ c.frame?, g < s'.nextFrame := by
    intro t c htc hcf
    obtain ⟨hok, hlt⟩ := hI.call t c htc
    have hg : ∀ {g}, c.frame? = some g → g ∉ frame := fun hg hgf => hcf _ hgf hg
    refine ⟨hok.mono ht.nextPageId hknown (fun g hgc q => hmap (hg hgc)) (fun g hgc => ?_)
      (fun g hgc q hq => ?_)
      fun g hgc => ?_, fun g hg => (hlt g hg).trans_le ht.nextFrame⟩
    · rw [ht.frames g (hg hgc)]
      exact .refl _
    · exact ht.history q (mt (ht.mapped q g hq).1 (hg (PageCall.frame?_of_loads hgc)))
    · -- a frame that is being written is dirty, so its page is mapped
      have hq := hI.dirty g (hok.writes hgc).2.1
      exact ht.file _ (mt (ht.mapped _ g hq).1 (hg (PageCall.frame?_of_flushes hgc)))
  refine ⟨?_, ?_, ?_, ?_, ?_, ?_, hexcl, fun g => h.pins (hI.pins g) ?_⟩
  · intro t c htc
    rcases h.cases htc with ⟨-, hc⟩ | ⟨hne, htc⟩
    · rcases hn c hc with ⟨hold, hcf⟩ | hnew
      · exact hkeep hold hcf
      · exact hnew
    · by_cases hcf : ∃ g ∈ frame, c.frame? = some g
      · obtain ⟨g, hg, hcf⟩ := hcf
        exact ⟨hother g hg t c hne htc hcf,
          fun g hg => ((hI.call t c htc).2 g hg).trans_le ht.nextFrame⟩
      · exact hkeep htc fun g hg hc => hcf ⟨g, hg, hc⟩
  · intro q g hq
    by_cases hqp : q ∈ page
    · exact (hpage q hqp).1 g hq
    · rw [ht.map q hqp] at hq
      refine (hI.mapped q g hq).mono ?_ ht.nextFrame ?_ (ht.history q hqp) (hknown q) fun t =>
        hguard t q g hqp
      · rw [ht.frames g (mt (ht.mapped q g hq).2 hqp)]
        exact .refl _
      · rw [onDisk, onDisk, ht.file q hqp]
  · intro q hq
    by_cases hqp : q ∈ page
    · exact (hpage q hqp).2.1 hq
    · rw [ht.map q hqp] at hq
      rw [onDisk, ht.file q hqp, ht.history q hqp]
      exact hI.unmapped q hq
  · intro g hg
    by_cases hgf : g ∈ frame
    · exact (hframe g hgf).2 hg
    · rw [ht.frames g hgf] at hg ⊢
      exact hmap hgf (hI.dirty g hg)
  · intro q hq
    by_cases hqp : q ∈ page
    · exact (hpage q hqp).2.2 hq
    · rw [ht.file q hqp, ht.history q hqp]
      exact hI.unknown q (mt (hknown q) hq)
  · intro g hg
    have hgf : g ∉ frame := fun hgf => absurd (hframe g hgf).1 (not_lt.2 hg)
    rw [ht.frames g hgf]
    exact hI.unused g (ht.nextFrame.trans hg)
  · by_cases hgf : g ∈ frame
    · exact hcount g hgf
    · exact .inl ⟨by rw [ht.frames g hgf], hpin g hgf⟩

/-! ### Steps that leave the frames alone -/

theorem Inv.phase (h : Moves s s' call o n)
    (hs : s' = { s with calls := s'.calls, nextPageId := s'.nextPageId })
    (hnext : s.nextPageId ≤ s'.nextPageId)
    (hknown : ∀ page, s.Known page → s'.Known page)
    (ho : ∀ page frame, o ≠ some (.guard page frame true))
    (htask : ∀ c x, n = some c → c.task? = some x → Was o PageCall.task? x ∨
      ∀ t c', s.calls.lookup t = some c' → c'.task? ≠ some x)
    (hpin : ∀ c x, n = some c → c.pinned? = some x → Was o PageCall.pinned? x)
    (hok : ∀ c, n = some c → s'.CallOk c ∧ ∀ frame ∈ c.frame?, frame < s.nextFrame) : Inv s' := by
  have ht : Touches s s' none none := by
    rw [hs]
    exact ⟨fun _ _ => rfl, fun _ _ => rfl, fun _ _ => rfl, fun _ _ => rfl, le_rfl, hnext, by simp⟩
  refine hI.update h ht hknown (fun t q g _ htg => ?_)
    (fun c hc => .inr ⟨(hok c hc).1, fun g hg => ?_⟩) (by simp)
    (by simp) (by simp) (h.exclusive hI.exclusive htask) (fun g _ c hc => hpin c g hc) (by simp)
  · rw [h.other t, htg]
    rintro rfl
    exact ho q g (h.old.symm.trans htg)
  · exact ((hok c hc).2 g hg).trans_le ht.nextFrame

theorem Inv.phase_of_known (h : Moves s s' call o n) (hs : s' = { s with calls := s'.calls })
    (ho : ∀ c, o = some c → c.frame? ≠ none ∧ ∀ page frame, c ≠ .guard page frame true)
    (hn : ∀ c, n = some c → c.frame? ≠ none ∧ (∀ x, c.task? = some x → Was o PageCall.task? x) ∧
      ∀ x, c.pinned? = some x → Was o PageCall.pinned? x)
    (hok : ∀ c, n = some c → s.CallOk c ∧ ∀ frame ∈ c.frame?, frame < s.nextFrame) : Inv s' := by
  have hknown : ∀ page, s.Known page → s'.Known page := fun page =>
    (h.known_iff (by rw [hs]) (fun c hc => (ho c hc).1) fun c hc => (hn c hc).1).2
  refine hI.phase h (by rw [hs]) (by rw [hs]) hknown ?_ (fun c x hc hx => .inl ((hn c hc).2.1 x hx))
    (fun c x hc => (hn c hc).2.2 x) fun c hc => ⟨?_, (hok c hc).2⟩
  · rintro page frame rfl
    exact (ho _ rfl).2 page frame rfl
  · refine (hok c hc).1.mono (by rw [hs]) hknown ?_ ?_ ?_ ?_ <;> rw [hs]
    · exact fun _ _ _ hm => hm
    · exact fun _ _ => .refl _
    · exact fun _ _ _ _ => rfl
    · exact fun _ _ => rfl

theorem Inv.lookup (hs : s.lookup call page = .ok s') : Inv s' := by
  simp only [GuardedPool.lookup, bind_eq_ok, require_eq_ok] at hs
  obtain ⟨-, hnone, hs⟩ := hs
  split at hs
  · next frame hm =>
    cases hs
    refine hI.phase_of_known (.setCall hnone rfl) rfl (by simp) ?_ ?_
    · rintro c ⟨⟩
      exact ⟨by simp [PageCall.frame?], by simp [PageCall.task?], by simp [PageCall.pinned?]⟩
    · rintro c ⟨⟩
      refine ⟨.inl hm, fun g hg => ?_⟩
      cases hg
      exact (hI.mapped page _ hm).fresh
  · cases hs

theorem Inv.read {image : PoolPage} (hc : s.calls.lookup call = some (.loading page frame))
    (hfile : s.file page = some image) : Inv (s.setCall call (.loaded page frame image)) := by
  obtain ⟨⟨hm, hnone⟩, hfresh⟩ := hI.call call _ hc
  have hf := hI.mapped page frame hm
  have hknown : s.Known page := by
    by_contra hno
    rw [(hI.unknown page hno).1] at hfile
    cases hfile
  refine hI.phase_of_known (.setCall hc rfl) rfl ?_ ?_ ?_
  · rintro c ⟨⟩
    exact ⟨nofun, by simp⟩
  · rintro c ⟨⟩
    exact ⟨nofun, fun x hx => ⟨_, rfl, hx⟩, fun x hx => ⟨_, rfl, hx⟩⟩
  · rintro c ⟨⟩
    refine ⟨⟨hm, hnone, ?_, hknown⟩, hfresh⟩
    rw [← (hf.empty hnone).2, onDisk, hfile]
    rfl

theorem Inv.reserve (hs : s.reserve call = .ok s') : Inv s' := by
  obtain ⟨hnone, rfl⟩ := guarded_eq_ok.1 hs
  generalize hs' :
    ({ s with nextPageId := s.nextPageId + 1 }.setCall call (.allocating s.nextPageId)) = s'
  have hsame : s' = { s with calls := s'.calls, nextPageId := s'.nextPageId } := by
    rw [← hs']
    rfl
  have hnext : s'.nextPageId = s.nextPageId + 1 := by rw [← hs']; rfl
  have h : Moves s s' call none (some (.allocating s.nextPageId)) :=
    .setCall hnone (by rw [← hs']; rfl)
  refine hI.phase h hsame (by omega) ?_ (by simp) ?_ ?_ ?_
  · rintro page ⟨hlt, hno⟩
    refine ⟨by omega, fun t ht => ?_⟩
    rcases h.cases ht with ⟨-, heq⟩ | ⟨-, ht⟩
    · cases heq
      exact lt_irrefl _ hlt
    · exact hno t ht
  · -- the new id was given out to nobody
    rintro c x ⟨⟩ ⟨⟩
    refine .inr fun t c' ht hx' => ?_
    cases c' with
    | allocating page =>
      cases hx'
      exact lt_irrefl _ (hI.call t _ ht).1
    | _ => cases hx'
  · rintro c x ⟨⟩ ⟨⟩
  · rintro c ⟨⟩
    refine ⟨?_, by simp [PageCall.frame?]⟩
    show s.nextPageId < s'.nextPageId
    omega

/-! ### Steps that change one frame -/

omit hI in
/-- A frame that was filled stays mapped and filled: all but its flushers and its loader rely on
nothing else. -/
theorem CallOk.filled (h : s.CallOk c) (hc : c.frame? = some frame)
    (hflush : c.task? ≠ some (.flush frame))
    (hload : c.task? ≠ some (.load frame)) (hmap : s'.map = s.map)
    (hpage : (s'.frames frame).page ≠ none)
    (hfail : (s'.frames frame).loadFailed = (s.frames frame).loadFailed) : s'.CallOk c := by
  cases c with
  | allocating page => cases hc
  | found page g =>
    cases hc
    simp only [CallOk, hmap, hfail]
    exact h
  | guard page g u =>
    cases hc
    exact ⟨hmap ▸ h.1, hpage⟩
  | loading | loaded =>
    cases hc
    exact absurd rfl hload
  | flushing | wrote =>
    cases hc
    exact absurd rfl hflush

variable {history : Nat → List Nat} {file : Nat → Option PoolPage} {image : PoolPage}

/-- One mapped frame changes, and the history of its page and the file's copy at most. -/
theorem Inv.atFrame
    (hs : s' = { s with frames := Function.update s.frames frame f', calls, history, file })
    (h : Moves s s' call o n) (hm : s.map page = some frame)
    (ho : ∀ c, o = some c → c.frame? = some frame)
    (hn : ∀ c, n = some c → c.frame? = some frame ∧ s'.CallOk c)
    (hpage : ∀ q, q ≠ page → history q = s.history q ∧ file q = s.file q)
    (hknown : s.Known page ∨ history page = s.history page ∧ file page = s.file page)
    (hok : (∀ q, s'.Known q ↔ s.Known q) → s'.FrameOk page frame)
    (hother : ∀ t c, t ≠ call → s.calls.lookup t = some c → c.frame? = some frame → s'.CallOk c)
    (htask : ∀ c x, n = some c → c.task? = some x → Was o PageCall.task? x ∨
      ∀ t c', s.calls.lookup t = some c' → c'.task? ≠ some x)
    (hpin : PinStep o n frame (s.frames frame).pinCount f'.pinCount) : Inv s' := by
  have hiff : ∀ q, s'.Known q ↔ s.Known q := fun q =>
    h.known_iff (by rw [hs]) (fun c hc => by simp [ho c hc]) fun c hc => by simp [(hn c hc).1]
  have hself : s'.frames frame = f' := by
    rw [hs]
    exact update_self _ _ _
  have hmap : s'.map page = some frame := by
    rw [hs]
    exact hm
  have hfok : s'.FrameOk page frame := hok hiff
  have ht : Touches s s' (some page) (some frame) := by
    rw [hs]
    exact ⟨fun g hg => update_of_ne (fun he => hg (congrArg some he.symm)) _ _, fun _ _ => rfl,
      fun q hq => (hpage q fun he => hq (congrArg some he.symm)).2,
      fun q hq => (hpage q fun he => hq (congrArg some he.symm)).1, le_rfl, le_rfl,
        hI.mapped_iff hm⟩
  refine hI.update h ht (fun q => (hiff q).2) (fun t q g hqp htg => ?_)
    (fun c hc => .inr ⟨(hn c hc).2, fun g hg => ?_⟩) ?_ ?_ ?_ (h.exclusive hI.exclusive htask) ?_ ?_
  · rw [h.other t, htg]
    rintro rfl
    obtain ⟨⟨hq, -⟩, -⟩ := hI.call t _ htg
    have hgf := ho _ (h.old.symm.trans htg)
    exact hqp ((hI.mapped_iff hm q g hq).2 hgf.symm)
  · rw [(hn c hc).1] at hg
    cases hg
    exact hfok.fresh
  · rintro g ⟨⟩
    exact hother
  · rintro q ⟨⟩
    refine ⟨fun g hg => ?_, fun hnone => ?_, fun hq => ?_⟩
    · obtain rfl := Option.some.inj (hmap.symm.trans hg)
      exact hfok
    · exact absurd (hmap.symm.trans hnone) (by simp)
    · have hno := mt (hiff page).2 hq
      obtain ⟨hhist, hfile⟩ := hknown.resolve_left hno
      rw [hs]
      exact ⟨hfile.trans (hI.unknown page hno).1, hhist.trans (hI.unknown page hno).2⟩
  · rintro g ⟨⟩
    exact ⟨hfok.fresh, fun _ => by rw [hfok.pageId]; exact hmap⟩
  · intro g hg c hc hx
    exact absurd ((hn c hc).1.symm.trans (PageCall.frame?_of_pinned hx)) hg
  · rintro g ⟨⟩
    rw [hself]
    exact hpin

theorem Inv.pinCount {k : Nat}
    (hs : s' = { s with
      frames := Function.update s.frames frame { s.frames frame with pinCount := k }, calls })
    (h : Moves s s' call o n) (hm : s.map page = some frame)
    (ho : ∀ c, o = some c → c.frame? = some frame)
    (hn : ∀ c, n = some c → c = .guard page frame false)
    (hpage : n = none ∨ (s.frames frame).page ≠ none)
    (hguard : ∀ t, s.calls.lookup t = some (.guard page frame true) →
      s'.calls.lookup t = some (.guard page frame true))
    (hpin : (s.frames frame).pinCount + 1 ≤ k ∨
      ((s.frames frame).pinCount - 1 ≤ k ∧ n = none ∧ Was o PageCall.pinned? frame)) : Inv s' := by
  have hsame : ∀ g, SameFrame (s.frames g) (s'.frames g) := by
    intro g
    rw [hs]
    by_cases hg : g = frame
    · subst hg
      simp only [update_self]
      exact ⟨rfl, rfl, rfl, rfl, rfl⟩
    · simp only [update_of_ne hg]
      exact .refl _
  refine hI.atFrame hs h hm ho ?_ (fun _ _ => ⟨rfl, rfl⟩) (.inr ⟨rfl, rfl⟩) ?_ ?_ ?_ (.inr hpin)
  · intro c hc
    obtain rfl := hn c hc
    refine ⟨rfl, by rw [hs]; exact hm, ?_⟩
    rw [(hsame frame).page]
    exact hpage.resolve_left (by rw [hc]; simp)
  · intro hknown
    exact (hI.mapped page frame hm).mono (hsame frame) (by rw [hs]) (by rw [onDisk, onDisk, hs])
      (by rw [hs])
      (hknown page).2 hguard
  · intro t c hne ht hcf
    have hknown : ∀ q, s.Known q → s'.Known q := fun q =>
      (h.known_iff (by rw [hs]) (fun c hc => by simp [ho c hc]) fun c hc => by
        simp [hn c hc, PageCall.frame?]).2
    refine (hI.call t c ht).1.mono (by rw [hs]) hknown ?_ (fun g _ => hsame g) ?_ ?_
    all_goals rw [hs]
    · exact fun _ _ _ hq => hq
    · exact fun _ _ _ _ => rfl
    · exact fun _ _ => rfl
  · intro c x hc hx
    obtain rfl := hn c hc
    cases hx

theorem Inv.count (hs : s.count call = .ok s') : Inv s' := by
  unfold GuardedPool.count at hs
  split at hs
  · next page frame hc =>
    obtain ⟨hok, -⟩ := hI.call call _ hc
    dsimp only at hs
    split at hs
    · cases hs
      refine hI.phase_of_known (.endCall hc rfl) rfl ?_ (by simp) (by simp)
      rintro c ⟨⟩
      exact ⟨nofun, by simp⟩
    · next hfail =>
      split at hs
      · cases hs
      · next hpage =>
        cases hs
        have hm : s.map page = some frame := hok.resolve_right (by simpa using hfail)
        refine hI.pinCount rfl (.setCall hc rfl) hm ?_ ?_ (.inr hpage) ?_ (.inl le_rfl)
        · rintro c ⟨⟩
          rfl
        · rintro c ⟨⟩
          rfl
        · intro t ht
          refine (AList.lookup_insert_ne ?_).trans ht
          rintro rfl
          rw [hc] at ht
          cases ht
  · cases hs

theorem Inv.drop (hcare : s.Careful (.drop call)) (hs : s.drop call = .ok s') : Inv s' := by
  unfold GuardedPool.drop at hs
  split at hs
  · next page frame u hc =>
    cases hs
    obtain ⟨⟨hm, hpage⟩, -⟩ := hI.call call _ hc
    have hu : u = false := by simpa only [Careful, hc] using hcare
    refine hI.pinCount rfl (.endCall hc rfl) hm ?_ (by simp) (.inl rfl) ?_
      (.inr ⟨le_rfl, rfl, _, rfl, rfl⟩)
    · rintro c ⟨⟩
      rfl
    · intro t ht
      refine (AList.lookup_erase_ne ?_).trans ht
      rintro rfl
      rw [hc, hu] at ht
      cases ht
  · cases hs

/-- A mapped frame is filled afterwards. The calls that neither write nor fill it rely on nothing
else. -/
theorem Inv.fill
    (hs : s' = { s with frames := Function.update s.frames frame f', calls, history, file })
    (h : Moves s s' call o n) (hm : s.map page = some frame) (hk : s.Known page)
    (ho : ∀ c, o = some c → c.frame? = some frame)
    (hn : ∀ c, n = some c → ((∀ x, c.task? = some x → x = .flush frame) ∧ c.frame? = some frame) ∧
      s'.CallOk c ∧
      (c.pinned? = some frame → Was o PageCall.pinned? frame))
    (hsame : f'.pageId = (s.frames frame).pageId ∧ f'.loadFailed = (s.frames frame).loadFailed ∧
      f'.pinCount = (s.frames frame).pinCount)
    (hpage : f'.page = some image) (hchanges : image.changes = history page)
    (hother : ∀ q, q ≠ page → history q = s.history q ∧ file q = s.file q)
    (hclean : f'.dirty = true ∨ s'.onDisk page = history page ∨
      calls.lookup call = some (.guard page frame true))
    (hidle : ∀ t c, t ≠ call → s.calls.lookup t = some c → c.task? ≠ some (.flush frame) ∧
      c.task? ≠ some (.load frame)) :
    Inv s' := by
  have hf := hI.mapped page frame hm
  have hself : s'.frames frame = f' := by
    rw [hs]
    exact update_self _ _ _
  have hfilled : (s'.frames frame).page ≠ none := by simp [hself, hpage]
  have hmap : s'.map = s.map ∧ s'.nextFrame = s.nextFrame ∧ s'.history = history ∧
      s'.calls = calls := by
    rw [hs]
    exact ⟨rfl, rfl, rfl, rfl⟩
  refine hI.atFrame hs h hm ho (fun c hc => ⟨(hn c hc).1.2, (hn c hc).2.1⟩) hother
    (.inl hk) ?_ ?_ ?_
    (.inl ⟨hsame.2.2.ge, fun c hc => (hn c hc).2.2⟩)
  · intro hknown
    refine ⟨by rw [hself, hsame.1, hf.pageId], by rw [hmap.2.1]; exact hf.fresh, by
      rw [hself, hsame.2.1, hf.ready],
      fun hnone => absurd hnone hfilled, fun image' hi => ?_, fun _ => ?_⟩
    · rw [hself, hpage] at hi
      cases hi
      exact ⟨by rw [hmap.2.2.1, hchanges], (hknown page).2 hk⟩
    · rw [hself, hmap.2.2.1, hmap.2.2.2]
      exact hclean.imp_right (Or.imp_right fun hg => ⟨call, hg⟩)
  · intro t c hne ht hcf
    exact (hI.call t c ht).1.filled hcf (hidle t c hne ht).1 (hidle t c hne ht).2 hmap.1 hfilled
      (by rw [hself, hsame.2.1])
  · -- whoever writes the frame was the call itself
    intro c x hc hx
    obtain rfl := (hn c hc).1.1 x hx
    by_cases hold : Was o PageCall.task? (.flush frame)
    · exact .inl hold
    · refine .inr fun t c' ht hx' => ?_
      by_cases htc : t = call
      · subst htc
        exact hold ⟨c', h.old.symm.trans ht, hx'⟩
      · exact (hidle t c' htc ht).1 hx'

theorem Inv.install (hs : s.install call = .ok s') : Inv s' := by
  unfold GuardedPool.install at hs
  split at hs
  · next page frame image hc =>
    cases hs
    obtain ⟨⟨hm, hnone, himg, hk⟩, -⟩ := hI.call call _ hc
    refine hI.fill rfl (.setCall hc rfl) hm hk ?_ ?_ ⟨rfl, rfl, rfl⟩ rfl himg
      (fun _ _ => ⟨rfl, rfl⟩) (.inr (.inl ?_)) ?_
    · rintro c ⟨⟩
      rfl
    · rintro c ⟨⟩
      exact ⟨⟨nofun, rfl⟩, ⟨hm, by simp [setCall, setFrame]⟩, fun _ => ⟨_, rfl, rfl⟩⟩
    · exact ((hI.mapped page frame hm).empty hnone).2
    · intro t c hne ht
      exact ⟨fun hfl => ((hI.call t c ht).1.writes hfl).2.2 hnone,
        fun hl => hne (hI.exclusive t call c _ _ ht hc hl rfl)⟩
  · cases hs

omit hI in
theorem mutableFrame_ok {p : PoolPage} (h : s.mutableFrame frame = .ok p) :
    (s.frames frame).writeInProgress = false ∧ (s.frames frame).page = some p := by
  simp only [GuardedPool.mutableFrame, bind_eq_ok, require_eq_ok] at h
  obtain ⟨-, hw, h⟩ := h
  split at h
  · next q hq =>
    cases h
    exact ⟨hw, hq⟩
  · cases h

theorem Inv.idle (hw : (s.frames frame).writeInProgress = false) (hp : (s.frames frame).page ≠ none)
    (t : Nat) (c : PageCall) (_ : t ≠ call) (ht : s.calls.lookup t = some c) :
    c.task? ≠ some (.flush frame) ∧ c.task? ≠ some (.load frame) :=
  ⟨fun hfl => absurd ((hI.call t c ht).1.writes hfl).1 (by simp [hw]),
    fun hl => hp ((hI.call t c ht).1.fills hl)⟩

theorem Inv.rewrite {u u' : Bool} {p p' : PoolPage} {dirty : Bool}
    (hc : s.calls.lookup call = some (.guard page frame u))
    (hw : (s.frames frame).writeInProgress = false)
    (hp : (s.frames frame).page = some p)
    (hs : s' = { s with
      frames := Function.update s.frames frame { s.frames frame with page := some p', dirty }
      calls := s.calls.insert call (.guard page frame u')
      history })
    (hhist : ∀ q, q ≠ page → history q = s.history q)
    (hp' : p.changes = s.history page → p'.changes = history page)
    (hclean : dirty = true ∨ u' = true) : Inv s' := by
  obtain ⟨⟨hm, hpage⟩, -⟩ := hI.call call _ hc
  obtain ⟨hchanges, hk⟩ := (hI.mapped page frame hm).full p hp
  refine hI.fill hs (.setCall hc (by rw [hs])) hm hk ?_ ?_ ⟨rfl, rfl, rfl⟩ rfl (hp' hchanges)
    (fun q hq => ⟨hhist q hq, rfl⟩) (hclean.imp_right fun hu => .inr ?_) (hI.idle hw hpage)
  · rintro c ⟨⟩
    rfl
  · rintro c ⟨⟩
    rw [hs]
    exact ⟨⟨nofun, rfl⟩, ⟨hm, by simp⟩, fun _ => ⟨_, rfl, rfl⟩⟩
  · rw [hu]
    exact AList.lookup_insert _

theorem Inv.mutate {change : Nat} (hs : s.mutate call change = .ok s') : Inv s' := by
  unfold GuardedPool.mutate at hs
  split at hs
  · next page frame u hc =>
    simp only [bind_eq_ok, pure_eq_ok] at hs
    obtain ⟨p, hp, rfl⟩ := hs
    obtain ⟨hw, hp⟩ := mutableFrame_ok hp
    refine hI.rewrite hc hw hp rfl (fun q hq => Function.update_of_ne hq _ _) (fun hchanges => ?_)
      (.inr rfl)
    simp only [setFrame, Function.update_self, hchanges]
  · cases hs

theorem Inv.markDirty {lsn : Nat} (hs : s.markDirty call lsn = .ok s') : Inv s' := by
  unfold GuardedPool.markDirty at hs
  split at hs
  · next page frame u hc =>
    simp only [bind_eq_ok, pure_eq_ok] at hs
    obtain ⟨p, hp, rfl⟩ := hs
    obtain ⟨hw, hp⟩ := mutableFrame_ok hp
    exact hI.rewrite hc hw hp rfl (fun _ _ => rfl) (fun hchanges => hchanges) (.inl rfl)
  · cases hs

theorem Inv.startFlush {durableLsn : Nat} (hcare : s.Careful (.startFlush call frame durableLsn))
    (hs : s.startFlush call frame durableLsn = .ok s') : Inv s' := by
  simp only [GuardedPool.startFlush, bind_eq_ok, require_eq_ok] at hs
  obtain ⟨-, ⟨hnone, hlt⟩, hs⟩ := hs
  split at hs
  · next p hp =>
    obtain ⟨⟨hdirty, -⟩, rfl⟩ := guarded_eq_ok.1 hs
    have hm := hI.dirty frame hdirty
    obtain ⟨hchanges, hk⟩ := (hI.mapped _ frame hm).full p hp
    refine hI.fill rfl (.setCall hnone rfl) hm hk (by simp) ?_ ⟨rfl, rfl, rfl⟩ hp hchanges
      (fun _ _ => ⟨rfl, rfl⟩)
      (.inl hdirty) (hI.idle hcare (by simp [hp]))
    rintro c ⟨⟩
    refine ⟨⟨by simp [PageCall.task?], rfl⟩, ?_, by simp [PageCall.pinned?]⟩
    simp [CallOk, setCall, setFrame, hdirty, hp]
  · cases hs

theorem Inv.flusher (hc : s.calls.lookup call = some c) (hfl : c.task? = some (.flush frame))
    (t : Nat)
    (c' : PageCall) (hne : t ≠ call) (ht : s.calls.lookup t = some c') :
    c'.task? ≠ some (.flush frame) ∧ c'.task? ≠ some (.load frame) :=
  ⟨fun hfl' => hne (hI.exclusive t call c' c _ ht hc hfl' hfl),
    fun hl => ((hI.call call c hc).1.writes hfl).2.2 ((hI.call t c' ht).1.fills hl)⟩

theorem Inv.finishFlush (hs : s.finishFlush call = .ok s') : Inv s' := by
  unfold GuardedPool.finishFlush at hs
  split at hs
  · next frame image ok hc =>
    dsimp only at hs
    generalize hd : ((s.frames frame).dirty &&
      !(ok && (s.frames frame).page.any fun p => decide (p.pageLsn ≤ image.pageLsn))) = d at hs
    cases hs
    obtain ⟨⟨hw, hdirty, hp, hfile⟩, -⟩ := hI.call call _ hc
    have hm := hI.dirty frame hdirty
    obtain ⟨hchanges, hk⟩ := (hI.mapped _ frame hm).full image hp
    refine hI.fill rfl (.endCall hc rfl) hm hk ?_ (by simp) ⟨rfl, rfl, rfl⟩ hp hchanges
      (fun _ _ => ⟨rfl, rfl⟩) ?_
      (hI.flusher hc rfl)
    · rintro c ⟨⟩
      rfl
    · -- still dirty, or what was written is all there is
      cases d with
      | true => exact .inl rfl
      | false =>
        have hok : ok = true := by
          simp only [hdirty, Bool.true_and, Bool.not_eq_eq_eq_not, Bool.not_false,
            Bool.and_eq_true] at hd
          exact hd.1
        refine .inr (.inl ?_)
        show s.onDisk _ = s.history _
        rw [onDisk, hfile hok]
        exact hchanges
  · cases hs

theorem Inv.writePage {failed : Option (Option PoolPage)} (hs : s.writePage call failed = .ok s') :
    Inv s' := by
  unfold GuardedPool.writePage at hs
  split at hs
  · next frame image hc =>
    cases hs
    obtain ⟨⟨hw, hdirty, hp⟩, -⟩ := hI.call call _ hc
    have hm := hI.dirty frame hdirty
    obtain ⟨hchanges, hk⟩ := (hI.mapped _ frame hm).full image hp
    have hsame : s.frames = Function.update s.frames frame (s.frames frame) :=
      (update_eq_self _ _).symm
    refine hI.fill (by rw [← hsame]; rfl) (.setCall hc rfl) hm hk ?_ ?_ ⟨rfl, rfl, rfl⟩ hp hchanges
      (fun q hq => ⟨rfl, update_of_ne hq _ _⟩) (.inl hdirty) (hI.flusher hc rfl)
    · rintro c ⟨⟩
      rfl
    · rintro c ⟨⟩
      refine ⟨⟨by simp [PageCall.task?], rfl⟩, ⟨hw, hdirty, hp, fun hok => ?_⟩, by
        simp [PageCall.pinned?]⟩
      show Function.update s.file _ _ (s.frames frame).pageId = some image
      rw [Function.update_self]
      exact congrArg (Option.getD · _) (Option.isNone_iff_eq_none.1 hok)
  · cases hs

theorem Inv.addFrame (hm : s.map page = none)
    (hs : s' = { s with
      frames := Function.update s.frames s.nextFrame f'
      nextFrame := s.nextFrame + 1
      map := Function.update s.map page (some s.nextFrame)
      calls := s.calls.insert call c })
    (h : Moves s s' call o (some c)) (hf : s'.FrameOk page s.nextFrame) (hpin : 1 ≤ f'.pinCount)
    (ho : ∀ c, o = some c → c.frame? = none) (hc : s'.CallOk c) (hcf : c.frame? = some s.nextFrame)
    (hk : ∀ x, c.task? = some x → x = .load s.nextFrame) (hknown : ∀ q, s.Known q → s'.Known q) :
    Inv s' := by
  have hself : s'.frames s.nextFrame = f' ∧ s'.map page = some s.nextFrame := by
    rw [hs]
    exact ⟨update_self _ _ _, update_self _ _ _⟩
  have hold : ∀ {t d}, s.calls.lookup t = some d → d.frame? ≠ some s.nextFrame :=
    fun ht hg => lt_irrefl _ ((hI.call _ _ ht).2 _ hg)
  have ht : Touches s s' (some page) (some s.nextFrame) := by
    rw [hs]
    refine ⟨fun g hg => update_of_ne (fun he => hg (congrArg some he.symm)) _ _,
      fun q hq => update_of_ne (fun he => hq (congrArg some he.symm)) _ _, fun _ _ => rfl,
        fun _ _ => rfl,
      Nat.le_succ _, le_rfl, fun q g hq => iff_of_false ?_ ?_⟩
    · rintro ⟨⟩
      exact absurd (hm.symm.trans hq) (by simp)
    · rintro ⟨⟩
      exact lt_irrefl _ (hI.mapped q _ hq).fresh
  refine hI.update h ht hknown (fun t q g _ htg => ?_) ?_ ?_ ?_ ?_ ?_ ?_ ?_
  · rw [h.other t, htg]
    rintro rfl
    cases ho _ (h.old.symm.trans htg)
  · rintro d ⟨⟩
    refine .inr ⟨hc, fun g hg => ?_⟩
    obtain rfl := Option.some.inj (hcf.symm.trans hg)
    exact hf.fresh
  · rintro g ⟨⟩ t d - ht hd
    exact absurd hd (hold ht)
  · rintro q ⟨⟩
    refine ⟨fun g hg => ?_, fun hnone => absurd (hself.2.symm.trans hnone) (by simp), fun hq => ?_⟩
    · obtain rfl := Option.some.inj (hself.2.symm.trans hg)
      exact hf
    · rw [hs]
      exact hI.unknown page (mt (hknown page) hq)
  · rintro g ⟨⟩
    exact ⟨hf.fresh, fun _ => by rw [hf.pageId]; exact hself.2⟩
  · -- the new frame is nobody else's
    refine h.exclusive hI.exclusive fun d x hd hx => .inr fun t d' ht hx' => hold ht ?_
    cases hd
    obtain rfl := hk x hx
    exact PageCall.frame?_of_loads hx'
  · rintro g hg d ⟨⟩ hx
    exact absurd (hcf.symm.trans (PageCall.frame?_of_pinned hx)) hg
  · rintro g ⟨⟩
    rw [hself.1, hI.unused _ le_rfl]
    exact .inr (.inl hpin)

omit hI in
@[simp] theorem frames_addFrame : ((s.addFrame page f').setCall call c).frames s.nextFrame = f' :=
  update_self _ _ _

theorem Inv.load (hs : s.load call page = .ok s') : Inv s' := by
  obtain ⟨⟨hnone, hm⟩, rfl⟩ := guarded_eq_ok.1 hs
  have h : Moves s ((s.addFrame page ⟨page, none, 1, false, false, false⟩).setCall call
      (.loading page s.nextFrame)) call none
      (some (.loading page s.nextFrame)) := .setCall hnone rfl
  refine hI.addFrame hm rfl h ?_ le_rfl (by simp) ⟨update_self _ _ _, ?_⟩ rfl
    (by simp [PageCall.task?]) fun q =>
    (h.known_iff rfl (by simp) (by rintro _ ⟨⟩; nofun)).2
  · refine ⟨?_, Nat.lt_succ_self _, ?_, fun _ => ⟨?_, hI.unmapped page hm⟩, ?_, ?_⟩ <;> simp
  · simp

theorem Inv.insertNew (hcare : s.Careful (.insertNew call)) (hs : s.insertNew call = .ok s') :
    Inv s' := by
  unfold GuardedPool.insertNew at hs
  split at hs
  · next page hc =>
    have hm : s.map page = none := by simpa only [Careful, hc] using hcare
    simp only [hm, Except.ok.injEq] at hs
    have h : Moves s s' call (some (.allocating page)) (some (.guard page s.nextFrame false)) :=
      .setCall hc (by rw [← hs]; rfl)
    have hnext : s'.nextPageId = s.nextPageId := by rw [← hs]; rfl
    -- the page's id is no longer being allocated
    have hnew : s'.Known page := by
      refine ⟨by rw [hnext]; exact (hI.call call _ hc).1, fun t ht => ?_⟩
      rcases h.cases ht with ⟨-, heq⟩ | ⟨hne, ht⟩
      · cases heq
      · exact hne (hI.exclusive t call _ _ _ ht hc rfl rfl)
    have hknown : ∀ q, s.Known q → s'.Known q := by
      rintro q ⟨hq, hno⟩
      refine ⟨by rw [hnext]; exact hq, fun t ht => ?_⟩
      rcases h.cases ht with ⟨-, heq⟩ | ⟨-, ht⟩
      · cases heq
      · exact hno t ht
    subst hs
    refine hI.addFrame hm rfl h ?_ le_rfl ?_ ⟨update_self _ _ _, ?_⟩ rfl nofun hknown
    · refine ⟨?_, Nat.lt_succ_self _, ?_, ?_, fun image hi => ⟨?_, hnew⟩, fun _ => .inl ?_⟩
      on_goal 4 =>
        obtain rfl : ⟨0, []⟩ = image := by simpa using hi
        exact (hI.unknown page fun hk => hk.2 call hc).2.symm
      all_goals simp
    · rintro d ⟨⟩
      rfl
    · simp
  · cases hs

/-- A frame goes out of the map. The calls that know it can do without, and the file has the page.
-/
theorem Inv.unmap (hm : s.map page = some frame)
    (hs : s' = { s with
      frames := Function.update s.frames frame f'
      map := Function.update s.map page none
      calls })
    (h : Moves s s' call o n) (hn : n = o ∨ n = none ∧ ∀ c, o = some c → c.frame? = some frame)
    (hcalls : ∀ t c, s'.calls.lookup t = some c → c.frame? = some frame → s'.CallOk c)
    (hdirty : f'.dirty = false) (hpin : f'.pinCount = (s.frames frame).pinCount)
    (hdisk : s.onDisk page = s.history page) :
    Inv s' := by
  have hself : s'.frames frame = f' ∧ s'.map page = none := by
    rw [hs]
    exact ⟨update_self _ _ _, update_self _ _ _⟩
  have hold : ∀ {c}, n = some c → o = some c := by
    intro c hc
    rcases hn with rfl | ⟨rfl, -⟩
    · exact hc
    · cases hc
  have hwas : ∀ {t c}, s'.calls.lookup t = some c → s.calls.lookup t = some c := by
    intro t c ht
    rcases h.cases ht with ⟨rfl, hc⟩ | ⟨-, ht⟩
    · exact h.old.trans (hold hc)
    · exact ht
  have hknown : ∀ q, s.Known q → s'.Known q :=
    fun q hq => ⟨by rw [hs]; exact hq.1, fun t ht => hq.2 t (hwas ht)⟩
  have ht : Touches s s' (some page) (some frame) := by
    rw [hs]
    exact ⟨fun g hg => update_of_ne (fun he => hg (congrArg some he.symm)) _ _,
      fun q hq => update_of_ne (fun he => hq (congrArg some he.symm)) _ _, fun _ _ => rfl,
        fun _ _ => rfl,
      le_rfl, le_rfl, hI.mapped_iff hm⟩
  refine hI.update h ht hknown (fun t q g hqp htg => ?_) (fun c hc => ?_) ?_ ?_ ?_
    (fun t t' c c' x ht ht' => hI.exclusive t t' c c' x (hwas ht) (hwas ht'))
    (fun g _ c hc hx => ⟨c, hold hc, hx⟩) ?_
  · by_cases htc : t = call
    · subst htc
      rcases hn with rfl | ⟨-, hframe⟩
      · rw [h.new, ← h.old]
        exact htg
      · obtain ⟨⟨hq, -⟩, -⟩ := hI.call t _ htg
        exact absurd ((hI.mapped_iff hm q g hq).2 (hframe _ (h.old.symm.trans htg)).symm) hqp
    · exact (h.other t htc).trans htg
  · have hc' := h.old.trans (hold hc)
    by_cases hcf : c.frame? = some frame
    · refine .inr ⟨hcalls call c (h.new.trans hc) hcf, fun g hg => ?_⟩
      exact ((hI.call call c hc').2 g hg).trans_le ht.nextFrame
    · refine .inl ⟨hc', ?_⟩
      rintro g ⟨⟩
      exact hcf
  · rintro g ⟨⟩ t c hne htc hcf
    exact hcalls t c ((h.other t hne).trans htc) hcf
  · rintro q ⟨⟩
    refine ⟨fun g hg => absurd (hself.2.symm.trans hg) (by simp), fun _ => ?_, fun hq => ?_⟩
    · rw [hs]
      exact hdisk
    · rw [hs]
      exact hI.unknown page (mt (hknown page) hq)
  · rintro g ⟨⟩
    refine ⟨(hI.mapped page frame hm).fresh.trans_le ht.nextFrame, fun hd => ?_⟩
    rw [hself.1, hdirty] at hd
    cases hd
  · rintro g ⟨⟩
    exact .inl ⟨by rw [hself.1, hpin], fun c hc hx => ⟨c, hold hc, hx⟩⟩

theorem Inv.removeLoading (hc : s.calls.lookup call = some (.loading page frame)) :
    Inv ((s.removeLoading page frame).endCall call) := by
  obtain ⟨⟨hm, hnone⟩, -⟩ := hI.call call _ hc
  have hf := hI.mapped page frame hm
  unfold GuardedPool.removeLoading
  rw [if_pos hm]
  refine hI.unmap hm rfl (.endCall hc rfl) (.inr ⟨rfl, ?_⟩) ?_ (hf.empty hnone).1 rfl
    (hf.empty hnone).2
  · rintro c ⟨⟩
    rfl
  · intro t c ht hcf
    obtain ⟨hne, ht⟩ := lookup_erase_eq_some.1 ht
    have hok := (hI.call t c ht).1
    cases c with
    | allocating => cases hcf
    | found q g =>
      cases hcf
      refine .inr ?_
      simp [endCall, setFrame]
    | guard q g u =>
      cases hcf
      exact absurd hnone hok.2
    | loading | loaded =>
      cases hcf
      exact absurd (hI.exclusive t call _ _ _ ht hc rfl rfl) hne
    | flushing | wrote =>
      cases hcf
      exact absurd hnone (hok.writes rfl).2.2

theorem Inv.readPage {ok : Bool} (hs : s.readPage call ok = .ok s') : Inv s' := by
  unfold GuardedPool.readPage at hs
  split at hs
  · next page frame hc =>
    split at hs
    · next image hfile =>
      split at hs
      · cases hs
        exact hI.read hc hfile
      · cases hs
        exact hI.removeLoading hc
    · cases hs
      exact hI.removeLoading hc
  · cases hs

theorem Inv.remove (hcare : s.Careful (.remove page frame)) (hs : s.remove page frame = .ok s') :
    Inv s' := by
  simp only [GuardedPool.remove, bind_eq_ok, require_eq_ok, pure_eq_ok] at hs
  obtain ⟨-, ⟨hm, hpin, hdirty, hw, hpage⟩, hs⟩ := hs
  have hf := hI.mapped page frame hm
  have hunpinned : ∀ t c, s.calls.lookup t = some c → c.pinned? ≠ some frame := by
    intro t c ht hc
    obtain ⟨l, hl, hmem⟩ := hI.pins frame
    have := List.length_pos_of_mem (hmem t c ht hc)
    omega
  have hsame : s' = { s with
      frames := Function.update s.frames frame (s.frames frame)
      map := Function.update s.map page none
      calls := s.calls } := by
    rw [← hs, Function.update_eq_self]
  have hmoves : Moves s s' 0 (s.calls.lookup 0) (s.calls.lookup 0) := by
    rw [hsame]
    exact ⟨rfl, rfl, fun _ _ => rfl⟩
  refine hI.unmap hm hsame hmoves (.inl rfl) ?_ hdirty rfl ?_
  · intro t c ht hcf
    rw [hsame] at ht
    have hok := (hI.call t c ht).1
    cases c with
    | allocating => cases hcf
    | found q g =>
      cases hcf
      rcases hok with hq | hl
      · obtain rfl : q = page := (hI.mapped q frame hq).pageId.symm.trans hf.pageId
        exact absurd rfl (hcare ⟨t, _⟩ (AList.mem_lookup_iff.1 ht))
      · rw [hf.ready] at hl
        cases hl
    | guard | loading | loaded => exact absurd hcf (hunpinned t _ ht)
    | flushing | wrote =>
      cases hcf
      exact absurd (hok.writes rfl).1 (by simp [hw])
  · rcases hf.clean hpage with hd | hd | ⟨t, ht⟩
    · rw [hdirty] at hd
      cases hd
    · exact hd
    · exact absurd rfl (hunpinned t _ ht)

theorem Inv.step {a : GuardAction} (hcare : s.Careful a) (hs : s.step a = .ok s') : Inv s' := by
  cases a with
  | reserve call => exact hI.reserve hs
  | insertNew call => exact hI.insertNew hcare hs
  | lookup call page => exact hI.lookup hs
  | count call => exact hI.count hs
  | load call page => exact hI.load hs
  | readPage call ok => exact hI.readPage hs
  | install call => exact hI.install hs
  | mutate call change => exact hI.mutate hs
  | markDirty call lsn => exact hI.markDirty hs
  | drop call => exact hI.drop hcare hs
  | startFlush call frame durableLsn => exact hI.startFlush hcare hs
  | writePage call failed => exact hI.writePage hs
  | finishFlush call => exact hI.finishFlush hs
  | remove page frame => exact hI.remove hcare hs

end

/-- The guard refers to the frame that the map has for its page, and sees all that was done to the
page. -/
def Current (s : GuardedPool) (page frame : Nat) : Prop :=
  s.map page = some frame ∧ ((s.frames frame).page.map PoolPage.changes) = some (s.history page)

instance (s : GuardedPool) (page frame : Nat) : Decidable (s.Current page frame) :=
  inferInstanceAs (Decidable (_ ∧ _))

theorem guards_current {file : Nat → Option PoolPage} {pageCount : Nat} {acts : List GuardAction}
    {s : GuardedPool}
    (hrun : Run step Careful (openFile file pageCount) acts s) {call page frame : Nat}
    {unmarked : Bool}
    (hc : s.calls.lookup call = some (.guard page frame unmarked)) : s.Current page frame := by
  have hI : Inv s := hrun.invariant (I := fun _ s => Inv s) inv_openFile fun _ _ _ _ hI hcare hs =>
      hI.step hcare hs
  obtain ⟨⟨hm, hpage⟩, -⟩ := hI.call call _ hc
  refine ⟨hm, ?_⟩
  obtain ⟨image, himage⟩ := Option.ne_none_iff_exists'.1 hpage
  rw [himage, Option.map_some, ((hI.mapped page frame hm).full image himage).1]

def twoPages : Nat → Option PoolPage :=
  fun page => if page = 1 ∨ page = 2 then some ⟨0, []⟩ else none

def pinCold (call page : Nat) : List GuardAction :=
  [.load call page, .readPage call true, .install call]

/-- With room for one page: call 1 has looked page 1's frame up when it is evicted for page 2. It
gets a guard of that frame; call 3 loads page 1 again and does not see what call 1 then does. -/
theorem guard_of_evicted_frame : ∃ acts s, Run step (fun _ _ => True) (openFile twoPages 2) acts s ∧
    s.calls.lookup 1 = some (.guard 1 0 false) ∧ ¬ s.Current 1 0 ∧
    s.calls.lookup 3 = some (.guard 1 2 false) ∧ ¬ s.Current 1 2 :=
  ⟨pinCold 0 1 ++ [.drop 0, .lookup 1 1, .remove 1 0] ++ pinCold 2 2 ++
    [.count 1, .drop 2, .remove 2 1] ++ pinCold 3 1 ++
    [.mutate 1 7, .markDirty 1 0], by decide +kernel⟩

/-- A page is changed, written, evicted and loaded again. -/
theorem guards_current_reloaded : ∃ acts s, Run step Careful (openFile twoPages 2) acts s ∧
    s.Current 1 1 ∧ s.history 1 = [7] := by
  obtain ⟨s, hrun, hc, hhist⟩ : ∃ s, Run step Careful (openFile twoPages 2)
      (pinCold 0 1 ++ [.mutate 0 7, .markDirty 0 0, .drop 0, .startFlush 0 0 0, .writePage 0 none,
        .finishFlush 0,
        .remove 1 0] ++ pinCold 1 1) s ∧
      s.calls.lookup 1 = some (.guard 1 1 false) ∧ s.history 1 = [7] := by decide +kernel
  exact ⟨_, s, hrun, guards_current hrun hc, hhist⟩

end GuardedPool
end RedlineDb
