import Mathlib.Data.List.Dedup
import RedlineDb.LogTail

/-!
# Online backup

`backup_to_path` of `redlinedb/src/snapshot.rs` empties the destination, takes a checkpoint and
copies the files of the data directory one after the other, in the order the directory lists them.
Nothing keeps other sessions from committing and from taking checkpoints of their own meanwhile.
Commits reach the copy through the log segment, up to where its file ends when it is copied; the
page file changes with checkpoints only, since evictions do not write pages that carry an LSN.
-/

namespace RedlineDb
open Lib Function List

/-- The files of a data directory; `owner.lock` is not copied. -/
inductive DataFile
  | pages | control | txStatus (generation : Nat) | segment (number : Nat)
deriving DecidableEq

namespace DataFile

def isTxStatus : DataFile → Bool
  | txStatus _ => true
  | _ => false

def isSegment : DataFile → Bool
  | segment _ => true
  | _ => false

end DataFile

namespace Database

def segmentOf (db : Database) (r : WalRecord) : Nat :=
  segmentForLsn r.lsn db.engine.heap.wal.segmentBytes

def activeSegment (db : Database) : Nat :=
  segmentForLsn db.engine.heap.wal.reservedLsn db.engine.heap.wal.segmentBytes

def files (db : Database) : List DataFile :=
  [.pages, .control] ++ (range' 1 (db.nextGeneration - 1)).map .txStatus ++
    (db.disk.records.map db.segmentOf ++ [db.activeSegment]).dedup.map .segment

/-- `fs::copy` of one file into `d`. The file of a segment ends where the writer thread is; a
reopening drops a record that is cut there. -/
def copyFile (db : Database) (writtenLsn : Nat) (d : Disk) : DataFile → Disk
  | .pages => { d with file := db.disk.file, pageCount := db.disk.pageCount }
  | .control => { d with control := db.disk.control }
  | .txStatus g => { d with txStatus := update d.txStatus g (db.disk.txStatus g) }
  | .segment n =>
    { d with
      records := d.records.filter (fun r => db.segmentOf r < n) ++
        db.disk.records.filter (fun r => db.segmentOf r = n ∧ r.endLsn ≤ writtenLsn) ++
        d.records.filter fun r => n < db.segmentOf r }

end Database

/-- A backup past its checkpoint: the destination so far, the files listed and those of them still
to copy. The rest is for the statement: what a new snapshot read at the checkpoint, and the calls
accepted since. -/
structure Backup where
  copy : Disk
  listed : List DataFile
  todo : List DataFile
  shown : Nat → Nat → Except Error (Option Bytes)
  calls : List Op

/-- A database in the directory `path`. `resolve` is how the file system reads a path: without `.`,
`..` and links on the way. A backup may have deleted the directory (`removed`) or put directories of
its own into it (`added`). -/
structure Site where
  db : Database
  path : List String
  resolve : List String → List String
  removed : Bool
  added : List (List String)
  backup : Option Backup

inductive SiteOp
  /-- A call or a checkpoint of another session. -/
  | op (op : DbOp)
  | start (dst : List String)
  | copy (file : DataFile) (writtenLsn : Nat)
  | finish
deriving DecidableEq

namespace Site

def create (cfg : Config) (resolve : List String → List String) (path : List String) : Site :=
  ⟨.create cfg, path, resolve, false, [], none⟩

def accepted : DbOp → List Op
  | .call op => [op]
  | .checkpoint => []

def step (s : Site) : SiteOp → Except Error Site
  | .op op => do
    let db ← s.db.step op
    return { s with db, backup := s.backup.map fun b => { b with calls := b.calls ++ accepted op } }
  | .start dst => do
    require (s.backup.isNone) .io
    -- `remove_dir_all` takes the source along when the destination is the source or lies above it
    if s.resolve dst <+: s.path then return { s with removed := true }
    let db ← s.db.checkpoint
    -- a destination inside the source is listed as well, and `copy_dir` goes down into its own copy
    if s.path <+: s.resolve dst then return { s with db, added := s.resolve dst :: s.added }
    let copy : Disk := ⟨fun _ => none, 0, [], none, fun _ => none⟩
    return { s with db, backup := some ⟨copy, db.files, db.files, s.db.engine.readFresh, []⟩ }
  | .copy file writtenLsn =>
    match s.backup with
    | none => .error .io
    | some b => do
      -- `read_dir` may come upon files that were not there when it started
      require (file ∈ s.db.files ∧ (file ∈ b.todo ∨ file ∉ b.listed)) .io
      require (s.db.engine.heap.wal.durableLsn ≤ writtenLsn) .io
      let b := { b with
        copy := s.db.copyFile writtenLsn b.copy file
        listed := file :: b.listed
        todo := b.todo.filter (· ≠ file) }
      return { s with backup := some b }
  | .finish => do
    require (s.backup.any fun b => b.todo.isEmpty) .io
    return { s with backup := none }

/-- The source is as it was, and a complete copy opens and shows what the source showed when the
backup started, with the effects of the transactions that committed in some first part of the calls
since. -/
structure Kept (cfg : Config) (s : Site) : Prop where
  source : s.removed = false ∧ s.added = []
  copy : ∀ b, s.backup = some b → b.todo = [] → ∃ db calls, b.copy.openWithRecovery cfg = .ok db ∧
    calls <+: b.calls ∧ ∀ rel row, db.engine.readFresh rel row =
      effects cfg.relId b.shown calls rel row

/-- The destination is neither above nor below the source, no transaction is open at the checkpoint,
and every row reads the same through the version a page scan meets first. Until the segment is
copied, updates and deletes of other sessions keep room for undo records; no checkpoint is taken
before pages, control file and segment are copied, and a segment that the log has gone on to since
is not. -/
def Undisturbed (s : Site) : SiteOp → Prop
  | .op (.call op) => ∀ b ∈ s.backup, ∀ f ∈ b.todo, f.isSegment → s.db.engine.KeepsRoom op
  | .op .checkpoint => ∀ b ∈ s.backup, ∀ f ∈ b.todo, f.isTxStatus
  | .start dst => ¬ s.resolve dst <+: s.path ∧ ¬ s.path <+: s.resolve dst ∧ s.db.engine.Quiet ∧
    s.db.engine.FirstVersionsRead
  | .copy file _ => ∀ b ∈ s.backup, file.isSegment → file ∈ b.todo
  | .finish => True

instance instDecidableUndisturbed (s : Site) : (op : SiteOp) → Decidable (s.Undisturbed op)
  | .op (.call _) | .op .checkpoint | .copy _ _ => inferInstanceAs (Decidable (∀ _ ∈ s.backup, _))
  | .start _ => inferInstanceAs (Decidable (_ ∧ _ ∧ _ ∧ _))
  | .finish => inferInstanceAs (Decidable True)

end Site

/-! ### What a checkpoint leaves -/

namespace Database
variable {cfg : Config} {db db' : Database}

theorem Sound.log_checkpoint (hI : Sound cfg db) (hc : db.checkpoint = .ok db') :
    db.engine.heap.wal.reservedLsn ≤ db'.engine.heap.wal.durableLsn ∧
      db'.activeSegment = db.activeSegment ∧
      db'.engine.heap.wal.segmentBytes = db.engine.heap.wal.segmentBytes ∧
      ∀ r ∈ db'.disk.records, r.endLsn ≤ db.engine.heap.wal.reservedLsn ∧
        db'.segmentOf r = db.activeSegment := by
  have hends := (hI.checkpoint hc).ends
  have hlsn := (hI.checkpoint hc).lsn
  simp only [Database.checkpoint, WalCoordinator.flushAll, WalCoordinator.flushUntil, bind_eq_ok,
    require_eq_ok, pure_eq_ok,
    Prod.exists, Prod.mk.injEq] at hc
  obtain ⟨d, wal, ⟨-, -, rfl, rfl⟩, rfl⟩ := hc
  refine ⟨le_max_right _ _, rfl, rfl, fun r hr => ⟨hends r hr, ?_⟩⟩
  refine le_antisymm (segmentForLsn_mono (hlsn r hr).le) ?_
  have hkept := of_decide_eq_true (mem_filter.1 hr).2
  by_contra hlt
  refine hkept ⟨(Nat.lt_of_not_le hlt).trans_le (segmentForLsn_mono (le_max_right _ _)), ?_⟩
  exact Nat.lt_of_not_le hlt

theorem status_checkpoint (hc : db.checkpoint = .ok db') :
    db'.nextGeneration = db.nextGeneration + 1 ∧
    (∃ c, db'.control = some c ∧ c.generation = db.nextGeneration) ∧
    ∀ g < db.nextGeneration, db'.txStatus g = db.txStatus g := by
  obtain ⟨-, d, wal, -, -, -, rfl⟩ := checkpoint_ok hc
  exact ⟨rfl, ⟨_, rfl, rfl⟩, fun g hg => if_neg (by omega)⟩

/-- The files that a reopening needs besides the log. -/
def needed (db : Database) : List DataFile := [.pages, .control, .txStatus db.nextGeneration]

end Database

namespace Disk
variable {d d' d'' : Disk} {f : DataFile}

def Agree (d d' : Disk) : DataFile → Prop
  | .pages => d.file = d'.file ∧ d.pageCount = d'.pageCount
  | .control => d.control = d'.control
  | .txStatus g => d.txStatus g = d'.txStatus g
  | .segment _ => True

theorem Agree.rfl : d.Agree d f := by
  cases f <;> simp [Agree]

theorem Agree.trans (h : d.Agree d' f) (h' : d'.Agree d'' f) : d.Agree d'' f := by
  cases f with
  | pages => exact ⟨h.1.trans h'.1, h.2.trans h'.2⟩
  | control => exact Eq.trans h h'
  | txStatus g => exact Eq.trans h h'
  | segment n => trivial

theorem copyFile_agree (db : Database) (writtenLsn : Nat) (d : Disk) (file : DataFile) :
    (db.copyFile writtenLsn d file).Agree db.disk file ∧
      ∀ f, f ≠ file → (db.copyFile writtenLsn d file).Agree d f := by
  constructor
  · cases file <;> simp [Agree, Database.copyFile]
  · intro f hf
    cases file <;> cases f <;> simp_all [Agree, Database.copyFile]

theorem Left.agree {cfg : Config} {base : Database} {c : ControlFile} (h : Database.Left cfg base d)
    (hd : ∀ f ∈ base.needed, d'.Agree d f) (hrec : d'.records = d.records) (hc : d.control = some c)
    (hgen : c.generation = base.nextGeneration) : Database.Left cfg base d' := by
  obtain ⟨hfile, hcount⟩ := hd .pages (by simp [Database.needed])
  have hctl : d'.control = d.control := hd .control (by simp [Database.needed])
  have hst : d'.txStatus c.generation = d.txStatus c.generation :=
    hgen ▸ hd (.txStatus _) (by simp [Database.needed])
  have hbase : d'.baseStatus = d.baseStatus := by
    unfold Disk.baseStatus
    rw [hctl, hc]
    simp only [hst]
  exact ⟨hbase.symm ▸ h.base, hctl.symm ▸ h.control, by rw [hfile, hcount]; exact h.fetch, by
    rw [hcount]; exact h.count,
    by rw [hrec]; exact h.commits, by rw [hrec]; exact h.lsn⟩

end Disk

theorem filter_initial {α : Type} {p : α → Bool} :
    ∀ {l : List α}, l.Pairwise (fun a b => p b → p a) → l.filter p <+: l
  | [], _ => prefix_rfl
  | a :: l, h => by
    rw [pairwise_cons] at h
    cases ha : p a with
    | true =>
      rw [filter_cons_of_pos ha]
      exact (prefix_cons_inj a).2 (filter_initial h.2)
    | false =>
      rw [filter_eq_nil_iff.2]
      · exact nil_prefix
      · intro b hb hpb
        rcases mem_cons.1 hb with rfl | hb
        · rw [ha] at hpb
          cases hpb
        · rw [h.1 b hb hpb] at ha
          cases ha

/-! ### The copy, file by file -/

namespace Backup
open Database
variable {cfg : Config} {b : Backup} {base d db db' : Database} {file : DataFile} {writtenLsn : Nat}

/-- Where the copy has or will have a file from. -/
def source (b : Backup) (db : Database) (f : DataFile) : Disk :=
  if f ∈ b.todo then db.disk else b.copy

/-- A backup whose checkpoint led from `base` to `d`. What is copied is as the checkpoint left it,
and what is not is in the source; the log goes on. -/
structure Copied (base d : Database) (b : Backup) (db : Database) : Prop where
  files : ∀ f ∈ base.needed, (b.source db f).Agree d.disk f
  listed : ∀ f ∈ base.needed, f ∈ b.listed
  generation : base.nextGeneration < db.nextGeneration
  segments : ∀ n, .segment n ∈ b.todo → n = base.activeSegment
  log : .segment base.activeSegment ∈ b.todo → b.copy.records = [] ∧
    base.engine.heap.wal.reservedLsn ≤ db.engine.heap.wal.durableLsn ∧
    db.engine.heap.wal.segmentBytes = base.engine.heap.wal.segmentBytes ∧
    ∃ tail, db.disk.records = d.disk.records ++ tail ∧ base.engine.Since b.calls tail db.engine
  copied : .segment base.activeSegment ∉ b.todo →
    ∃ rs calls, b.copy.records = d.disk.records ++ rs ∧
    calls <+: b.calls ∧ base.engine.Tail (calls.filterMap (Op.logged base.engine.heap.relId)) rs

theorem Copied.start (hI : Sound cfg base) (hq : base.engine.Quiet) (hc : base.checkpoint = .ok d) :
    Copied base d ⟨⟨fun _ => none, 0, [], none, fun _ => none⟩, d.files, d.files,
      base.engine.readFresh, []⟩ d := by
  obtain ⟨hdur, hact, hseg, hrec⟩ := hI.log_checkpoint hc
  obtain ⟨hgen, -, -⟩ := status_checkpoint hc
  have hneed : ∀ f ∈ base.needed, f ∈ d.files := by
    have hone : 1 ≤ base.nextGeneration := by
      unfold nextGeneration
      cases base.control <;> simp
    simp [needed, Database.files, hgen, hone]
  have hlog : .segment base.activeSegment ∈ d.files := by simp [Database.files, hact]
  refine ⟨fun f hf => ?_, hneed, by omega, ?_,
    fun _ => ⟨rfl, hdur, hseg, [], by simp, hI.since hq hc⟩,
    fun h => absurd hlog h⟩
  · rw [source, if_pos (hneed f hf)]
    exact .rfl
  · intro n hn
    simp only [Database.files, mem_append, mem_map, mem_dedup, mem_singleton,
      DataFile.segment.injEq] at hn
    rcases hn with (hn | ⟨g, -, hg⟩) | ⟨k, ⟨r, hr, rfl⟩ | rfl, rfl⟩
    · simp at hn
    · cases hg
    · exact (hrec r hr).2
    · exact hact

theorem Copied.source_agree {f : DataFile} (db' : Database) (h : Copied base d b db)
    (hf : f ∈ base.needed)
    (hsame : f ∈ b.todo → db'.disk.Agree db.disk f) : (b.source db' f).Agree d.disk f := by
  have hd := h.files f hf
  unfold source at hd ⊢
  split
  · next hm =>
    rw [if_pos hm] at hd
    exact (hsame hm).trans hd
  · next hm => rwa [if_neg hm] at hd

theorem Copied.call {op : Op} {e' : Engine} (h : Copied base d b db) (hI0 : Sound cfg base)
    (hI : Sound cfg db)
    (hs : db.engine.step op = .ok e') (hroom : ∀ f ∈ b.todo, f.isSegment → db.engine.KeepsRoom op) :
    Copied base d { b with calls := b.calls ++ [op] } { db with engine := e' } := by
  obtain ⟨hdisk, -⟩ := Engine.step_pages hI.tx hI.live.wf hI.chains hs
  obtain ⟨-, hfile, hcount⟩ : _ ∧ e'.heap.store.file = _ ∧ e'.heap.store.pageCount = _ := by
    simpa only [PageBackedHeap.onDisk, Prod.mk.injEq] using hdisk
  obtain ⟨rs, hC⟩ := Engine.step_commitStep hI.tx hI.live.wf hs
  refine ⟨fun f hf => ?_, h.listed, h.generation, h.segments, ?_, ?_⟩
  · refine h.source_agree { db with engine := e' } hf fun _ => ?_
    cases f with
    | pages => exact ⟨hfile, hcount⟩
    | control => exact rfl
    | txStatus g => exact rfl
    | segment n => trivial
  · intro ht
    obtain ⟨hnone, hdur, hseg, tail, hrec, hS⟩ := h.log ht
    obtain ⟨rs, hrs, hS'⟩ := hS.step hI0.tx hI0.live hI.chains hI.tx hI.csn hI.live.wf hs
        (hroom _ ht rfl)
    refine ⟨hnone, hdur.trans hC.durable, hC.logged.segment.trans hseg, tail ++ rs, ?_, hS'⟩
    rw [← append_assoc, ← hrec]
    exact hrs
  · intro ht
    obtain ⟨rs, calls, hrec, hpre, hT⟩ := h.copied ht
    exact ⟨rs, calls, hrec, hpre.trans (prefix_append ..), hT⟩

theorem Copied.checkpoint (h : Copied base d b db) (hc : db.checkpoint = .ok db')
    (ht : ∀ f ∈ b.todo, f.isTxStatus) :
    Copied base d b db' := by
  obtain ⟨hgen, -, hst⟩ := status_checkpoint hc
  have hlt := h.generation
  refine ⟨fun f hf => h.source_agree _ hf fun hm => ?_, h.listed, by omega, h.segments,
    fun hm => absurd (ht _ hm) nofun, h.copied⟩
  simp only [needed, mem_cons, not_mem_nil, or_false] at hf
  rcases hf with rfl | rfl | rfl
  · exact absurd (ht _ hm) nofun
  · exact absurd (ht _ hm) nofun
  · exact hst _ hlt

/-- The records of the segment that are in the file when it is copied are the checkpoint's and then
the first ones logged since. -/
theorem Copied.segment (h : Copied base d b db) (hI0 : Sound cfg base)
    (hc : base.checkpoint = .ok d) (hI : Sound cfg db)
    (hw : db.engine.heap.wal.durableLsn ≤ writtenLsn) (ht : .segment base.activeSegment ∈ b.todo) :
    ∃ rs calls, (db.copyFile writtenLsn b.copy (.segment base.activeSegment)).records =
      d.disk.records ++ rs ∧
      calls <+: b.calls ∧
        base.engine.Tail (calls.filterMap (Op.logged base.engine.heap.relId)) rs := by
  obtain ⟨-, -, hseg0, hold⟩ := hI0.log_checkpoint hc
  obtain ⟨hnone, hdur, hseg, tail, hrec, hS⟩ := h.log ht
  have hsame : ∀ r, db.segmentOf r = d.segmentOf r :=
    fun r => by rw [segmentOf, segmentOf, hseg, hseg0]
  obtain ⟨p, hp⟩ : ∃ p : WalRecord → Bool, ∀ r, p r = true ↔ db.segmentOf r = base.activeSegment ∧
      r.endLsn ≤ writtenLsn :=
    ⟨fun r => decide _, fun r => decide_eq_true_iff⟩
  have hcopy : (db.copyFile writtenLsn b.copy (.segment base.activeSegment)).records =
      db.disk.records.filter p := by
    show filter _ b.copy.records ++ _ ++ filter _ b.copy.records = _
    rw [hnone, filter_nil, nil_append, filter_nil, append_nil]
    refine filter_congr fun r _ => ?_
    rw [Bool.eq_iff_iff, hp, decide_eq_true_iff]
  have hsorted : tail.Pairwise fun r r' => r.endLsn ≤ r'.lsn := by
    have hs := hI.sorted
    rw [show db.engine.heap.wal.records = _ from hrec] at hs
    exact (pairwise_append.1 hs).2.1
  have hpre : tail.filter p <+: tail := by
    refine filter_initial (hsorted.imp_of_mem fun {r r'} hr hr' hle hp' => ?_)
    obtain ⟨hn, hend⟩ := (hp r').1 hp'
    have hlen : r.lsn ≤ r.endLsn ∧ r'.lsn ≤ r'.endLsn := by
      unfold WalRecord.endLsn
      omega
    refine (hp r).2 ⟨le_antisymm ?_ ?_, by omega⟩
    · rw [← hn]
      exact segmentForLsn_mono (by omega)
    · rw [activeSegment, segmentOf, hseg]
      exact segmentForLsn_mono (hS.redo.lsn r hr)
  obtain ⟨calls, hcalls, hT⟩ := hS.early _ hpre
  refine ⟨tail.filter p, calls, ?_, hcalls, hT⟩
  rw [hcopy, hrec, filter_append, filter_eq_self.2]
  intro r hr
  obtain ⟨hend, hn⟩ := hold r hr
  exact (hp r).2 ⟨(hsame r).trans hn, by omega⟩

theorem Copied.copyFile (h : Copied base d b db) (hI0 : Sound cfg base)
    (hc : base.checkpoint = .ok d) (hI : Sound cfg db)
    (hw : db.engine.heap.wal.durableLsn ≤ writtenLsn) (hf : file ∈ b.todo ∨ file ∉ b.listed)
    (hseg : file.isSegment → file ∈ b.todo) :
    Copied base d { b with
      copy := db.copyFile writtenLsn b.copy file, listed := file :: b.listed, todo :=
        b.todo.filter (· ≠ file) } db := by
  obtain ⟨hself, hother⟩ := Disk.copyFile_agree db writtenLsn b.copy file
  have htodo : ∀ f, f ≠ file → (f ∈ b.todo.filter (· ≠ file) ↔ f ∈ b.todo) := fun f hne => by
    simp [hne]
  refine ⟨fun f hn => ?_, fun f hn => mem_cons_of_mem _ (h.listed f hn), h.generation,
    fun n hn => h.segments n (mem_filter.1 hn).1, fun hm => ?_, fun hm => ?_⟩
  · have hd := h.files f hn
    unfold source at hd ⊢
    by_cases hne : f = file
    · subst hne
      rw [if_pos (hf.resolve_right (not_not.2 (h.listed f hn)))] at hd
      rw [if_neg (by simp)]
      exact hself.trans hd
    · simp only [htodo f hne]
      split
      · next hm => rwa [if_pos hm] at hd
      · next hm =>
        rw [if_neg hm] at hd
        exact (hother f hne).trans hd
  · obtain ⟨hin, hne⟩ := mem_filter.1 hm
    have hkeep : (db.copyFile writtenLsn b.copy file).records = b.copy.records := by
      cases file with
      | segment n =>
        rw [h.segments n (hseg rfl)] at hne
        simp at hne
      | _ => rfl
    obtain ⟨hnone, hrest⟩ := h.log hin
    exact ⟨hkeep.trans hnone, hrest⟩
  · cases file with
    | segment n =>
      cases h.segments n (hseg rfl)
      exact h.segment hI0 hc hI hw (hseg rfl)
    | _ => exact h.copied fun hin => hm (mem_filter.2 ⟨hin, by simp⟩)

theorem Copied.reopen (h : Copied base d b db) (hI0 : Sound cfg base) (hq : base.engine.Quiet)
    (hF : base.engine.FirstVersionsRead) (hc : base.checkpoint = .ok d) (ht : b.todo = []) :
    ∃ db calls, b.copy.openWithRecovery cfg = .ok db ∧ calls <+: b.calls ∧
      ∀ rel row, db.engine.readFresh rel row = effects cfg.relId base.engine.readFresh calls rel
        row := by
  obtain ⟨rs, calls, hrec, hpre, hT⟩ := h.copied (by simp [ht])
  obtain ⟨-, ⟨c, hctl, hgen⟩, -⟩ := status_checkpoint hc
  have hleft : Left cfg base { b.copy with records := d.disk.records } := by
    refine Disk.Left.agree (hI0.left hc) (fun f hf => ?_) rfl hctl hgen
    have hd := h.files f hf
    rw [source, if_neg (by simp [ht])] at hd
    exact Disk.Agree.trans (by cases f <;> simp [Disk.Agree]) hd
  obtain ⟨db', hopen, hread⟩ := hI0.reopen_redo hq hF hleft hT
  refine ⟨db', calls, ?_, hpre, fun rel row => ?_⟩
  · rw [← hopen, ← hrec]
  · rw [hread, hI0.relId, effects_logged]

end Backup

namespace Site
open Database
variable {cfg : Config} {s s' : Site}

structure Inv (cfg : Config) (s : Site) : Prop where
  db : Sound cfg s.db
  source : s.removed = false ∧ s.added = []
  backup : ∀ b, s.backup = some b → ∃ base d, Sound cfg base ∧ base.engine.Quiet ∧
    base.engine.FirstVersionsRead ∧
    base.checkpoint = .ok d ∧ b.shown = base.engine.readFresh ∧ b.Copied base d s.db

theorem inv_create (cfg : Config) (resolve : List String → List String) (path : List String) :
    Inv cfg (create cfg resolve path) :=
  ⟨sound_create cfg, ⟨rfl, rfl⟩, nofun⟩

theorem Inv.start {dst : List String} (h : Inv cfg s) (hU : s.Undisturbed (.start dst))
    (hs : s.step (.start dst) = .ok s') : Inv cfg s' := by
  obtain ⟨habove, hbelow, hq, hF⟩ := hU
  simp only [step, if_neg habove, if_neg hbelow, bind_eq_ok, pure_eq_ok] at hs
  obtain ⟨-, -, d, hc, rfl⟩ := hs
  refine ⟨h.db.checkpoint hc, h.source, ?_⟩
  rintro b ⟨⟩
  exact ⟨s.db, d, h.db, hq, hF, hc, rfl, .start h.db hq hc⟩

theorem Inv.op {op : DbOp} (h : Inv cfg s) (hU : s.Undisturbed (.op op))
    (hs : s.step (.op op) = .ok s') : Inv cfg s' := by
  simp only [step, bind_eq_ok, pure_eq_ok] at hs
  obtain ⟨db, hs, rfl⟩ := hs
  cases op with
  | call op =>
    simp only [Database.step, bind_eq_ok, pure_eq_ok] at hs
    obtain ⟨e', hs, rfl⟩ := hs
    refine ⟨h.db.call hs, h.source, ?_⟩
    intro b' hb'
    obtain ⟨b, hb, rfl⟩ := Option.map_eq_some_iff.1 hb'
    obtain ⟨base, d, hI0, hq, hF, hc, hsh, hC⟩ := h.backup b hb
    exact ⟨base, d, hI0, hq, hF, hc, hsh, hC.call hI0 h.db hs (hU b hb)⟩
  | checkpoint =>
    refine ⟨h.db.checkpoint hs, h.source, ?_⟩
    intro b' hb'
    obtain ⟨b, hb, rfl⟩ := Option.map_eq_some_iff.1 hb'
    obtain ⟨base, d, hI0, hq, hF, hc, hsh, hC⟩ := h.backup b hb
    refine ⟨base, d, hI0, hq, hF, hc, hsh, ?_⟩
    rw [show b.calls ++ accepted .checkpoint = b.calls from append_nil _]
    exact hC.checkpoint hs (hU b hb)

theorem Inv.step {op : SiteOp} (h : Inv cfg s) (hU : s.Undisturbed op) (hs : s.step op = .ok s') :
    Inv cfg s' := by
  cases op with
  | op op => exact h.op hU hs
  | start dst => exact h.start hU hs
  | copy file writtenLsn =>
    simp only [Site.step] at hs
    split at hs
    · cases hs
    next b hb =>
      simp only [bind_eq_ok, require_eq_ok, pure_eq_ok] at hs
      obtain ⟨-, ⟨-, hf⟩, -, hw, rfl⟩ := hs
      obtain ⟨base, d, hI0, hq, hF, hc, hsh, hC⟩ := h.backup b hb
      refine ⟨h.db, h.source, ?_⟩
      rintro b' ⟨⟩
      exact ⟨base, d, hI0, hq, hF, hc, hsh, hC.copyFile hI0 hc h.db hw hf (hU b hb)⟩
  | finish =>
    simp only [Site.step, bind_eq_ok, pure_eq_ok] at hs
    obtain ⟨-, -, rfl⟩ := hs
    exact ⟨h.db, h.source, fun b hb => by cases hb⟩

theorem Inv.kept (h : Inv cfg s) : s.Kept cfg := by
  refine ⟨h.source, ?_⟩
  intro b hb ht
  obtain ⟨base, d, hI0, hq, hF, hc, hsh, hC⟩ := h.backup b hb
  rw [hsh]
  exact hC.reopen hI0 hq hF hc ht

def updated : List Op :=
  [.begin .snapshot, .updateForRelation 2 1 1 [2], .appendCommit 2, .finishCommit 2]

end Site
end RedlineDb
