import RedlineDb.PoolInvariant

/-!
# The write-ahead rule

`flush_frame_checked` writes a page when its `page_lsn` is not above the durable LSN it is given.
The rule behind it: no image in the page file has a change whose record ends above that LSN. The
pool is watched with the durable LSN of each `flush_page` and the images written so far.

`mark_dirty` sets the LSN of a page to whatever it is given, so a page can lose the LSN of a logged
change (`vacuum_lowers_page_lsn`), and an index writer logs its change after it has made it. CREATE
INDEX marks its new pages with the highest LSN of all, so that they are not flushed, and lowers it
once their records are there.
-/

namespace RedlineDb
open Lib

/-- The record at `lsn` ends at `l` or before. -/
def WalCoordinator.EndsBy (w : WalCoordinator) (lsn l : Nat) : Prop :=
  ∃ r ∈ w.records, r.lsn = lsn ∧ r.endLsn ≤ l

instance (w : WalCoordinator) (lsn l : Nat) : Decidable (w.EndsBy lsn l) :=
  inferInstanceAs (Decidable (∃ r ∈ _, _))

structure PageWrite where
  pid : Nat
  page : PoolPage
  durableLsn : Nat

structure WriteAhead where
  pool : Pool
  durables : AList (fun _ : Nat => Nat)
  written : List PageWrite

namespace WriteAhead

def start (pool : Pool) : WriteAhead := ⟨pool, ∅, []⟩

def durableLsn (s : WriteAhead) (job : Nat) (p : FlushPhase) : Nat :=
  p.lsn?.getD ((s.durables.lookup job).getD 0)

def nextWrite (s : WriteAhead) (job : Nat) : Option PageWrite :=
  (s.pool.jobs.lookup job).bind fun p => p.copy?.map fun c => ⟨c.1, c.2, s.durableLsn job p⟩

def step (s : WriteAhead) (a : PoolAction) : Except Error WriteAhead := do
  let pool ← s.pool.step a
  match a with
  | .flushPage job _ durableLsn =>
      return { s with pool, durables := s.durables.insert job durableLsn }
  | .flush job => return { s with pool, written := (s.nextWrite job).toList ++ s.written }
  | _ => return { s with pool }

def NoWriter (s : Pool) (pid : Nat) : Prop := ∀ e ∈ s.writers.entries, e.2.pid ≠ pid

instance (s : Pool) (pid : Nat) : Decidable (NoWriter s pid) :=
  inferInstanceAs (Decidable (∀ e ∈ _, _))

/-- The page may be given this LSN: it is not below the page's own, and in the log (or the `1` that
undo cells and vacuumed index pages get). -/
def Raises (s : Pool) (pid lsn : Nat) : Prop :=
  lsn ≤ max s.wal.reservedLsn 1 ∧ ∀ f ∈ s.frames.lookup pid, f.page.pageLsn ≤ lsn

instance (s : Pool) (pid lsn : Nat) : Decidable (Raises s pid lsn) :=
  inferInstanceAs (Decidable (_ ∧ _))

/-- The same for the images alone: the LSN is not below the page's own, or else not below the ends
of the records of its changes. -/
def Covers (s : Pool) (pid lsn : Nat) : Prop :=
  ∀ f ∈ s.frames.lookup pid, f.page.pageLsn ≤ lsn ∨
    ∀ r ∈ s.logged, r.pid = pid → r.change ∈ f.page.changes → s.wal.EndsBy r.lsn lsn

instance (s : Pool) (pid lsn : Nat) : Decidable (Covers s pid lsn) :=
  inferInstanceAs (Decidable (∀ _ ∈ _, _))

/-- A page is copied by a flusher only when no index writer is at work on it, and gets no LSN but a
good one. -/
def CopiesAlone (good : Pool → Nat → Nat → Prop) (s : WriteAhead) : PoolAction → Prop
  | .flushPage _ pid _ => NoWriter s.pool pid
  | .flush job =>
    match s.pool.jobs.lookup job with
    | some (.batch _ (pid :: _) _) => NoWriter s.pool pid
    | _ => True
  | .appendUnlogged pid lsn => good s.pool pid lsn
  | .markDirty writer lsn =>
    match s.pool.markedPage writer lsn with
    | some (pid, lsn) => good s.pool pid lsn
    | none => True
  | _ => True

def Ordered : WriteAhead → PoolAction → Prop := CopiesAlone Raises

def Covered : WriteAhead → PoolAction → Prop := CopiesAlone Covers

section
variable {good : Pool → Nat → Nat → Prop} [∀ s pid lsn, Decidable (good s pid lsn)]

instance (s : WriteAhead) (a : PoolAction) : Decidable (CopiesAlone good s a) := by
  unfold CopiesAlone
  exact match a with
    | .flushPage .. => inferInstanceAs (Decidable (NoWriter _ _))
    | .appendUnlogged .. => inferInstanceAs (Decidable (good _ _ _))
    | .flush job => by
      dsimp only
      exact match s.pool.jobs.lookup job with
        | some (.batch _ (_ :: _) _) => inferInstanceAs (Decidable (NoWriter _ _))
        | none | some (.batch _ [] _) | some (.waiting ..) | some (.collecting ..)
        | some (.writing ..)
        | some (.flushed ..) | some (.controlWritten ..)
        | some (.single ..) => inferInstanceAs (Decidable True)
    | .markDirty writer lsn => by
      dsimp only
      exact match s.pool.markedPage writer lsn with
        | some (_, _) => inferInstanceAs (Decidable (good _ _ _))
        | none => inferInstanceAs (Decidable True)
    | .allocate | .load .. | .evict .. | .append .. | .modify .. | .log .. | .abandon ..
    | .writeLog .. | .visit .. =>
      inferInstanceAs (Decidable True)

end

instance (s : WriteAhead) (a : PoolAction) : Decidable (s.Ordered a) :=
  inferInstanceAs (Decidable (CopiesAlone ..))

instance (s : WriteAhead) (a : PoolAction) : Decidable (s.Covered a) :=
  inferInstanceAs (Decidable (CopiesAlone ..))

theorem Ordered.covered {s : WriteAhead} {a : PoolAction} (h : s.Ordered a) : s.Covered a := by
  have hgood : ∀ {pid lsn}, Raises s.pool pid lsn → Covers s.pool pid lsn :=
    fun h f hf => .inl (h.2 f hf)
  unfold Ordered Covered CopiesAlone at *
  split at h
  · exact h
  · exact h
  · exact hgood h
  · split at h
    · exact hgood h
    · trivial
  · trivial

variable {s s' : Pool} {pid lsn l l' : Nat} {page : PoolPage} {f : PoolFrame}
    {w w' : WalCoordinator}

theorem endsBy_mono (hrec : ∀ r ∈ w.records, r ∈ w'.records) (hle : l ≤ l') (h : w.EndsBy lsn l) :
    w'.EndsBy lsn l' := by
  obtain ⟨r, hr, hlsn, hend⟩ := h
  exact ⟨r, hrec r hr, hlsn, hend.trans hle⟩

theorem noWriter_iff : NoWriter s pid ↔ ∀ w p, s.writers.lookup w = some p → p.pid ≠ pid :=
  forall_entries_iff (p := fun _ p => WriterPhase.pid p ≠ pid)

/-- `B`: the LSN is in the log. It is when no LSN is lowered. -/
structure Image (B : Prop) (s : Pool) (pid : Nat) (page : PoolPage) : Prop where
  fresh : ∀ x ∈ page.changes, x < s.nextChange
  ends : ∀ r ∈ s.logged, r.pid = pid → r.change ∈ page.changes → s.wal.EndsBy r.lsn page.pageLsn
  settled : ∀ w x, s.writers.lookup w = some (.modified pid x) → x ∉ page.changes
  lsn : B → page.pageLsn ≤ max s.wal.reservedLsn 1

structure Resident (B : Prop) (s : Pool) (pid : Nat) (page : PoolPage) : Prop where
  fresh : ∀ x ∈ page.changes, x < s.nextChange
  ends : ∀ r ∈ s.logged, r.pid = pid → r.change ∈ page.changes → s.wal.EndsBy r.lsn page.pageLsn ∨
    ∃ w e, s.writers.lookup w = some (.logged pid r.change e) ∧ s.wal.EndsBy r.lsn e
  lsn : B → page.pageLsn ≤ max s.wal.reservedLsn 1

variable {B : Prop}

theorem Image.resident (h : Image B s pid page) : Resident B s pid page :=
  ⟨h.fresh, fun r hr hp hx => .inl (h.ends r hr hp hx), h.lsn⟩

theorem Resident.image (h : Resident B s pid page) (hno : NoWriter s pid) : Image B s pid page := by
  rw [noWriter_iff] at hno
  refine ⟨h.fresh, fun r hr hp hx => ?_, fun w x hw => absurd rfl (hno w _ hw), h.lsn⟩
  rcases h.ends r hr hp hx with he | ⟨w, e, hw, -⟩
  · exact he
  · exact absurd rfl (hno w _ hw)

structure Books (s : Pool) : Prop where
  logged : ∀ r ∈ s.logged, r.change < s.nextChange ∧ s.wal.EndsBy r.lsn s.wal.reservedLsn
  modified : ∀ w pid x, s.writers.lookup w = some (.modified pid x) → x < s.nextChange

structure Grows (s s' : Pool) : Prop where
  next : s.nextChange ≤ s'.nextChange
  reserved : s.wal.reservedLsn ≤ s'.wal.reservedLsn
  records : ∀ r ∈ s.wal.records, r ∈ s'.wal.records
  logged : ∀ r ∈ s'.logged, r ∈ s.logged ∨ s'.wal.EndsBy r.lsn s'.wal.reservedLsn ∧
    (s.nextChange ≤ r.change ∧ r.change < s'.nextChange ∨
      ∃ w, s.writers.lookup w = some (.modified r.pid r.change))
  modified : ∀ w pid x, s'.writers.lookup w = some (.modified pid x) →
    s.writers.lookup w = some (.modified pid x) ∨ s.nextChange ≤ x ∧ x < s'.nextChange

theorem Books.grows (hb : Books s) (hg : Grows s s') : Books s' := by
  refine ⟨fun r hr => ?_, fun w q x hx => ?_⟩
  · rcases hg.logged r hr with hr | ⟨he, hx | ⟨w, hw⟩⟩
    · exact ⟨(hb.logged r hr).1.trans_le hg.next,
        endsBy_mono hg.records hg.reserved (hb.logged r hr).2⟩
    · exact ⟨hx.2, he⟩
    · exact ⟨(hb.modified w _ _ hw).trans_le hg.next, he⟩
  · rcases hg.modified w q x hx with hx | hx
    · exact (hb.modified w q x hx).trans_le hg.next
    · exact hx.2

theorem Image.grows (h : Image B s pid page) (hg : Grows s s') : Image B s' pid page := by
  have hres := hg.reserved
  refine ⟨fun x hx => (h.fresh x hx).trans_le hg.next, fun r hr hp hx => ?_, fun w x hw hx => ?_,
    fun hB => (h.lsn hB).trans (by omega)⟩
  · rcases hg.logged r hr with hr | ⟨-, hnew | ⟨w, hw⟩⟩
    · exact endsBy_mono hg.records le_rfl (h.ends r hr hp hx)
    · exact absurd (h.fresh _ hx) (by omega)
    · exact absurd hx (h.settled w _ (hp ▸ hw))
  · rcases hg.modified w pid x hw with hw | hnew
    · exact h.settled w x hw hx
    · exact absurd (h.fresh x hx) (by omega)

structure Moved (B : Prop) (s s' : Pool) (pid : Nat) (page page' : PoolPage) : Prop where
  changes : ∀ x ∈ page'.changes, x ∈ page.changes ∨ s.nextChange ≤ x ∧ x < s'.nextChange
  covers : ∀ r ∈ s.logged, r.pid = pid → r.change ∈ page.changes → s.wal.EndsBy r.lsn page.pageLsn →
    s'.wal.EndsBy r.lsn page'.pageLsn
  le : B → page.pageLsn ≤ page'.pageLsn
  lsn : B → page'.pageLsn ≤ max page.pageLsn (max s'.wal.reservedLsn 1)
  logged : ∀ r ∈ s'.logged, r.pid = pid → r ∈ s.logged ∨ s'.wal.EndsBy r.lsn page'.pageLsn ∨
    ∃ w e, s'.writers.lookup w = some (.logged pid r.change e) ∧ s'.wal.EndsBy r.lsn e
  writers : ∀ w x e, s.writers.lookup w = some (.logged pid x e) →
    s'.writers.lookup w = some (.logged pid x e) ∨ e ≤ page'.pageLsn

theorem Moved.same (hrec : ∀ r ∈ s.wal.records, r ∈ s'.wal.records)
    (hlog : ∀ r ∈ s'.logged, r.pid = pid → r ∈ s.logged ∨
      ∃ w e, s'.writers.lookup w = some (.logged pid r.change e) ∧ s'.wal.EndsBy r.lsn e)
    (hkeep : ∀ w x e, s.writers.lookup w = some (.logged pid x e) →
      s'.writers.lookup w = some (.logged pid x e)) :
    Moved B s s' pid page page :=
  ⟨fun _ hx => .inl hx, fun _ _ _ _ => endsBy_mono hrec le_rfl, fun _ => le_rfl,
    fun _ => le_max_left _ _,
    fun r hr hp => (hlog r hr hp).imp_right .inr, fun w x e hw => .inl (hkeep w x e hw)⟩

theorem Resident.moved {page' : PoolPage} (h : Resident B s pid page) (hb : Books s)
    (hg : Grows s s')
    (hm : Moved B s s' pid page page') : Resident B s' pid page' := by
  refine ⟨fun x hx => ?_, fun r hr hp hx => ?_, fun hB => ?_⟩
  · rcases hm.changes x hx with hx | hx
    · exact (h.fresh x hx).trans_le hg.next
    · exact hx.2
  · rcases hm.logged r hr hp with hr | he | hw
    · have hold : r.change ∈ page.changes :=
        (hm.changes _ hx).resolve_right fun hnew => not_lt.2 hnew.1 (hb.logged r hr).1
      rcases h.ends r hr hp hold with he | ⟨w, e, hw, he⟩
      · exact .inl (hm.covers r hr hp hold he)
      · rcases hm.writers w _ e hw with hw | hle
        · exact .inr ⟨w, e, hw, endsBy_mono hg.records le_rfl he⟩
        · exact .inl (endsBy_mono hg.records hle he)
    · exact .inl he
    · exact .inr hw
  · have hlsn := h.lsn hB
    have hlsn' := hm.lsn hB
    have hres := hg.reserved
    omega

structure Inv (B : Prop) (s : WriteAhead) : Prop where
  books : Books s.pool
  frame : ∀ pid f, s.pool.frames.lookup pid = some f → Resident B s.pool pid f.page
  file : ∀ pid page, s.pool.file pid = some page → Image B s.pool pid page
  copy : ∀ job p pid page, s.pool.jobs.lookup job = some p → p.copy? = some (pid, page) →
    Image B s.pool pid page ∧ page.pageLsn ≤ s.durableLsn job p
  written : ∀ i ∈ s.written, Image B s.pool i.pid i.page ∧ i.page.pageLsn ≤ i.durableLsn

/-- The pool over what an earlier process left: nothing resident, nobody at work, the log closed
behind its records, and the LSN of every page in the file covers the changes in it and is in the
log. -/
structure Opened (s : Pool) : Prop where
  frames : s.frames = ∅
  writers : s.writers = ∅
  jobs : s.jobs = ∅
  logged : ∀ r ∈ s.logged, r.change < s.nextChange ∧ s.wal.EndsBy r.lsn s.wal.reservedLsn
  file : ∀ pid page, s.file pid = some page → (∀ x ∈ page.changes, x < s.nextChange) ∧
    page.pageLsn ≤ max s.wal.reservedLsn 1 ∧
    ∀ r ∈ s.logged, r.pid = pid → r.change ∈ page.changes → s.wal.EndsBy r.lsn page.pageLsn

theorem inv_start (h : Opened s) : Inv B (start s) where
  books := ⟨h.logged, by simp [start, h.writers]⟩
  frame := by simp [start, h.frames]
  file := by
    intro pid page hp
    obtain ⟨hfresh, hlsn, hends⟩ := h.file pid page hp
    exact ⟨hfresh, hends, by simp [start, h.writers], fun _ => hlsn⟩
  copy := by simp [start, h.jobs]
  written := by simp [start]

variable {t t' : WriteAhead} {job : Nat} {pool : Pool}

structure Copies (t t' : WriteAhead) : Prop where
  file : ∀ pid page, t'.pool.file pid = some page → t.pool.file pid = some page ∨
    ∃ job, t.pool.Copying job pid page
  copy : ∀ job p pid page, t'.pool.jobs.lookup job = some p → p.copy? = some (pid, page) →
    (t.pool.jobs.lookup job = some p ∧ t'.durableLsn job p = t.durableLsn job p) ∨
    ∃ f, t.pool.frames.lookup pid = some f ∧ f.page = page ∧ NoWriter t.pool pid ∧
      page.pageLsn ≤ t'.durableLsn job p
  written : ∀ i ∈ t'.written, i ∈ t.written ∨ ∃ job, t.nextWrite job = some i

theorem Inv.of_step (hI : Inv B t) (hg : Grows t.pool t'.pool)
    (hframe : ∀ pid f, t'.pool.frames.lookup pid = some f → Resident B t'.pool pid f.page)
    (h : Copies t t') : Inv B t' := by
  refine ⟨hI.books.grows hg, hframe, ?_, ?_, ?_⟩
  · intro pid page hp
    rcases h.file pid page hp with hp | ⟨job, p, hj, hc⟩
    · exact (hI.file pid page hp).grows hg
    · exact (hI.copy job p pid page hj hc).1.grows hg
  · intro job p pid page hj hc
    rcases h.copy job p pid page hj hc with ⟨hj, hd⟩ | ⟨f, hf, rfl, hno, hle⟩
    · obtain ⟨himg, hle⟩ := hI.copy job p pid page hj hc
      exact ⟨himg.grows hg, by rw [hd]; exact hle⟩
    · exact ⟨((hI.frame pid f hf).image hno).grows hg, hle⟩
  · intro i hi
    rcases h.written i hi with hi | ⟨job, hn⟩
    · obtain ⟨himg, hle⟩ := hI.written i hi
      exact ⟨himg.grows hg, hle⟩
    · simp only [nextWrite, Option.bind_eq_some_iff, Option.map_eq_some_iff] at hn
      obtain ⟨p, hj, c, hc, rfl⟩ := hn
      obtain ⟨himg, hle⟩ := hI.copy job p c.1 c.2 hj hc
      exact ⟨himg.grows hg, hle⟩

structure Unchanged (s s' : Pool) : Prop where
  next : s'.nextChange = s.nextChange
  logged : s'.logged = s.logged
  writers : s'.writers = s.writers
  reserved : s'.wal.reservedLsn = s.wal.reservedLsn
  records : s'.wal.records = s.wal.records

theorem Unchanged.grows (h : Unchanged s s') : Grows s s' where
  next := h.next.symm.le
  reserved := h.reserved.symm.le
  records := fun r hr => by rw [h.records]; exact hr
  logged := fun r hr => .inl (by rw [← h.logged]; exact hr)
  modified := fun w pid x hw => .inl (by rw [← h.writers]; exact hw)

theorem Unchanged.resident (h : Unchanged s s') (hb : Books s) (hr : Resident B s pid page) :
    Resident B s' pid page := by
  refine hr.moved hb h.grows
    (.same h.grows.records (fun r hr _ => .inl (by rw [← h.logged]; exact hr)) fun w x e hw => ?_)
  rw [h.writers]
  exact hw

theorem Inv.unchanged (hI : Inv B t) (h : Unchanged t.pool t'.pool)
    (hframe : ∀ pid f', t'.pool.frames.lookup pid = some f' →
      (∃ f, t.pool.frames.lookup pid = some f ∧ f'.page = f.page) ∨ t.pool.file pid = some f'.page ∨
      f'.page = ⟨0, []⟩)
    (hc : Copies t t') : Inv B t' := by
  refine hI.of_step h.grows (fun pid f' hf' => ?_) hc
  rcases hframe pid f' hf' with ⟨f, hf, hp⟩ | hp | hp
  · rw [hp]
    exact h.resident hI.books (hI.frame pid f hf)
  · exact h.resident hI.books (hI.file pid _ hp).resident
  · rw [hp]
    exact ⟨by simp, by simp, fun _ => Nat.zero_le _⟩

structure Mutates (B : Prop) (s s' : Pool) : Prop where
  grows : Grows s s'
  frame : ∀ pid f', s'.frames.lookup pid = some f' → ∃ f, s.frames.lookup pid = some f ∧
    Moved B s s' pid f.page f'.page
  file : s'.file = s.file
  jobs : s'.jobs = s.jobs

theorem Inv.mutate (hI : Inv B t) (h : Mutates B t.pool pool) : Inv B { t with pool } := by
  refine hI.of_step h.grows (fun pid f' hf' => ?_)
    ⟨fun pid page hp => .inl ?_, fun job p pid page hj _ => .inl ⟨?_, rfl⟩, fun i hi => .inl hi⟩
  · obtain ⟨f, hf, hm⟩ := h.frame pid f' hf'
    exact (hI.frame pid f hf).moved hI.books h.grows hm
  · rw [← h.file]
    exact hp
  · rw [← h.jobs]
    exact hj

variable {f' : PoolFrame}

theorem Mutates.pageLsn_le (h : Mutates True s s') (hf : s.frames.lookup pid = some f)
    (hf' : s'.frames.lookup pid = some f') : f.page.pageLsn ≤ f'.page.pageLsn := by
  obtain ⟨g, hg, hm⟩ := h.frame pid f' hf'
  obtain rfl := Option.some.inj (hf.symm.trans hg)
  exact hm.le trivial

theorem mem_changes {x n : Nat} {l : List Nat} (hx : x ∈ n :: l) : x ∈ l ∨ n ≤ x ∧ x < n + 1 := by
  rcases List.mem_cons.1 hx with rfl | hx
  · exact .inr ⟨le_rfl, Nat.lt_succ_self _⟩
  · exact .inl hx

variable {kind : WalRecordKind} {payload : WalPayload} {d tx writer : Nat}
  {written : List PageWrite}

theorem append_endsBy {a : WalAppend} (h : w.append kind tx payload = .ok (a, w')) :
    w.reservedLsn ≤ w'.reservedLsn ∧ w'.reservedLsn = a.endLsn ∧ 1 ≤ a.endLsn ∧
      (∀ r ∈ w.records, r ∈ w'.records) ∧
      w'.EndsBy a.startLsn a.endLsn := by
  have hpos : 0 < walHeaderLen := by decide
  obtain ⟨h1, hend, rfl⟩ := WalCoordinator.append_ok h
  have hle : w.reservedLsn ≤ a.endLsn := by omega
  refine ⟨hle, rfl, by omega, fun r hr => List.mem_append_left _ hr, _,
    List.mem_append_right _ (List.mem_singleton_self _), rfl, ?_⟩
  show a.startLsn + (walHeaderLen + payload.encodedLen) ≤ a.endLsn
  omega

theorem Inv.append (hI : Inv B t)
    (hs : Pool.PoolStep t.pool (.append pid kind tx payload) pool) : Mutates B t.pool pool := by
  cases hs with
  | @append _ _ _ _ f a wal hf hw ha =>
    obtain ⟨hres, hend, hpos, hrec, hnew⟩ := append_endsBy ha
    refine ⟨⟨Nat.le_succ _, hres, hrec, fun r hr => ?_, fun _ _ _ hx => .inl hx⟩, fun q g hq => ?_,
      rfl, rfl⟩
    · rcases List.mem_cons.1 hr with rfl | hr
      · exact .inr ⟨hend ▸ hnew, .inl ⟨le_rfl, Nat.lt_succ_self _⟩⟩
      · exact .inl hr
    · rcases lookup_insert_eq_some.1 hq with ⟨rfl, rfl⟩ | ⟨hne, hq⟩
      · -- the new record is behind everything in the log
        have hlsn := (hI.frame q f hf).lsn
        refine ⟨f, hf, fun _ => mem_changes, fun r hr _ _ _ => ?_, fun hB => ?_,
          fun _ => (hend.ge.trans (le_max_left _ _)).trans (le_max_right _ _), fun r hr _ => ?_,
            fun _ _ _ hx => .inl hx⟩
        · exact endsBy_mono hrec (hend ▸ hres) (hI.books.logged r hr).2
        · have := hlsn hB
          dsimp only
          omega
        rcases List.mem_cons.1 hr with rfl | hr
        · exact .inr (.inl hnew)
        · exact .inl hr
      · refine ⟨g, hq, .same hrec (fun r hr hp => ?_) fun _ _ _ hx => hx⟩
        rcases List.mem_cons.1 hr with rfl | hr
        · exact absurd hp.symm hne
        · exact .inl hr

/-- A page that is given an LSN which covers its records. -/
theorem Covers.moved (page' : PoolPage) (hc : Covers s pid page'.pageLsn)
    (hf : s.frames.lookup pid = some f)
    (hrec : ∀ r ∈ s.wal.records, r ∈ s'.wal.records) (r : LoggedChange) (hr : r ∈ s.logged)
    (hp : r.pid = pid)
    (hx : r.change ∈ f.page.changes) (he : s.wal.EndsBy r.lsn f.page.pageLsn) :
    s'.wal.EndsBy r.lsn page'.pageLsn := by
  rcases hc f hf with hle | hends
  · exact endsBy_mono hrec hle he
  · exact endsBy_mono hrec le_rfl (hends r hr hp hx)

theorem appendUnlogged_mutates (hc : Covers s pid lsn) (hr : B → Raises s pid lsn)
    (hs : Pool.PoolStep s (.appendUnlogged pid lsn) pool) : Mutates B s pool := by
  cases hs with
  | @appendUnlogged _ _ f hf hw =>
    refine ⟨⟨Nat.le_succ _, le_rfl, fun _ hr => hr, fun _ hr => .inl hr, fun _ _ _ hx => .inl hx⟩,
      fun q g hq => ?_, rfl, rfl⟩
    rcases lookup_insert_eq_some.1 hq with ⟨rfl, rfl⟩ | ⟨-, hq⟩
    · exact ⟨f, hf, fun _ => mem_changes, hc.moved ⟨lsn, _⟩ hf fun _ hr => hr,
        fun hB => (hr hB).2 f hf,
        fun hB => (hr hB).1.trans (le_max_right _ _), fun _ hr _ => .inl hr, fun _ _ _ hx =>
          .inl hx⟩
    · exact ⟨g, hq, .same (fun _ hr => hr) (fun _ hr _ => .inl hr) fun _ _ _ hx => hx⟩

theorem modify_mutates (hs : Pool.PoolStep s (.modify writer pid) pool) : Mutates B s pool := by
  cases hs with
  | @modify _ _ f hf hw hnew =>
    have hkeep : ∀ w p, s.writers.lookup w = some p →
        (s.writers.insert writer (.modified pid s.nextChange)).lookup w = some p := by
      intro w p hp
      refine lookup_insert_eq_some.2 (.inr ⟨?_, hp⟩)
      rintro rfl
      rw [hnew] at hp
      cases hp
    refine ⟨⟨Nat.le_succ _, le_rfl, fun _ hr => hr, fun _ hr => .inl hr, fun w q x hx => ?_⟩,
      fun q g hq => ?_, rfl, rfl⟩
    · rcases lookup_insert_eq_some.1 hx with ⟨-, heq⟩ | ⟨-, hx⟩
      · cases heq
        exact .inr ⟨le_rfl, Nat.lt_succ_self _⟩
      · exact .inl hx
    · rcases lookup_insert_eq_some.1 hq with ⟨rfl, rfl⟩ | ⟨-, hq⟩
      · exact ⟨f, hf, fun _ => mem_changes, fun _ _ _ _ he => he, fun _ => le_rfl,
          fun _ => le_max_left _ _,
          fun _ hr _ => .inl hr, fun w x e hx => .inl (hkeep w _ hx)⟩
      · exact ⟨g, hq, .same (fun _ hr => hr) (fun _ hr _ => .inl hr) fun w x e => hkeep w _⟩

theorem log_mutates (hs : Pool.PoolStep s (.log writer kind tx payload) pool) :
    Mutates B s pool := by
  cases hs with
  | @log _ _ pid x _ _ a wal hmod ha =>
    obtain ⟨hres, hend, -, hrec, hnew⟩ := append_endsBy ha
    refine ⟨⟨le_rfl, hres, hrec, fun r hr => ?_, fun w q y hy => ?_⟩,
      fun q g hq => ⟨g, hq, .same hrec (fun r hr hp => ?_) fun w y e hy => ?_⟩, rfl, rfl⟩
    · rcases List.mem_cons.1 hr with rfl | hr
      · exact .inr ⟨hend ▸ hnew, .inr ⟨writer, hmod⟩⟩
      · exact .inl hr
    · rcases lookup_insert_eq_some.1 hy with ⟨-, heq⟩ | ⟨-, hy⟩
      · cases heq
      · exact .inl hy
    · rcases List.mem_cons.1 hr with rfl | hr
      · -- the writer of the new record has still to mark its page
        cases hp
        exact .inr ⟨writer, a.endLsn, lookup_insert_eq_some.2 (.inl ⟨rfl, rfl⟩), hnew⟩
      · exact .inl hr
    · refine lookup_insert_eq_some.2 (.inr ⟨?_, hy⟩)
      rintro rfl
      rw [hmod] at hy
      cases hy

theorem grows_eraseWriter {frames : AList (fun _ : Nat => PoolFrame)} :
    Grows s { s with frames, writers := s.writers.erase writer } :=
  ⟨le_rfl, le_rfl, fun _ hr => hr, fun _ hr => .inl hr,
    fun _ _ _ hx => .inl (lookup_erase_eq_some.1 hx).2⟩

theorem Covered.markDirty (hcov : t.Covered (.markDirty writer lsn))
    (hord : B → t.Ordered (.markDirty writer lsn))
    (hs : Pool.PoolStep t.pool (.markDirty writer lsn) pool) : Mutates B t.pool pool := by
  cases hs with
  | @markDirty _ _ pid l f hm hf hw =>
    have hc : Covers t.pool pid l := by simpa only [Covered, CopiesAlone, hm] using hcov
    have hr : B → Raises t.pool pid l := by simpa only [Ordered, CopiesAlone, hm] using hord
    refine ⟨grows_eraseWriter, fun q g hq => ?_, rfl, rfl⟩
    rcases lookup_insert_eq_some.1 hq with ⟨rfl, rfl⟩ | ⟨hne, hq⟩
    · refine ⟨f, hf, fun _ hx => .inl hx, hc.moved ⟨l, _⟩ hf fun _ hr => hr,
        fun hB => (hr hB).2 f hf,
        fun hB => (hr hB).1.trans (le_max_right _ _), fun _ hr _ => .inl hr, fun w x e hx => ?_⟩
      by_cases hwe : w = writer
      · -- this writer's own record
        subst hwe
        simp only [Pool.markedPage, hx, Option.some.injEq, Prod.mk.injEq] at hm
        exact .inr hm.2.le
      · exact .inl (lookup_erase_eq_some.2 ⟨hwe, hx⟩)
    · refine ⟨g, hq, .same (fun _ hr => hr) (fun _ hr _ => .inl hr) fun w x e hx =>
        lookup_erase_eq_some.2 ⟨?_, hx⟩⟩
      rintro rfl
      exact hne (Pool.markedPage_pid hm hx)

theorem abandon_mutates (hs : Pool.PoolStep s (.abandon writer) pool) : Mutates B s pool := by
  cases hs with
  | @abandon _ pid x hmod =>
    refine ⟨grows_eraseWriter,
      fun q g hq => ⟨g, hq, .same (fun _ hr => hr) (fun r hr _ => .inl hr) fun w y e hy => ?_⟩,
      rfl, rfl⟩
    refine lookup_erase_eq_some.2 ⟨?_, hy⟩
    rintro rfl
    rw [hmod] at hy
    cases hy

theorem Unchanged.setWal {wal : WalCoordinator} {target : Nat}
    (hf : s.wal.flushUntil target = .ok (d, wal)) :
    Unchanged s { s with wal } := by
  simp only [WalCoordinator.flushUntil, bind_eq_ok, pure_eq_ok, Prod.mk.injEq] at hf
  obtain ⟨_, -, rfl, rfl⟩ := hf
  exact ⟨rfl, rfl, rfl, rfl, rfl⟩

section
variable (hI : Inv B t)
include hI

theorem Inv.frames (h : Unchanged t.pool pool)
    (hframe : ∀ pid f', pool.frames.lookup pid = some f' →
      (∃ f, t.pool.frames.lookup pid = some f ∧ f'.page = f.page) ∨ t.pool.file pid = some f'.page ∨
      f'.page = ⟨0, []⟩)
    (hfile : pool.file = t.pool.file)
    (hjobs : ∀ job p, pool.jobs.lookup job = some p → p.copy? ≠ none →
    t.pool.jobs.lookup job = some p) :
    Inv B { t with pool } := by
  refine hI.unchanged h hframe
    ⟨fun pid page hp => .inl ?_, fun job p pid page hj hc => .inl ⟨?_, rfl⟩, fun i hi => .inl hi⟩
  · rw [← hfile]
    exact hp
  · exact hjobs job p hj (by rw [hc]; simp)

theorem Inv.allocate (hs : Pool.PoolStep t.pool .allocate pool) : Inv B { t with pool } := by
  cases hs with
  | allocate hn =>
    refine hI.frames ⟨rfl, rfl, rfl, rfl, rfl⟩ (fun q g hq => ?_) rfl fun _ _ hj _ => hj
    rcases lookup_insert_eq_some.1 hq with ⟨-, rfl⟩ | ⟨-, hq⟩
    · exact .inr (.inr rfl)
    · exact .inl ⟨g, hq, rfl⟩

theorem Inv.load (hs : Pool.PoolStep t.pool (.load pid) pool) : Inv B { t with pool } := by
  cases hs with
  | load hn hfile =>
    refine hI.frames ⟨rfl, rfl, rfl, rfl, rfl⟩ (fun q g hq => ?_) rfl fun _ _ hj _ => hj
    rcases lookup_insert_eq_some.1 hq with ⟨rfl, rfl⟩ | ⟨-, hq⟩
    · exact .inr (.inl hfile)
    · exact .inl ⟨g, hq, rfl⟩

theorem Inv.evict (hs : Pool.PoolStep t.pool (.evict pid) pool) : Inv B { t with pool } := by
  cases hs with
  | evict hf hw hclean hno =>
    refine hI.frames ⟨rfl, rfl, rfl, rfl, rfl⟩ (fun q g hq => ?_) rfl fun _ _ hj _ => hj
    exact .inl ⟨g, (lookup_erase_eq_some.1 hq).2, rfl⟩

theorem Inv.writeLog (hs : Pool.PoolStep t.pool (.writeLog lsn) pool) : Inv B { t with pool } := by
  cases hs with
  | writeLog hle hf =>
    exact hI.frames (.setWal hf) (fun q g hq => .inl ⟨g, hq, rfl⟩) rfl fun _ _ hj _ => hj

theorem Inv.visit (hs : Pool.PoolStep t.pool (.visit job pid) pool) : Inv B { t with pool } := by
  cases hs with
  | visit hj =>
    refine hI.frames ⟨rfl, rfl, rfl, rfl, rfl⟩ (fun q g hq => .inl ⟨g, hq, rfl⟩) rfl
      fun j p hp hc => ?_
    rcases lookup_insert_eq_some.1 hp with ⟨-, rfl⟩ | ⟨-, hp⟩
    · exact absurd rfl hc
    · exact hp

theorem Inv.copied {p : FlushPhase} {durables : AList (fun _ : Nat => Nat)}
    (hf : t.pool.frames.lookup pid = some f) (hno : NoWriter t.pool pid)
    (hp : p.copy? = some (pid, f.page))
    (hle : f.page.pageLsn ≤ p.lsn?.getD ((durables.lookup job).getD 0))
    (hd : ∀ j, j ≠ job → durables.lookup j = t.durables.lookup j)
    (hw : ∀ i ∈ written, i ∈ t.written ∨ ∃ job, t.nextWrite job = some i) :
    Inv B ⟨(t.pool.setFrame pid { f with writeInProgress := true }).setJob job p, durables,
      written⟩ := by
  refine hI.unchanged ⟨rfl, rfl, rfl, rfl, rfl⟩ (fun q g hq => .inl ?_)
    ⟨fun _ _ hq => .inl hq, ?_, hw⟩
  · rcases lookup_insert_eq_some.1 hq with ⟨rfl, rfl⟩ | ⟨-, hq⟩
    · exact ⟨f, hf, rfl⟩
    · exact ⟨g, hq, rfl⟩
  · intro j p' q page hj hc
    rcases lookup_insert_eq_some.1 hj with ⟨rfl, rfl⟩ | ⟨hne, hj⟩
    · rw [hp] at hc
      cases hc
      exact .inr ⟨f, hf, rfl, hno, hle⟩
    · exact .inl ⟨hj, by simp only [durableLsn, hd j hne]⟩

theorem Inv.flushPage (hno : NoWriter t.pool pid) (hs : t.pool.flushPage job pid d = .ok pool) :
    Inv B { t with pool, durables := t.durables.insert job d } := by
  unfold Pool.flushPage at hs
  split at hs
  · next page s₁ hj hb =>
    cases hs
    obtain ⟨f, hf, -, hle, rfl, rfl⟩ := Pool.beginWrite_ok hb
    refine hI.copied hf hno rfl ?_ (fun j hne => AList.lookup_insert_ne hne) fun i hi => .inl hi
    simp only [FlushPhase.lsn?, AList.lookup_insert, Option.getD_some, Option.getD_none]
    exact hle
  · cases hs

omit hI in
theorem endWrite_same : (s.endWrite pid page).wal = s.wal ∧
    (s.endWrite pid page).logged = s.logged ∧
    (s.endWrite pid page).writers = s.writers ∧
    (s.endWrite pid page).nextChange = s.nextChange := by
  unfold Pool.endWrite
  dsimp only
  split <;> exact ⟨rfl, rfl, rfl, rfl⟩

omit hI in
theorem lookup_endWrite {q : Nat} (h : (s.endWrite pid page).frames.lookup q = some f') :
    ∃ f, s.frames.lookup q = some f ∧ f'.page = f.page := by
  unfold Pool.endWrite at h
  dsimp only at h
  split at h
  · next f hf =>
    rcases lookup_insert_eq_some.1 h with ⟨rfl, rfl⟩ | ⟨-, h⟩
    · exact ⟨f, hf, rfl⟩
    · exact ⟨f', h, rfl⟩
  · exact ⟨f', h, rfl⟩

omit hI in
theorem file_endWrite :
    (s.endWrite pid page).file = fun q => if q = pid then some page else s.file q := by
  unfold Pool.endWrite
  dsimp only
  split <;> rfl

theorem Inv.wrote {jobs : AList (fun _ : Nat => FlushPhase)} (hj : t.pool.Copying job pid page)
    (hjobs : ∀ j p, jobs.lookup j = some p → p.copy? ≠ none → t.pool.jobs.lookup j = some p)
    (hw : ∀ i ∈ written, i ∈ t.written ∨ ∃ job, t.nextWrite job = some i) :
    Inv B { t with pool := { t.pool.endWrite pid page with jobs }, written } := by
  obtain ⟨hwal, hlog, hwr, hnext⟩ := @endWrite_same t.pool pid page
  refine hI.unchanged ⟨hnext, hlog, hwr, by rw [hwal], by rw [hwal]⟩
    (fun q g hq => .inl (lookup_endWrite hq)) ⟨?_, ?_, hw⟩
  · intro q p hp
    simp only [file_endWrite] at hp
    split at hp
    · next hq =>
      cases hp
      exact .inr ⟨job, hq ▸ hj⟩
    · exact .inl hp
  · intro j p q page' hj' hc
    exact .inl ⟨hjobs j p hj' (by rw [hc]; simp), rfl⟩

theorem Inv.setJob {p : FlushPhase} (hp : p.copy? = none) (h : Unchanged t.pool pool)
    (hframes : pool.frames = t.pool.frames) (hfile : pool.file = t.pool.file)
    (hjobs : pool.jobs = t.pool.jobs.insert job p)
    (hw : ∀ i ∈ written, i ∈ t.written ∨ ∃ job, t.nextWrite job = some i) :
    Inv B { t with pool, written } := by
  refine hI.unchanged h (fun q g hq => .inl ⟨g, by rw [← hframes]; exact hq, rfl⟩)
    ⟨fun q page hq => .inl (by rw [← hfile]; exact hq), ?_, hw⟩
  intro j p' q page hj hc
  rw [hjobs] at hj
  rcases lookup_insert_eq_some.1 hj with ⟨-, rfl⟩ | ⟨-, hj⟩
  · rw [hp] at hc
    cases hc
  · exact .inl ⟨hj, rfl⟩

theorem Inv.flush (hcov : t.Covered (.flush job)) (hs : t.pool.flush job = .ok pool) :
    Inv B { t with pool, written := (t.nextWrite job).toList ++ t.written } := by
  have hw : ∀ i ∈ (t.nextWrite job).toList ++ t.written, i ∈ t.written ∨
      ∃ job, t.nextWrite job = some i := by
    intro i hi
    rcases List.mem_append.1 hi with hi | hi
    · exact .inr ⟨job, Option.mem_toList.1 hi⟩
    · exact .inl hi
  have hinsert : ∀ {p : FlushPhase}, p.copy? = none → ∀ j p', (t.pool.jobs.insert job p).lookup j =
      some p' →
      p'.copy? ≠ none → t.pool.jobs.lookup j = some p' := by
    intro p hp j p' hj hc
    rcases lookup_insert_eq_some.1 hj with ⟨-, rfl⟩ | ⟨-, hj⟩
    · exact absurd hp hc
    · exact hj
  have hsame : ∀ p, Unchanged t.pool (t.pool.setJob job p) := fun p => ⟨rfl, rfl, rfl, rfl, rfl⟩
  have hstep := Pool.flush_ok hs
  cases hstep with
  | start hj => exact hI.setJob rfl (hsame _) rfl rfl rfl hw
  | flushAll hj hf =>
    have hu := Unchanged.setWal hf
    exact hI.setJob rfl { hu with } rfl rfl rfl hw
  | collected hj hall => exact hI.setJob rfl (hsame _) rfl rfl rfl hw
  | short hj hlt => exact hI.setJob rfl (hsame _) rfl rfl rfl hw
  | again hj => exact hI.setJob rfl (hsame _) rfl rfl rfl hw
  | @copy c pid flushed todo f hj hf =>
    have hno : NoWriter t.pool pid := by simpa only [Covered, CopiesAlone, hj] using hcov
    -- the page was copied, so its LSN was durable
    have hle : f.page.pageLsn ≤ c := by
      simp only [Pool.flush, hj] at hs
      split at hs
      · next hb =>
        obtain ⟨g, hg, -, hle, -, -⟩ := Pool.beginWrite_ok hb
        rw [hf] at hg
        cases hg
        exact hle
      · next hb =>
        have hjobs := congrArg (fun s => (Pool.jobs s).lookup job) (Except.ok.inj hs)
        simp [Pool.setJob] at hjobs
    exact hI.copied hf hno rfl hle (fun _ _ => rfl) hw
  | skip hj hnot => exact hI.setJob rfl (hsame _) rfl rfl rfl hw
  | @write c pid flushed page todo hj =>
    simp only [Pool.setJob, Pool.jobs_endWrite]
    exact hI.wrote ⟨_, hj, rfl⟩ (hinsert rfl) hw
  | control hj => exact hI.setJob rfl (hsame _) rfl rfl rfl hw
  | single hj =>
    refine hI.wrote ⟨_, hj, rfl⟩ (fun j p hp hc => ?_) hw
    exact (lookup_erase_eq_some.1 hp).2

theorem Inv.step {a : PoolAction} (hcov : t.Covered a) (hord : B → t.Ordered a)
    (hs : t.step a = .ok t') : Inv B t' := by
  simp only [WriteAhead.step, bind_eq_ok] at hs
  obtain ⟨pool, hpool, hs⟩ := hs
  have hstep := Pool.step_ok hpool
  cases a with
  | flushPage job pid d =>
    cases hs
    exact hI.flushPage hcov hpool
  | flush job =>
    cases hs
    exact hI.flush hcov hpool
  | allocate =>
    cases hs
    exact hI.allocate hstep
  | load pid =>
    cases hs
    exact hI.load hstep
  | evict pid =>
    cases hs
    exact hI.evict hstep
  | append pid kind tx payload =>
    cases hs
    exact hI.mutate (hI.append hstep)
  | appendUnlogged pid lsn =>
    cases hs
    exact hI.mutate (appendUnlogged_mutates hcov hord hstep)
  | modify writer pid =>
    cases hs
    exact hI.mutate (modify_mutates hstep)
  | log writer kind tx payload =>
    cases hs
    exact hI.mutate (log_mutates hstep)
  | markDirty writer lsn =>
    cases hs
    exact hI.mutate (hcov.markDirty hord hstep)
  | abandon writer =>
    cases hs
    exact hI.mutate (abandon_mutates hstep)
  | writeLog lsn =>
    cases hs
    exact hI.writeLog hstep
  | visit job pid =>
    cases hs
    exact hI.visit hstep

omit hI in
theorem page_flushStep (hs : Pool.FlushStep s job s') (hf : s.frames.lookup pid = some f)
    (hf' : s'.frames.lookup pid = some f') : f'.page = f.page := by
  have hsame : ∀ {g : PoolFrame}, s.frames.lookup pid = some g → g.page = f.page := by
    intro g hg
    rw [hf] at hg
    cases hg
    rfl
  cases hs with
  | @copy c q flushed todo g hj hg =>
    rcases lookup_insert_eq_some.1 hf' with ⟨rfl, rfl⟩ | ⟨-, hf'⟩
    · exact (hsame hg :)
    · exact hsame hf'
  | write hj =>
    obtain ⟨g, hg, hp⟩ := lookup_endWrite hf'
    exact hp.trans (hsame hg)
  | single hj =>
    obtain ⟨g, hg, hp⟩ := lookup_endWrite hf'
    exact hp.trans (hsame hg)
  | start | flushAll | collected | short | again | skip | control => exact hsame hf'

omit hI in
theorem Inv.pageLsn_le {a : PoolAction} (hI : Inv True t) (hord : t.Ordered a)
    (hs : t.step a = .ok t')
    (hf : t.pool.frames.lookup pid = some f) (hf' : t'.pool.frames.lookup pid = some f') :
    f.page.pageLsn ≤ f'.page.pageLsn := by
  simp only [WriteAhead.step, bind_eq_ok] at hs
  obtain ⟨pool, hpool, hs⟩ := hs
  have hpool' : t'.pool = pool := by
    cases a <;> cases hs <;> rfl
  rw [hpool'] at hf'
  have hstep := Pool.step_ok hpool
  have hsame : ∀ {g : PoolFrame}, t.pool.frames.lookup pid = some g →
      f.page.pageLsn ≤ g.page.pageLsn := by
    intro g hg
    rw [hf] at hg
    cases hg
    exact le_rfl
  cases hstep with
  | allocate hn =>
    rcases lookup_insert_eq_some.1 hf' with ⟨rfl, -⟩ | ⟨-, hf'⟩
    · rw [hf] at hn
      cases hn
    · exact hsame hf'
  | load hn hfile =>
    rcases lookup_insert_eq_some.1 hf' with ⟨rfl, -⟩ | ⟨-, hf'⟩
    · rw [hf] at hn
      cases hn
    · exact hsame hf'
  | evict => exact hsame (lookup_erase_eq_some.1 hf').2
  | append hg hw ha => exact (hI.append (.append hg hw ha)).pageLsn_le hf hf'
  | appendUnlogged hg hw =>
    have hm :=
      appendUnlogged_mutates (B := True) hord.covered (fun _ => hord) (.appendUnlogged hg hw)
    exact hm.pageLsn_le hf hf'
  | modify hg hw hnew => exact (modify_mutates (.modify hg hw hnew)).pageLsn_le hf hf'
  | markDirty hm hg hw =>
    exact (hord.covered.markDirty (fun _ => hord) (.markDirty hm hg hw)).pageLsn_le hf hf'
  | flushPage hj hg =>
    rcases lookup_insert_eq_some.1 hf' with ⟨rfl, rfl⟩ | ⟨-, hf'⟩
    · exact (hsame hg :)
    · exact hsame hf'
  | flush hflush => exact (congrArg PoolPage.pageLsn (page_flushStep hflush hf hf')).symm.le
  | log | abandon | writeLog | visit => exact hsame hf'

end

/-- Every image written has only changes whose records end by the durable LSN of its write. When no
LSN is ever lowered below that of its page or raised above the log, no step lowers the LSN of a
resident page. -/
theorem write_ahead_rule {s : Pool} (hopen : Opened s) :
    (∀ acts t, Run step Covered (start s) acts t → ∀ i ∈ t.written, ∀ r ∈ t.pool.logged,
      r.pid = i.pid →
      r.change ∈ i.page.changes → t.pool.wal.EndsBy r.lsn i.durableLsn) ∧
    ∀ acts t, Run step Ordered (start s) acts t → ∀ a t', t.Ordered a → t.step a = .ok t' →
      ∀ pid f f',
      t.pool.frames.lookup pid = some f → t'.pool.frames.lookup pid = some f' →
        f.page.pageLsn ≤ f'.page.pageLsn := by
  constructor
  · intro acts t hrun i hi r hr hp hx
    have hI : Inv False t := hrun.invariant (I := fun _ t => Inv False t) (inv_start hopen)
      fun _ _ _ _ hI hcov hs => hI.step hcov False.elim hs
    obtain ⟨himg, hle⟩ := hI.written i hi
    exact endsBy_mono (fun _ hr => hr) hle (himg.ends r hr hp hx)
  · intro acts t hrun a t' hord hs pid f f'
    have hI : Inv True t := hrun.invariant (I := fun _ t => Inv True t) (inv_start hopen)
      fun _ _ _ _ hI hord hs => hI.step hord.covered (fun _ => hord) hs
    exact hI.pageLsn_le hord hs

def emptyPool : Pool := .openFile (fun _ => none) 0 1000 1000 []

theorem opened_emptyPool : Opened emptyPool := by
  refine ⟨rfl, rfl, rfl, by simp [emptyPool, Pool.openFile], ?_⟩
  intro pid page hp
  simp [emptyPool, Pool.openFile] at hp

/-- A row is inserted, vacuum overwrites a tuple of its page and marks the page with LSN 0, and an
eviction that waits for nothing writes the page. -/
theorem vacuum_lowers_page_lsn : ∃ acts t, Run step (fun _ _ => True) (start emptyPool) acts t ∧
    ∃ i ∈ t.written, ∃ r ∈ t.pool.logged, r.pid = i.pid ∧ r.change ∈ i.page.changes ∧
      ¬ t.pool.wal.EndsBy r.lsn i.durableLsn :=
  ⟨[.allocate, .append 1 .pageDelta 1 (.heapInsert 1 1 1 []), .modify 0 1, .markDirty 0 0,
    .flushPage 0 1 0, .flush 0],
    by decide +kernel⟩

/-- An insert, then CREATE INDEX, whose page is written once its log is durable. -/
theorem write_ahead_rule_in_turn : ∃ acts t, Run step Covered (start emptyPool) acts t ∧
    t.written ≠ [] ∧
    ∀ i ∈ t.written, ∀ r ∈ t.pool.logged, r.pid = i.pid → r.change ∈ i.page.changes →
      t.pool.wal.EndsBy r.lsn i.durableLsn := by
  obtain ⟨t, hrun, ht⟩ : ∃ t, Run step Covered (start emptyPool)
      [.allocate, .append 1 .pageDelta 1 (.heapInsert 1 1 1 []), .allocate, .modify 0 2,
        .markDirty 0 (2 ^ 64 - 1),
        .modify 0 2, .log 0 .pageDelta 1 (.heapInsert 1 1 2 []), .markDirty 0 0, .writeLog 154,
          .flushPage 0 2 154,
        .flush 0] t ∧ t.written.length = 1 := by decide +kernel
  refine ⟨_, t, hrun, ?_, (write_ahead_rule opened_emptyPool).1 _ t hrun⟩
  exact List.ne_nil_of_length_pos (by omega)

end WriteAhead
end RedlineDb
