import RedlineDb.PoolInvariant

/-!
# Writers during the flush of a checkpoint

A checkpoint takes the LSN up to which recovery will skip the log, and then writes the dirty pages
whose LSN is not above it, in batches, until a batch is short. A page changed again in between has a
higher LSN and is skipped with all its older changes; a page that another flusher took makes a batch
short. The invariant says of each checkpoint which pages it will still come to.
-/

namespace RedlineDb
open Lib List
namespace Pool
variable {s s' : Pool} {pid job c : Nat} {f : PoolFrame}

/-! ### What a checkpoint still has to write -/

def Holds (s : Pool) (c pid x : Nat) : Prop :=
  ∃ f, s.frames.lookup pid = some f ∧ f.dirty = true ∧ f.page.pageLsn ≤ c ∧ x ∈ f.page.changes

def Keeps (s s' : Pool) (cs : List Nat) : Prop :=
  ∀ pid x, (x ∈ s.onDisk pid → x ∈ s'.onDisk pid) ∧
    ∀ c ∈ cs, s.Holds c pid x → x ∈ s'.onDisk pid ∨ s'.Holds c pid x

variable {cs : List Nat}

theorem Keeps.of_frames (hfile : s'.file = s.file)
    (h : ∀ pid f, s.frames.lookup pid = some f → f.dirty = true →
      ∃ f', s'.frames.lookup pid = some f' ∧ f'.dirty = true ∧
        (∀ x ∈ f.page.changes, x ∈ f'.page.changes) ∧
        ∀ c ∈ cs, f.page.pageLsn ≤ c → f'.page.pageLsn ≤ c) : Keeps s s' cs := by
  intro pid x
  refine ⟨fun hx => by unfold Pool.onDisk; rw [hfile]; exact hx, ?_⟩
  rintro c hc ⟨f, hf, hd, hl, hx⟩
  obtain ⟨f', h1, h2, h3, h4⟩ := h pid f hf hd
  exact .inr ⟨f', h1, h2, h4 c hc hl, h3 x hx⟩

theorem Keeps.of_same (hfile : s'.file = s.file) (hframes : s'.frames = s.frames) :
    Keeps s s' cs := by
  refine .of_frames hfile ?_
  intro pid f hf hd
  rw [hframes]
  exact ⟨f, hf, hd, fun x hx => hx, fun c _ h => h⟩

theorem Keeps.of_setFrame (hfile : s'.file = s.file) (hframes : s'.frames = s.frames.insert pid f)
    (h : ∀ g, s.frames.lookup pid = some g → g.dirty = true → f.dirty = true ∧
      (∀ x ∈ g.page.changes, x ∈ f.page.changes) ∧
      ∀ c ∈ cs, g.page.pageLsn ≤ c → f.page.pageLsn ≤ c) : Keeps s s' cs := by
  refine .of_frames hfile ?_
  intro q g hg hd
  rw [hframes]
  by_cases hq : q = pid
  · subst hq
    exact ⟨f, AList.lookup_insert _, h g hg hd⟩
  · exact ⟨g, (AList.lookup_insert_ne hq).trans hg, hd, fun x hx => hx, fun c _ hl => hl⟩

theorem Keeps.endWrite {page : PoolPage} (hI : PoolInv s) (hj : s.Copying job pid page)
    {jobs : AList (fun _ : Nat => FlushPhase)} : Keeps s { s.endWrite pid page with jobs } cs := by
  obtain ⟨f, hf, -, hp⟩ := (hI.page pid).copies job page hj
  have hfile : (s.endWrite pid page).file = fun q => if q = pid then some page else s.file q := by
    rw [endWrite_eq hf hp]
    rfl
  have hdisk : ({ s.endWrite pid page with jobs } : Pool).onDisk pid = f.page.changes := by
    simp [Pool.onDisk, hfile, hp]
  intro q x
  by_cases hq : q = pid
  · subst hq
    rw [hdisk]
    refine ⟨(hI.page q).disk f hf x, ?_⟩
    rintro c - ⟨g, hg, -, -, hx⟩
    rw [hf] at hg
    cases hg
    exact .inl hx
  · have hsame : ({ s.endWrite pid page with jobs } : Pool).onDisk q = s.onDisk q := by
      simp [Pool.onDisk, hfile, hq]
    refine ⟨fun hx => by rw [hsame]; exact hx, ?_⟩
    rintro c - ⟨g, hg, hd, hl, hx⟩
    refine .inr ⟨g, ?_, hd, hl, hx⟩
    rw [endWrite_eq hf hp]
    exact (AList.lookup_insert_ne hq).trans hg

theorem FlushStep.keeps (hI : PoolInv s) (hs : FlushStep s job s') : Keeps s s' cs := by
  cases hs with
  | copy hj hf =>
    refine .of_setFrame rfl rfl ?_
    intro g hg hd
    rw [hf] at hg
    cases hg
    exact ⟨hd, fun x hx => hx, fun c _ hl => hl⟩
  | write hj => exact .endWrite hI ⟨_, hj, rfl⟩
  | single hj => exact .endWrite hI ⟨_, hj, rfl⟩
  | _ => exact .of_same rfl rfl

variable {a : PoolAction}

theorem PoolStep.keeps (hI : PoolInv s) (hok : s.Undisturbed a) (hs : PoolStep s a s') :
    Keeps s s' s.flushLsns := by
  -- a page that a checkpoint still has to write is dirty with an LSN not above the checkpoint's
  have hpend : ∀ {pid c f}, s.frames.lookup pid = some f → f.dirty = true → f.page.pageLsn ≤ c →
      s.isPending pid c = true :=
    fun hf hd hl => isPending_iff.2 ⟨_, hf, hd, hl⟩
  cases hs with
  | allocate hn =>
    refine .of_setFrame rfl rfl ?_
    intro g hg
    rw [hn] at hg
    cases hg
  | load hn hfile =>
    refine .of_setFrame rfl rfl ?_
    intro g hg
    rw [hn] at hg
    cases hg
  | @evict pid f hf hw hclean hno =>
    refine .of_frames rfl ?_
    intro q g hg hd
    have hq : q ≠ pid := by
      rintro rfl
      rw [hf] at hg
      cases hg
      rw [hclean] at hd
      cases hd
    exact ⟨g, (AList.lookup_erase_ne hq).trans hg, hd, fun x hx => hx, fun c _ hl => hl⟩
  | append hf hw ha =>
    refine .of_setFrame rfl rfl ?_
    intro g hg hd
    rw [hf] at hg
    cases hg
    refine ⟨rfl, fun x hx => mem_cons_of_mem _ hx, ?_⟩
    intro c hc hl
    have h := hok c hc
    rw [hpend hf hd hl] at h
    cases h
  | appendUnlogged hf hw =>
    refine .of_setFrame rfl rfl ?_
    intro g hg hd
    rw [hf] at hg
    cases hg
    exact ⟨rfl, fun x hx => mem_cons_of_mem _ hx, fun c hc hl => hok c hc (hpend hf hd hl)⟩
  | modify hf hw hnew =>
    refine .of_setFrame rfl rfl ?_
    intro g hg hd
    rw [hf] at hg
    cases hg
    exact ⟨hd, fun x hx => mem_cons_of_mem _ hx, fun c _ hl => hl⟩
  | markDirty hm hf hw =>
    simp only [Undisturbed, hm] at hok
    refine .of_setFrame rfl rfl ?_
    intro g hg hd
    rw [hf] at hg
    cases hg
    exact ⟨rfl, fun x hx => hx, fun c hc hl => hok c hc (hpend hf hd hl)⟩
  | flushPage hj hf =>
    refine .of_setFrame rfl rfl ?_
    intro g hg hd
    rw [hf] at hg
    cases hg
    exact ⟨hd, fun x hx => hx, fun c _ hl => hl⟩
  | flush hs => exact hs.keeps hI
  | _ => exact .of_same rfl rfl

/-! ### The loop over the batches -/

/-- The pages a checkpoint will come to: those not looked at or found in this round, and all others
when the batch is full, because another round follows. -/
def ToCome : FlushPhase → Nat → Prop
  | .collecting _ start seen found, pid => (pid ∈ start ∧ pid ∉ seen) ∨ pid ∈ found
  | .batch _ todo flushed, pid => pid ∈ todo ∨ flushed + todo.length = defaultCheckpointBatchPages
  | .writing _ cur _ todo flushed, pid => pid = cur ∨ pid ∈ todo ∨
      flushed + 1 + todo.length = defaultCheckpointBatchPages
  | _, _ => False

def Covered (s : Pool) (p : FlushPhase) (c : Nat) (O : Nat → Nat → Prop) : Prop :=
  ∀ pid x, O pid x → x ∈ s.onDisk pid ∨ (s.Holds c pid x ∧ ToCome p pid)

variable {O : Nat → Nat → Prop} {p : FlushPhase}

theorem ToCome.flushLsn (h : ToCome p pid) (hc : p.lsn? = some c) : p.flushLsn? = some c := by
  cases p with
  | collecting c' start seen found => exact hc
  | batch c' todo flushed => exact hc
  | writing c' cur page todo flushed => exact hc
  | _ => cases h

theorem Covered.next {p' : FlushPhase} (hC : Covered s p c O) (hK : Keeps s s' s.flushLsns)
    (hj : s.jobs.lookup job = some p) (hc : p.lsn? = some c)
    (h : ∀ pid x, s.Holds c pid x → s'.Holds c pid x → ToCome p pid → ToCome p' pid) :
    Covered s' p' c O := by
  intro pid x hO
  rcases hC pid x hO with hx | ⟨hh, ht⟩
  · exact .inl ((hK pid x).1 hx)
  · rcases (hK pid x).2 c (mem_flushLsns hj (ht.flushLsn hc)) hh with hx | hh'
    · exact .inl hx
    · exact .inr ⟨hh', h pid x hh hh' ht⟩

theorem mem_take_batch {found : List Nat} (h : pid ∈ found) :
    pid ∈ found.take (min defaultCheckpointBatchPages (max found.length 1)) ∨
      (found.take (min defaultCheckpointBatchPages (max found.length 1))).length =
      defaultCheckpointBatchPages := by
  by_cases hle : found.length ≤ defaultCheckpointBatchPages
  · left
    rw [take_of_length_le (by omega)]
    exact h
  · right
    rw [length_take]
    omega

theorem Covered.flush (hI : PoolInv s) (hok : s.Undisturbed (.flush job)) (hs : FlushStep s job s')
    (hj : s.jobs.lookup job = some p) (hc : p.lsn? = some c) (hC : Covered s p c O) :
    ∃ p', s'.jobs.lookup job = some p' ∧ p'.lsn? = some c ∧ Covered s' p' c O := by
  have hK : Keeps s s' s.flushLsns := hs.keeps hI
  cases hs with
  | start hj' => rw [hj] at hj'; cases hj'
  | flushAll hj' hf => rw [hj] at hj'; cases hj'; cases hc
  | collected hj' hall =>
    rw [hj] at hj'
    cases hj'
    refine ⟨_, (lookup_setJob job).trans (if_pos rfl), hc, hC.next hK hj hc ?_⟩
    rintro pid x - - (⟨h1, h2⟩ | h)
    · exact absurd (hall pid h1) h2
    · rcases mem_take_batch h with h | h
      · exact .inl h
      · exact .inr (by rw [Nat.zero_add]; exact h)
  | short hj' hlt =>
    rw [hj] at hj'
    cases hj'
    refine ⟨_, (lookup_setJob job).trans (if_pos rfl), hc, hC.next hK hj hc ?_⟩
    rintro pid x - - (h | h)
    · cases h
    · exact absurd h hlt.ne
  | again hj' =>
    rw [hj] at hj'
    cases hj'
    refine ⟨_, (lookup_setJob job).trans (if_pos rfl), hc, hC.next hK hj hc ?_⟩
    rintro pid x ⟨f, hf, -⟩ - -
    exact .inl ⟨AList.mem_keys.1 (AList.lookup_isSome.1 (by rw [hf]; rfl)), by simp⟩
  | copy hj' hf =>
    rw [hj] at hj'
    cases hj'
    refine ⟨_, (lookup_setJob job).trans (if_pos rfl), hc, hC.next hK hj hc ?_⟩
    rintro pid x - - (h | h)
    · rcases mem_cons.1 h with h | h
      · exact .inl h
      · exact .inr (.inl h)
    · rw [length_cons] at h
      exact .inr (.inr (by omega))
  | skip hj' hnot =>
    obtain ⟨f, hf, hd, -, hl⟩ := hok.batch hj'
    simp [Pool.beginWrite, hf, hd, hl] at hnot
  | write hj' =>
    rw [hj] at hj'
    cases hj'
    refine ⟨_, (lookup_setJob job).trans (if_pos rfl), hc, hC.next hK hj hc ?_⟩
    rintro pid x - hh (rfl | h | h)
    · -- its frame is clean now
      obtain ⟨f, hf, -, hp⟩ := (hI.page pid).copies job _ ⟨_, hj, rfl⟩
      rw [endWrite_eq hf hp] at hh
      obtain ⟨g, hg, hd, -⟩ := hh
      have hg' := hg.symm.trans (lookup_setFrame.trans (if_pos rfl))
      cases hg'
      cases hd
    · exact .inl h
    · exact .inr h
  | control hj' =>
    rw [hj] at hj'
    cases hj'
    exact ⟨_, (lookup_setJob job).trans (if_pos rfl), hc, hC.next hK hj hc fun _ _ _ _ h => h.elim⟩
  | single hj' => rw [hj] at hj'; cases hj'; cases hc

theorem Covered.visit (hok : s.Undisturbed (.visit job pid)) (hs : PoolStep s (.visit job pid) s')
    (hj : s.jobs.lookup job = some p) (hc : p.lsn? = some c) (hC : Covered s p c O) :
    ∃ p', s'.jobs.lookup job = some p' ∧ p'.lsn? = some c ∧ Covered s' p' c O := by
  cases hs with
  | visit hj' =>
    rw [hj] at hj'
    cases hj'
    cases hc
    simp only [Undisturbed, hj] at hok
    refine ⟨_, (lookup_setJob job).trans (if_pos rfl), rfl, hC.next (.of_same rfl rfl) hj rfl ?_⟩
    rintro q x hh - (⟨h1, h2⟩ | h)
    · by_cases hq : q = pid
      · subst hq
        right
        obtain ⟨f, hf, hd, hl, -⟩ := hh
        have hw := (isWriting_eq_false hf).1 (hok (isPending_iff.2 ⟨f, hf, hd, hl⟩))
        rw [if_pos (isDirtyFrame_iff.2 ⟨f, hf, hd, hw, hl⟩)]
        simp
      · exact .inl ⟨h1, by simp [hq, h2]⟩
    · right
      split
      · exact mem_append_left _ h
      · exact h

theorem FlushStep.jobs_ne {j : Nat} (hs : FlushStep s job s') (hne : j ≠ job) :
    s'.jobs.lookup j = s.jobs.lookup j := by
  cases hs with
  | write hj => exact (lookup_setJob j).trans ((if_neg hne).trans (by rw [jobs_endWrite]))
  | single hj => exact (lookup_eraseJob j).trans (if_neg hne)
  | _ => exact (lookup_setJob j).trans (if_neg hne)

theorem PoolStep.jobs (hs : PoolStep s a s') (job : Nat) : s'.jobs.lookup job = s.jobs.lookup job ∨
    (∃ pid d, a = .flushPage job pid d) ∨ (∃ pid, a = .visit job pid) ∨ a = .flush job := by
  cases hs with
  | @flushPage j pid d _ hj hf =>
    by_cases hne : job = j
    · subst hne
      exact .inr (.inl ⟨pid, d, rfl⟩)
    · exact .inl ((lookup_setJob job).trans (if_neg hne))
  | @visit j pid _ _ _ _ hj =>
    by_cases hne : job = j
    · subst hne
      exact .inr (.inr (.inl ⟨pid, rfl⟩))
    · exact .inl ((lookup_setJob job).trans (if_neg hne))
  | @flush j _ hs =>
    by_cases hne : job = j
    · subst hne
      exact .inr (.inr (.inr rfl))
    · exact .inl (hs.jobs_ne hne)
  | _ => exact .inl rfl

theorem Covered.step (hI : PoolInv s) (hok : s.Undisturbed a) (hs : PoolStep s a s')
    (hj : s.jobs.lookup job = some p) (hc : p.lsn? = some c) (hC : Covered s p c O) :
    ∃ p', s'.jobs.lookup job = some p' ∧ p'.lsn? = some c ∧ Covered s' p' c O := by
  rcases hs.jobs job with h | ⟨pid, d, rfl⟩ | ⟨pid, rfl⟩ | rfl
  · exact ⟨p, h.trans hj, hc, hC.next (hs.keeps hI hok) hj hc fun _ _ _ _ h => h⟩
  · cases hs with
    | flushPage hj' hf =>
      rw [hj] at hj'
      cases hj'
  · exact hC.visit hok hs hj hc
  · cases hs with
    | flush hs => exact hC.flush hI hok hs hj hc

def Below (s : Pool) (c pid x : Nat) : Prop := ∃ r ∈ s.logged, r.pid = pid ∧ r.change = x ∧
    r.lsn < c

theorem logged_endWrite {page : PoolPage} : (s.endWrite pid page).logged = s.logged := by
  unfold Pool.endWrite
  dsimp only
  split
  · rfl
  · rfl

theorem FlushStep.logged (hs : FlushStep s job s') : s'.logged = s.logged := by
  cases hs with
  | write hj => exact logged_endWrite
  | single hj => exact logged_endWrite
  | _ => rfl

theorem PoolStep.logged (hs : PoolStep s a s') :
    ∀ r ∈ s'.logged, r ∈ s.logged ∨ s.wal.reservedLsn ≤ r.lsn := by
  cases hs with
  | append hf hw ha =>
    intro r hr
    rcases mem_cons.1 hr with rfl | hr
    · exact .inr (WalCoordinator.append_ok ha).1
    · exact .inl hr
  | log hmod ha =>
    intro r hr
    rcases mem_cons.1 hr with rfl | hr
    · exact .inr (WalCoordinator.append_ok ha).1
    · exact .inl hr
  | flush hs =>
    rw [hs.logged]
    exact fun r hr => .inl hr
  | _ => exact fun r hr => .inl hr

theorem PoolStep.lsn (hs : PoolStep s a s') (hj : s'.jobs.lookup job = some p)
    (hc : p.lsn? = some c) :
    (∃ p, s.jobs.lookup job = some p ∧ p.lsn? = some c) ∨
      ∃ target wal, a = .flush job ∧ s.jobs.lookup job = some (.waiting target) ∧
        s.wal.flushUntil target = .ok (c, wal) ∧
        s' = { s with wal }.collect job c := by
  rcases hs.jobs job with h | ⟨pid, d, rfl⟩ | ⟨pid, rfl⟩ | rfl
  · exact .inl ⟨p, h.symm.trans hj, hc⟩
  · cases hs with
    | flushPage hj' hf =>
      rw [lookup_setJob, if_pos rfl] at hj
      cases hj
      cases hc
  · cases hs with
    | visit hj' =>
      rw [lookup_setJob, if_pos rfl] at hj
      cases hj
      exact .inl ⟨_, hj', hc⟩
  · cases hs with
    | flush hs =>
      cases hs with
      | start hj' =>
        rw [lookup_setJob, if_pos rfl] at hj
        cases hj
        cases hc
      | flushAll hj' hf =>
        rw [collect, lookup_setJob, if_pos rfl] at hj
        cases hj
        cases hc
        exact .inr ⟨_, _, rfl, hj', hf, rfl⟩
      | single hj' =>
        rw [lookup_eraseJob, if_pos rfl] at hj
        cases hj
      | again hj' =>
        rw [collect, lookup_setJob, if_pos rfl] at hj
        cases hj
        exact .inl ⟨_, hj', hc⟩
      | write hj' | collected hj' | short hj' | copy hj' | skip hj' | control hj' =>
        rw [lookup_setJob, if_pos rfl] at hj
        cases hj
        exact .inl ⟨_, hj', hc⟩

structure FlushInv (s : Pool) : Prop where
  pool : PoolInv s
  covered : ∀ j p c, s.jobs.lookup j = some p → p.lsn? = some c → Covered s p c (s.Below c)

theorem FlushInv.step (hI : FlushInv s) (hok : s.Undisturbed a) (hs : PoolStep s a s') :
    FlushInv s' := by
  refine ⟨hI.pool.step hok hs, ?_⟩
  intro j p' c hj' hc'
  rcases hs.lsn hj' hc' with ⟨p, hj, hc⟩ | ⟨target, wal, rfl, hj, hf, rfl⟩
  · obtain ⟨p1, h1, -, hC⟩ := (hI.covered j p c hj hc).step hI.pool hok hs hj hc
    obtain rfl : p1 = p' := Option.some.inj (h1.symm.trans hj')
    -- records logged by this step lie behind the checkpoint's LSN
    have hold : ∀ pid x, s'.Below c pid x → s.Below c pid x := by
      rintro pid x ⟨r, hr, h2, h3, hlt⟩
      rcases hs.logged r hr with hr | hle
      · exact ⟨r, hr, h2, h3, hlt⟩
      · exact absurd (hI.pool.lsn j p c hj (.inl hc)) (by omega)
    exact fun pid x hO => hC pid x (hold pid x hO)
  · rw [collect, lookup_setJob, if_pos rfl] at hj'
    cases hj'
    rw [(flushUntil_lsn hf).1] at *
    simp only [Undisturbed, hj] at hok
    rintro pid x ⟨r, hr, rfl, rfl, hlt⟩
    refine (hok r hr hlt).imp id ?_
    intro hp
    obtain ⟨f, hfr, hd, hl⟩ := isPending_iff.1 hp
    refine ⟨⟨f, hfr, hd, hl, (hI.pool.page r.pid).logged f hfr r hr rfl⟩, .inl ⟨?_, by simp⟩⟩
    exact AList.mem_keys.1 (AList.lookup_isSome.1 (by rw [hfr]; rfl))

theorem flushInv_openFile (file : Nat → Option PoolPage)
    (pageCount segmentBytes walBufferBytes : Nat)
    (records : List WalRecord) :
    FlushInv (openFile file pageCount segmentBytes walBufferBytes records) := by
  have hno : ∀ j pid page, ¬ (openFile file pageCount segmentBytes walBufferBytes records).Copying j
      pid page := by
    rintro j pid page ⟨p, hj, -⟩
    cases hj
  refine ⟨⟨?_, ?_, ?_, Nat.zero_le _, ?_⟩, ?_⟩
  · intro pid
    constructor
    · exact fun f hf => by cases hf
    · exact fun f hf => by cases hf
    · exact fun f hf => by cases hf
    · exact fun _ r hr => by cases hr
    · exact fun w x hw => by cases hw
    · exact fun j page h => absurd h (hno j pid page)
    · exact fun j _ page _ h _ => absurd h (hno j pid page)
  · exact fun pid f hf => by cases hf
  · intro pid page hf
    simp only [openFile] at hf ⊢
    split at hf
    · omega
    · cases hf
  · exact fun j p c hj => by cases hj
  · exact fun j p c hj => by cases hj

theorem FlushInv.of_run {file : Nat → Option PoolPage} {pageCount segmentBytes walBufferBytes : Nat}
    {records : List WalRecord} {ops : List PoolAction}
    (hr : Run Pool.step Undisturbed (openFile file pageCount segmentBytes walBufferBytes records)
      ops s) : FlushInv s :=
  hr.invariant (I := fun _ s => FlushInv s) (flushInv_openFile ..) fun _ _ _ _ hI hok hs =>
    hI.step hok (step_ok hs)

/-- In every run in which no flush is disturbed: when the control file is written, every change with
a record below its LSN is in the file, and so is all that the pages had been through that were dirty
with an LSN not above when a round of the flush began. -/
theorem checkpoint_complete {file : Nat → Option PoolPage}
    {pageCount segmentBytes walBufferBytes : Nat}
    {records : List WalRecord} {ops : List PoolAction}
    (hr : Run Pool.step Undisturbed
      (openFile file pageCount segmentBytes walBufferBytes records) ops s)
    (hj : s.jobs.lookup job = some (.controlWritten c)) :
    (∀ r ∈ s.logged, r.lsn < c → r.change ∈ s.onDisk r.pid) ∧
      ∀ ops1 ops2 s1, Run Pool.step Undisturbed
        (openFile file pageCount segmentBytes walBufferBytes records) ops1 s1 →
        Run Pool.step Undisturbed s1 ops2 s →
          s1.jobs.lookup job = some (.collecting c s1.frames.keys [] []) →
        ∀ pid f, s1.frames.lookup pid = some f → f.dirty = true → f.page.pageLsn ≤ c →
          ∀ x ∈ f.page.changes, x ∈ s.onDisk pid := by
  constructor
  · intro r hrm hlt
    rcases (FlushInv.of_run hr).covered job _ c hj rfl r.pid r.change
      ⟨r, hrm, rfl, rfl, hlt⟩ with h | ⟨-, h⟩
    · exact h
    · exact h.elim
  · intro ops1 ops2 s1 hr1 hr2 hj1 pid f hf hd hl x hx
    have hend : PoolInv s ∧ ∃ p, s.jobs.lookup job = some p ∧ p.lsn? = some c ∧
        Covered s p c (s1.Holds c) := by
      refine hr2.invariant (I := fun _ s => PoolInv s ∧ ∃ p, s.jobs.lookup job = some p ∧
        p.lsn? = some c ∧
        Covered s p c (s1.Holds c)) ?_ ?_
      · refine ⟨(FlushInv.of_run hr1).pool, _, hj1, rfl, ?_⟩
        rintro q y ⟨g, hg, h⟩
        exact .inr ⟨⟨g, hg, h⟩,
          .inl ⟨AList.mem_keys.1 (AList.lookup_isSome.1 (by rw [hg]; rfl)), by simp⟩⟩
      · rintro _ s a s' ⟨hI, p, hp, hc, hC⟩ hok hs
        exact ⟨hI.step hok (step_ok hs), hC.step hI hok (step_ok hs) hp hc⟩
    obtain ⟨-, p, hp, -, hC⟩ := hend
    rw [hj] at hp
    cases hp
    rcases hC pid x ⟨f, hf, hd, hl, hx⟩ with h | ⟨-, h⟩
    · exact h
    · exact h.elim

def empty : Pool := openFile (fun _ => none) 0 4096 65536 []

def appendTo (pid : Nat) : PoolAction := .append pid .pageDelta 1 (.heapInsert 1 1 1 [])

def traceWrittenFirst : List PoolAction :=
  [.allocate, appendTo 1, .allocate, .flush 0, .flush 0, .visit 0 1, .visit 0 2, .flush 0, .flush 0,
    .flush 0, appendTo 1,
   .flush 0, .flush 0, .flush 0, .flush 0]

def firstBelow (s : Pool) : Bool :=
  match s.jobs.lookup 0 with
  | some (.controlWritten c) => s.logged.any fun r => decide (r.change = 0 ∧ r.pid = 1 ∧ r.lsn < c)
  | _ => false

theorem checkpoint_complete_traceWrittenFirst :
    ∃ s, Run Pool.step Undisturbed empty traceWrittenFirst s ∧ s.logged.length = 2 ∧
      0 ∈ s.onDisk 1 := by
  obtain ⟨s, hrun, hbelow, htwo⟩ : ∃ s, Run Pool.step Undisturbed empty traceWrittenFirst s ∧
      firstBelow s = true ∧ s.logged.length = 2 := by decide +kernel
  unfold firstBelow at hbelow
  split at hbelow
  · next c hj =>
    obtain ⟨r, hr, h⟩ := any_eq_true.1 hbelow
    obtain ⟨hx, hp, hlt⟩ := of_decide_eq_true h
    have hd := (checkpoint_complete hrun hj).1 r hr hlt
    rw [hx, hp] at hd
    exact ⟨s, hrun, htwo, hd⟩
  · cases hbelow

def traceRedirtied : List PoolAction :=
  [.allocate, appendTo 1, .flush 0, .flush 0, appendTo 1, .visit 0 1, .flush 0, .flush 0, .flush 0]

/-- The checkpoint skips the page, and its LSN keeps the first change from being replayed. -/
theorem checkpoint_skips_redirtied :
    ∃ s c r, Run Pool.step (fun _ _ => True) empty traceRedirtied s ∧
      s.jobs.lookup 0 = some (.controlWritten c) ∧
      r ∈ s.logged ∧ r.lsn < c ∧ r.change ∉ s.onDisk r.pid := by
  obtain ⟨s, hrun, hbelow, hno⟩ : ∃ s, Run Pool.step (fun _ _ => True) empty traceRedirtied s ∧
      firstBelow s = true ∧ 0 ∉ s.onDisk 1 := by decide +kernel
  unfold firstBelow at hbelow
  split at hbelow
  · next c hj =>
    obtain ⟨r, hr, h⟩ := any_eq_true.1 hbelow
    obtain ⟨hx, hp, hlt⟩ := of_decide_eq_true h
    refine ⟨s, c, r, hrun, hj, hr, hlt, ?_⟩
    rw [hx, hp]
    exact hno
  · cases hbelow

end Pool
end RedlineDb
