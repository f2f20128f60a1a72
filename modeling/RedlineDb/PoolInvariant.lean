import RedlineDb.BufferPool

/-!
# What holds of the pages of the buffer pool

As long as no two flushers work on one page, a frame has been through all that is logged of its
page, and a clean frame or a page without one has it all in the file.
-/

namespace RedlineDb
namespace Pool
variable {s s' : Pool} {pid job c : Nat} {f : PoolFrame}

def Copying (s : Pool) (job pid : Nat) (page : PoolPage) : Prop :=
  ∃ p, s.jobs.lookup job = some p ∧ p.copy? = some (pid, page)

structure PageInv (s : Pool) (pid : Nat) : Prop where
  disk : ∀ f, s.frames.lookup pid = some f → ∀ x ∈ s.onDisk pid, x ∈ f.page.changes
  logged : ∀ f, s.frames.lookup pid = some f → ∀ r ∈ s.logged, r.pid = pid →
    r.change ∈ f.page.changes
  clean : ∀ f, s.frames.lookup pid = some f → f.dirty = false → ∀ r ∈ s.logged, r.pid = pid →
    r.change ∈ s.onDisk pid ∨ ∃ w l, s.writers.lookup w = some (.logged pid r.change l)
  absent : s.frames.lookup pid = none → ∀ r ∈ s.logged, r.pid = pid → r.change ∈ s.onDisk pid
  modified : ∀ w x, s.writers.lookup w = some (.modified pid x) →
    ∃ f, s.frames.lookup pid = some f ∧ x ∈ f.page.changes
  /-- Writers wait while the copy is written. -/
  copies : ∀ j page, s.Copying j pid page →
    ∃ f, s.frames.lookup pid = some f ∧ f.writeInProgress = true ∧ f.page = page
  one : ∀ j j' page page', s.Copying j pid page → s.Copying j' pid page' → j = j'

structure PoolInv (s : Pool) : Prop where
  page : ∀ pid, PageInv s pid
  frames : ∀ pid f, s.frames.lookup pid = some f → pid < s.nextPageId
  file : ∀ pid page, s.file pid = some page → pid < s.nextPageId
  durable : s.wal.durableLsn ≤ s.wal.reservedLsn
  lsn : ∀ j p c, s.jobs.lookup j = some p → p.lsn? = some c ∨ p = .waiting c → c ≤ s.wal.reservedLsn

structure SamePage (s s' : Pool) (pid : Nat) : Prop where
  frame : s'.frames.lookup pid = s.frames.lookup pid
  file : s'.file pid = s.file pid
  logged : ∀ r ∈ s'.logged, r.pid = pid → r ∈ s.logged
  modified : ∀ w x, s'.writers.lookup w = some (.modified pid x) →
    s.writers.lookup w = some (.modified pid x)
  marking : ∀ w x l, s.writers.lookup w = some (.logged pid x l) →
    s'.writers.lookup w = some (.logged pid x l)
  copying : ∀ j page, s'.Copying j pid page → s.Copying j pid page

theorem SamePage.refl (s : Pool) (pid : Nat) : SamePage s s pid :=
  ⟨rfl, rfl, fun _ h _ => h, fun _ _ h => h, fun _ _ _ h => h, fun _ _ h => h⟩

theorem SamePage.onDisk (h : SamePage s s' pid) : s'.onDisk pid = s.onDisk pid := by
  unfold Pool.onDisk
  rw [h.file]

theorem PageInv.same (hI : PageInv s pid) (h : SamePage s s' pid) : PageInv s' pid := by
  constructor
  · rw [h.frame, h.onDisk]
    exact hI.disk
  · rw [h.frame]
    exact fun f hf r hr hp => hI.logged f hf r (h.logged r hr hp) hp
  · rw [h.frame, h.onDisk]
    intro f hf hd r hr hp
    refine (hI.clean f hf hd r (h.logged r hr hp) hp).imp id ?_
    rintro ⟨w, l, hw⟩
    exact ⟨w, l, h.marking w _ l hw⟩
  · rw [h.frame, h.onDisk]
    exact fun hn r hr hp => hI.absent hn r (h.logged r hr hp) hp
  · rw [h.frame]
    exact fun w x hw => hI.modified w x (h.modified w x hw)
  · rw [h.frame]
    exact fun j page hc => hI.copies j page (h.copying j page hc)
  · exact fun j j' page page' hc hc' => hI.one j j' page page' (h.copying j page hc)
      (h.copying j' page' hc')

/-- A resident page gets another frame, which has been through all that the old one has; at most one
job copies it. -/
theorem PageInv.setFrame {g : PoolFrame} (hI : PageInv s pid) (job : Nat)
    (hf : s.frames.lookup pid = some f)
    (hg : s'.frames.lookup pid = some g) (hadd : ∀ x ∈ f.page.changes, x ∈ g.page.changes)
    (hdisk : ∀ x ∈ s'.onDisk pid, x ∈ g.page.changes)
    (hlog : ∀ r ∈ s'.logged, r.pid = pid → r ∈ s.logged ∨ r.change ∈ g.page.changes)
    (hclean : g.dirty = false → ∀ r ∈ s'.logged, r.pid = pid →
      r.change ∈ s'.onDisk pid ∨ ∃ w l, s'.writers.lookup w = some (.logged pid r.change l))
    (hmod : ∀ w x, s'.writers.lookup w = some (.modified pid x) →
      s.writers.lookup w = some (.modified pid x) ∨
      x ∈ g.page.changes)
    (hcopy : ∀ j page, s'.Copying j pid page → j = job ∧ g.writeInProgress = true ∧ g.page = page) :
    PageInv s' pid := by
  constructor
  · rw [hg]
    rintro _ ⟨⟩
    exact hdisk
  · rw [hg]
    rintro _ ⟨⟩ r hr hp
    exact (hlog r hr hp).elim (fun h => hadd _ (hI.logged f hf r h hp)) id
  · rw [hg]
    rintro _ ⟨⟩
    exact hclean
  · rw [hg]
    intro h
    cases h
  · intro w x h
    refine ⟨g, hg, ?_⟩
    rcases hmod w x h with h | h
    · obtain ⟨f', h1, h2⟩ := hI.modified w x h
      rw [hf] at h1
      cases h1
      exact hadd x h2
    · exact h
  · exact fun j page h => ⟨g, hg, (hcopy j page h).2⟩
  · exact fun j j' page page' h h' => (hcopy j page h).1.trans (hcopy j' page' h').1.symm

theorem PageInv.not_copying (hI : PageInv s pid) (hf : s.frames.lookup pid = some f)
    (hw : f.writeInProgress = false)
    (j : Nat) (page : PoolPage) : ¬ s.Copying j pid page := by
  intro hc
  obtain ⟨f', h1, h2, -⟩ := hI.copies j page hc
  rw [hf] at h1
  cases h1
  rw [hw] at h2
  cases h2

variable {p : FlushPhase}

theorem SamePage.setJob (hp : p.copy? = none) (q : Nat) : SamePage s (s.setJob job p) q := by
  refine { SamePage.refl s q with copying := ?_ }
  rintro j page ⟨p', hj, hc⟩
  rw [lookup_setJob] at hj
  split at hj
  · cases hj
    rw [hp] at hc
    cases hc
  · exact ⟨p', hj, hc⟩

theorem PageInv.beginWrite (hI : PageInv s pid) (hf : s.frames.lookup pid = some f)
    (hw : f.writeInProgress = false) (hp : p.copy? = some (pid, f.page)) :
    PageInv ((s.setFrame pid { f with writeInProgress := true }).setJob job p) pid := by
  refine hI.setFrame job hf (lookup_setFrame.trans (if_pos rfl)) (fun _ hx => hx) (hI.disk f hf)
    (fun _ hr _ => .inl hr) (hI.clean f hf) (fun _ _ h => .inl h) ?_
  rintro j page ⟨p', hj, hc⟩
  rw [lookup_setJob] at hj
  split at hj
  · next h =>
    cases hj
    rw [hp] at hc
    cases hc
    exact ⟨h, rfl, rfl⟩
  · exact absurd ⟨p', hj, hc⟩ (hI.not_copying hf hw j page)

variable {page : PoolPage} {kind : WalRecordKind} {payload : WalPayload} {d lsn tx writer : Nat}

theorem endWrite_eq (hf : s.frames.lookup pid = some f) (hp : f.page = page) :
    s.endWrite pid page =
      { s with file := fun q => if q = pid then some page else s.file q }.setFrame pid
      { f with writeInProgress := false, dirty := false } := by
  simp [Pool.endWrite, hf, hp]

theorem jobs_endWrite : (s.endWrite pid page).jobs = s.jobs := by
  unfold Pool.endWrite
  dsimp only
  split
  · rfl
  · rfl

theorem PageInv.endWrite (hI : PageInv s pid) (hf : s.frames.lookup pid = some f)
    (hp : f.page = page)
    (hfr : s'.frames = (s.frames.insert pid { f with writeInProgress := false, dirty := false }))
    (hfile : s'.file pid = some page) (hlog : s'.logged = s.logged) (hwr : s'.writers = s.writers)
    (hcopy : ∀ j page, ¬ s'.Copying j pid page) : PageInv s' pid := by
  have hdisk : s'.onDisk pid = f.page.changes := by simp [Pool.onDisk, hfile, hp]
  have hg : s'.frames.lookup pid = some { f with writeInProgress := false, dirty := false } := by
    rw [hfr, AList.lookup_insert]
  refine hI.setFrame 0 hf hg (fun _ hx => hx) (fun _ hx => hdisk ▸ hx)
    (fun r hr _ => .inl (hlog ▸ hr)) (fun _ r hr hr' => .inl ?_) (fun w x h => .inl (hwr ▸ h))
    fun j page h => absurd h (hcopy j page)
  rw [hdisk]
  exact hI.logged f hf r (hlog ▸ hr) hr'

section
variable (hI : PoolInv s)
include hI

theorem PoolInv.at_page (hpage : PageInv s' pid) (hsame : ∀ q, q ≠ pid → SamePage s s' q)
    (hpid : pid < s'.nextPageId) (hnext : s.nextPageId ≤ s'.nextPageId)
    (hd : s'.wal.durableLsn ≤ s'.wal.reservedLsn)
    (hl : ∀ j p c, s'.jobs.lookup j = some p → p.lsn? = some c ∨ p = .waiting c →
      c ≤ s'.wal.reservedLsn) : PoolInv s' := by
  refine ⟨?_, ?_, ?_, hd, hl⟩
  · intro q
    by_cases hq : q = pid
    · rw [hq]
      exact hpage
    · exact (hI.page q).same (hsame q hq)
  · intro q f hf
    by_cases hq : q = pid
    · rw [hq]
      exact hpid
    · rw [(hsame q hq).frame] at hf
      exact (hI.frames q f hf).trans_le hnext
  · intro q page hf
    by_cases hq : q = pid
    · rw [hq]
      exact hpid
    · rw [(hsame q hq).file] at hf
      exact (hI.file q page hf).trans_le hnext

theorem PoolInv.elsewhere (hsame : ∀ q, SamePage s s' q) (hnext : s.nextPageId ≤ s'.nextPageId)
    (hd : s'.wal.durableLsn ≤ s'.wal.reservedLsn)
    (hl : ∀ j p c, s'.jobs.lookup j = some p → p.lsn? = some c ∨ p = .waiting c →
      c ≤ s'.wal.reservedLsn) : PoolInv s' := by
  refine ⟨fun q => (hI.page q).same (hsame q), ?_, ?_, hd, hl⟩
  · intro q f hf
    rw [(hsame q).frame] at hf
    exact (hI.frames q f hf).trans_le hnext
  · intro q page hf
    rw [(hsame q).file] at hf
    exact (hI.file q page hf).trans_le hnext

omit hI in
theorem SamePage.setFrame {q : Nat} (hq : q ≠ pid) : SamePage s (s.setFrame pid f) q :=
  { SamePage.refl s q with frame := lookup_setFrame.trans (if_neg hq) }

omit hI in
theorem PageInv.enter (hI : PageInv s pid) (hn : s.frames.lookup pid = none)
    (hf : s'.frames.lookup pid = some f)
    (hdisk : ∀ x, x ∈ f.page.changes ↔ x ∈ s.onDisk pid) (hfile : s'.file pid = s.file pid)
    (hlog : s'.logged = s.logged)
    (hwr : s'.writers = s.writers)
    (hcopy : ∀ j page, s'.Copying j pid page → s.Copying j pid page) : PageInv s' pid := by
  have hd : s'.onDisk pid = s.onDisk pid := by unfold Pool.onDisk; rw [hfile]
  constructor
  · rw [hf, hd]
    rintro _ ⟨⟩ x hx
    exact (hdisk x).2 hx
  · rw [hf, hlog]
    rintro _ ⟨⟩ r hr hp
    exact (hdisk _).2 (hI.absent hn r hr hp)
  · rw [hd, hlog]
    exact fun _ _ _ r hr hp => .inl (hI.absent hn r hr hp)
  · rw [hf]
    intro h
    cases h
  · rw [hwr]
    intro w x h
    obtain ⟨g, hg, -⟩ := hI.modified w x h
    rw [hn] at hg
    cases hg
  · intro j page h
    obtain ⟨g, hg, -⟩ := hI.copies j page (hcopy j page h)
    rw [hn] at hg
    cases hg
  · intro j _ page _ h _
    obtain ⟨g, hg, -⟩ := hI.copies j page (hcopy j page h)
    rw [hn] at hg
    cases hg

theorem PoolInv.allocate (hs : PoolStep s .allocate s') : PoolInv s' := by
  cases hs with
  | allocate hn =>
    have hfile : s.file s.nextPageId = none := by
      cases h : s.file s.nextPageId with
      | none => rfl
      | some page => exact absurd (hI.file _ _ h) (lt_irrefl _)
    refine hI.at_page ((hI.page s.nextPageId).enter hn (lookup_setFrame.trans (if_pos rfl)) ?_ rfl
      rfl rfl fun _ _ h => h)
      ?_ (Nat.lt_succ_self _) (Nat.le_succ _) hI.durable hI.lsn
    · simp [Pool.onDisk, hfile]
    · exact fun q hq => { SamePage.refl s q with frame := lookup_setFrame.trans (if_neg hq) }

theorem PoolInv.load (hs : PoolStep s (.load pid) s') : PoolInv s' := by
  cases hs with
  | load hn hfile =>
    refine hI.at_page ((hI.page pid).enter hn (lookup_setFrame.trans (if_pos rfl)) ?_ rfl rfl rfl
      fun _ _ h => h)
      (fun q hq => .setFrame hq) (hI.file _ _ hfile) le_rfl hI.durable hI.lsn
    simp [Pool.onDisk, hfile]

theorem PoolInv.evict (hs : PoolStep s (.evict pid) s') : PoolInv s' := by
  cases hs with
  | @evict _ f hf hw hd hnone =>
    have hP := hI.page pid
    have hl : (s.frames.erase pid).lookup pid = none := AList.lookup_erase _ _
    have hcopy := hP.not_copying hf hw
    refine hI.at_page (?_ : PageInv _ pid) ?_ (hI.frames pid f hf) le_rfl hI.durable hI.lsn
    · constructor
      · exact fun g hg => by rw [hl] at hg; cases hg
      · exact fun g hg => by rw [hl] at hg; cases hg
      · exact fun g hg => by rw [hl] at hg; cases hg
      · intro _ r hr hp
        rcases hP.clean f hf hd r hr hp with h | ⟨w, l, h⟩
        · exact h
        · exact absurd rfl (hnone w _ h)
      · exact fun w x h => absurd rfl (hnone w _ h)
      · exact fun j page h => absurd h (hcopy j page)
      · exact fun j _ page _ h _ => absurd h (hcopy j page)
    · exact fun q hq => { SamePage.refl s q with frame := AList.lookup_erase_ne hq }

omit hI in
theorem lookup_setWriter {p : WriterPhase} (writer w : Nat) :
    (s.setWriter writer p).writers.lookup w = if w = writer then some p else s.writers.lookup w :=
    Lib.lookup_insert

omit hI in
theorem append_reserved {w w' : WalCoordinator} {a : WalAppend} (hd : w.durableLsn ≤ w.reservedLsn)
    (h : w.append kind tx payload = .ok (a, w')) : w.reservedLsn ≤ w'.reservedLsn ∧
    w'.durableLsn ≤ w'.reservedLsn := by
  obtain ⟨h1, h2, rfl⟩ := WalCoordinator.append_ok h
  have hle : w.reservedLsn ≤ a.endLsn := by omega
  exact ⟨hle, hd.trans hle⟩

/-- The page of a frame nobody writes is changed, and the writers and the log with it. -/
theorem PoolInv.rewrite {g : PoolFrame} {wal : WalCoordinator} {logged : List LoggedChange}
    {nextChange : Nat}
    {writers : AList fun _ : Nat => WriterPhase} (hf : s.frames.lookup pid = some f)
    (hw : f.writeInProgress = false) (hadd : ∀ x ∈ f.page.changes, x ∈ g.page.changes)
    (hlog : ∀ r ∈ logged, r ∈ s.logged ∨ r.pid = pid ∧ r.change ∈ g.page.changes)
    (hmod : ∀ w q x, writers.lookup w = some (.modified q x) →
      s.writers.lookup w = some (.modified q x) ∨
      q = pid ∧ x ∈ g.page.changes)
    (hmark : ∀ w q x l, s.writers.lookup w = some (.logged q x l) →
      writers.lookup w = some (.logged q x l) ∨
      q = pid ∧ g.dirty = true)
    (hclean : g.dirty = true ∨ f.dirty = false ∧ logged = s.logged)
    (hres : s.wal.reservedLsn ≤ wal.reservedLsn)
    (hd : wal.durableLsn ≤ wal.reservedLsn) :
    PoolInv { s.setFrame pid g with wal, logged, nextChange, writers } := by
  have hP := hI.page pid
  refine hI.at_page (hP.setFrame 0 hf (lookup_setFrame.trans (if_pos rfl)) hadd
    (fun x hx => hadd x (hP.disk f hf x hx))
    (fun r hr _ => (hlog r hr).imp id And.right) ?_ (fun w x h => (hmod w pid x h).imp id And.right)
    fun j page h => absurd h (hP.not_copying hf hw j page)) ?_ (hI.frames pid f hf) le_rfl hd
    fun j p c hj hc => (hI.lsn j p c hj hc).trans hres
  · intro hg r hr hp
    obtain hdirty | ⟨hdirty, rfl⟩ := hclean
    · exact absurd (hg.symm.trans hdirty) Bool.false_ne_true
    · refine (hP.clean f hf hdirty r hr hp).imp id ?_
      rintro ⟨w, l, h⟩
      exact ⟨w, l, (hmark w _ _ l h).elim id fun h => absurd (hg.symm.trans h.2) Bool.false_ne_true⟩
  · intro q hq
    exact { SamePage.refl s q with
            frame := lookup_setFrame.trans (if_neg hq)
            logged := fun r hr hp => (hlog r hr).elim id fun h => absurd (hp.symm.trans h.1) hq
            modified := fun w x h => (hmod w q x h).elim id fun h => absurd h.1 hq
            marking := fun w x l h => (hmark w q x l h).elim id fun h => absurd h.1 hq }

theorem PoolInv.append (hs : PoolStep s (.append pid kind tx payload) s') : PoolInv s' := by
  cases hs with
  | @append _ _ _ _ f a wal hf hw ha =>
    obtain ⟨hres, hd⟩ := append_reserved hI.durable ha
    refine hI.rewrite hf hw (fun x hx => List.mem_cons_of_mem _ hx) ?_ (fun _ _ _ h => .inl h)
      (fun _ _ _ _ h => .inl h)
      (.inl rfl) hres hd
    intro r hr
    rcases List.mem_cons.1 hr with rfl | hr
    · exact .inr ⟨rfl, List.mem_cons_self⟩
    · exact .inl hr

theorem PoolInv.appendUnlogged (hs : PoolStep s (.appendUnlogged pid lsn) s') : PoolInv s' := by
  cases hs with
  | @appendUnlogged _ _ f hf hw =>
    exact hI.rewrite hf hw (fun x hx => List.mem_cons_of_mem _ hx) (fun r hr => .inl hr)
      (fun _ _ _ h => .inl h)
      (fun _ _ _ _ h => .inl h) (.inl rfl) le_rfl hI.durable

theorem PoolInv.modify (hs : PoolStep s (.modify writer pid) s') : PoolInv s' := by
  cases hs with
  | @modify _ _ f hf hw hnew =>
    refine hI.rewrite hf hw (fun x hx => List.mem_cons_of_mem _ hx) (fun r hr => .inl hr) ?_ ?_ ?_
      le_rfl hI.durable
    · intro w q x h
      rw [Lib.lookup_insert] at h
      split at h
      · cases h
        exact .inr ⟨rfl, List.mem_cons_self⟩
      · exact .inl h
    · intro w q x l h
      refine .inl (Lib.lookup_insert.trans ((if_neg ?_).trans h))
      rintro rfl
      cases hnew.symm.trans h
    · exact (Bool.eq_false_or_eq_true f.dirty).imp id fun h => ⟨h, rfl⟩

theorem PoolInv.log (hs : PoolStep s (.log writer kind tx payload) s') : PoolInv s' := by
  cases hs with
  | @log _ _ pid x _ _ a wal hmod ha =>
    obtain ⟨hres, hd⟩ := append_reserved hI.durable ha
    have hP := hI.page pid
    obtain ⟨f, hf, hx⟩ := hP.modified writer x hmod
    -- the writer had logged nothing before, so no other change loses its writer
    have hkeep : ∀ w q y l, s.writers.lookup w = some (.logged q y l) → w ≠ writer := by
      rintro w q y l h rfl
      rw [hmod] at h
      cases h
    refine hI.at_page (?_ : PageInv _ pid) ?_ (hI.frames pid f hf) le_rfl hd
      fun j p c hj hc => (hI.lsn j p c hj hc).trans hres
    · refine { hP with logged := ?_, clean := ?_, absent := ?_, modified := ?_ }
      · intro g hg r hr hp
        rcases List.mem_cons.1 hr with rfl | hr
        · obtain rfl : g = f := Option.some.inj (hg.symm.trans hf)
          exact hx
        · exact hP.logged g hg r hr hp
      · intro g hg hclean r hr hp
        rcases List.mem_cons.1 hr with rfl | hr
        · exact .inr ⟨writer, a.endLsn, (lookup_setWriter writer writer).trans (if_pos rfl)⟩
        · refine (hP.clean g hg hclean r hr hp).imp id ?_
          rintro ⟨w, l, hw⟩
          exact ⟨w, l, ((lookup_setWriter writer w).trans (if_neg (hkeep w _ _ _ hw))).trans hw⟩
      · exact fun hn => absurd (hn.symm.trans hf) (by simp)
      · intro w y h
        rw [lookup_setWriter] at h
        split at h
        · cases h
        · exact hP.modified w y h
    · intro q hq
      refine { SamePage.refl s q with logged := ?_, modified := ?_, marking := ?_ }
      · intro r hr hp
        rcases List.mem_cons.1 hr with rfl | hr
        · exact absurd hp.symm hq
        · exact hr
      · intro w y h
        rw [lookup_setWriter] at h
        split at h
        · cases h
        · exact h
      · exact fun w y l h => ((lookup_setWriter writer w).trans (if_neg (hkeep w _ _ _ h))).trans h

omit hI in
theorem markedPage_pid {l : Nat} {p : WriterPhase} (hm : s.markedPage writer lsn = some (pid, l))
    (hp : s.writers.lookup writer = some p) : p.pid = pid := by
  unfold Pool.markedPage at hm
  split at hm
  · next h =>
    rw [hp] at h
    cases h
    cases hm
    rfl
  · next h =>
    rw [hp] at h
    cases h
    cases hm
    rfl
  · cases hm

theorem PoolInv.markDirty (hs : PoolStep s (.markDirty writer lsn) s') : PoolInv s' := by
  cases hs with
  | @markDirty _ _ pid l f hm hf hw =>
    have herase : ∀ w p, (s.writers.erase writer).lookup w = some p →
        s.writers.lookup w = some p := by
      intro w p h
      rw [Lib.lookup_erase] at h
      split at h
      · cases h
      · exact h
    refine hI.rewrite hf hw (fun _ hx => hx) (fun _ hr => .inl hr)
      (fun w _ _ h => .inl (herase w _ h)) ?_ (.inl rfl)
      le_rfl hI.durable
    intro w q x l' h
    by_cases hw : w = writer
    · subst hw
      exact .inr ⟨markedPage_pid hm h, rfl⟩
    · exact .inl ((AList.lookup_erase_ne hw).trans h)

theorem PoolInv.abandon (hs : PoolStep s (.abandon writer) s') : PoolInv s' := by
  cases hs with
  | abandon hmod =>
    refine hI.elsewhere ?_ le_rfl hI.durable hI.lsn
    intro q
    refine { SamePage.refl s q with modified := ?_, marking := ?_ }
    · intro w y h
      rw [Lib.lookup_erase] at h
      split at h
      · cases h
      · exact h
    · intro w y l h
      rw [Lib.lookup_erase, if_neg]
      · exact h
      · rintro rfl
        cases hmod.symm.trans h

theorem PoolInv.setWal {wal : WalCoordinator} (hres : wal.reservedLsn = s.wal.reservedLsn)
    (hd : wal.durableLsn ≤ wal.reservedLsn) : PoolInv { s with wal } := by
  refine hI.elsewhere ?_ le_rfl hd ?_
  · exact fun q => { SamePage.refl s q with }
  · intro j p c hj hc
    rw [hres]
    exact hI.lsn j p c hj hc

omit hI in
theorem flushUntil_lsn {w w' : WalCoordinator} {target : Nat}
    (h : w.flushUntil target = .ok (d, w')) :
    d = max w.durableLsn target ∧ w'.durableLsn = d ∧ w'.reservedLsn = w.reservedLsn := by
  simp only [WalCoordinator.flushUntil, Lib.bind_eq_ok, Lib.pure_eq_ok, Prod.mk.injEq] at h
  obtain ⟨_, -, rfl, rfl⟩ := h
  exact ⟨rfl, rfl, rfl⟩

theorem PoolInv.writeLog (hs : PoolStep s (.writeLog lsn) s') : PoolInv s' := by
  cases hs with
  | writeLog hle hf =>
    obtain ⟨h1, h2, h3⟩ := flushUntil_lsn hf
    have := hI.durable
    exact hI.setWal h3 (by omega)

theorem PoolInv.setJob (hp : p.copy? = none)
    (hc : ∀ c, p.lsn? = some c ∨ p = .waiting c → c ≤ s.wal.reservedLsn) :
    PoolInv (s.setJob job p) := by
  refine hI.elsewhere (fun q => .setJob hp q) le_rfl hI.durable ?_
  intro j p' c hj h
  rw [lookup_setJob] at hj
  split at hj
  · cases hj
    exact hc c h
  · exact hI.lsn j p' c hj h

theorem PoolInv.beginWrite (hf : s.frames.lookup pid = some f)
    (hw : f.writeInProgress = false) (hp : p.copy? = some (pid, f.page))
    (hc : ∀ c, p.lsn? = some c ∨ p = .waiting c → c ≤ s.wal.reservedLsn) :
    PoolInv ((s.setFrame pid { f with writeInProgress := true }).setJob job p) := by
  refine hI.at_page ((hI.page pid).beginWrite hf hw hp) ?_ (hI.frames pid f hf) le_rfl hI.durable ?_
  · intro q hq
    refine { SamePage.refl s q with frame := lookup_setFrame.trans (if_neg hq), copying := ?_ }
    rintro j page ⟨p', hj, hcp⟩
    rw [lookup_setJob] at hj
    split at hj
    · cases hj
      rw [hp] at hcp
      cases hcp
      exact absurd rfl hq
    · exact ⟨p', hj, hcp⟩
  · intro j p' c hj h
    rw [lookup_setJob] at hj
    split at hj
    · cases hj
      exact hc c h
    · exact hI.lsn j p' c hj h

theorem PoolInv.endWrite {jobs : AList (fun _ : Nat => FlushPhase)}
    (hj : s.Copying job pid page) (hsame : ∀ j, j ≠ job → jobs.lookup j = s.jobs.lookup j)
    (hnone : ∀ p, jobs.lookup job = some p → p.copy? = none ∧
      ∀ c, p.lsn? = some c ∨ p = .waiting c → c ≤ s.wal.reservedLsn) :
    PoolInv { s.endWrite pid page with jobs } := by
  obtain ⟨f, hf, hw, hp⟩ := (hI.page pid).copies job page hj
  rw [endWrite_eq hf hp]
  have hback : ∀ j q p',
      ({ { s with file := fun q => if q = pid then some page else s.file q }.setFrame pid
      { f with writeInProgress := false, dirty := false } with jobs } : Pool).Copying j q p' →
        j ≠ job ∧ s.Copying j q p' := by
    rintro j q p' ⟨ph, hl, hc⟩
    have hne : j ≠ job := by
      rintro rfl
      rw [(hnone ph hl).1] at hc
      cases hc
    exact ⟨hne, ph, (hsame j hne).symm.trans hl, hc⟩
  refine hI.at_page ((hI.page pid).endWrite hf hp rfl (if_pos rfl) rfl rfl ?_) ?_
    (hI.frames pid f hf) le_rfl
    hI.durable ?_
  · intro j p' h
    obtain ⟨hne, h⟩ := hback j pid p' h
    exact hne ((hI.page pid).one j job p' page h hj)
  · intro q hq
    exact { SamePage.refl s q with
            frame := lookup_setFrame.trans (if_neg hq)
            file := if_neg hq
            copying := fun j p' h => (hback j q p' h).2 }
  · intro j p c hl h
    by_cases hne : j = job
    · subst hne
      exact (hnone p hl).2 c h
    · exact hI.lsn j p c ((hsame j hne).symm.trans hl) h

theorem PoolInv.flushPage (hok : s.Undisturbed (.flushPage job pid d))
    (hs : PoolStep s (.flushPage job pid d) s') : PoolInv s' := by
  cases hs with
  | flushPage hj hf =>
    refine hI.beginWrite hf ((isWriting_eq_false hf).1 hok) rfl ?_
    rintro c (h | h)
    · cases h
    · cases h

theorem PoolInv.visit (hs : PoolStep s (.visit job pid) s') : PoolInv s' := by
  cases hs with
  | visit hj =>
    refine hI.setJob rfl ?_
    rintro c' (h | h)
    · exact hI.lsn job _ c' hj (.inl h)
    · cases h

omit hI in
theorem Undisturbed.batch {flushed : Nat} {todo : List Nat} (hok : s.Undisturbed (.flush job))
    (hj : s.jobs.lookup job = some (.batch c (pid :: todo) flushed)) :
    ∃ f, s.frames.lookup pid = some f ∧ f.dirty = true ∧ f.writeInProgress = false ∧
      f.page.pageLsn ≤ c := by
  simp only [Undisturbed, hj] at hok
  exact isDirtyFrame_iff.1 hok

theorem PoolInv.flush (hok : s.Undisturbed (.flush job)) (hs : FlushStep s job s') :
    PoolInv s' := by
  have hlsn : ∀ {p : FlushPhase} {c : Nat}, s.jobs.lookup job = some p → p.lsn? = some c →
      ∀ q : FlushPhase, q.lsn? = some c → ∀ c', q.lsn? = some c' ∨ q = .waiting c' →
        c' ≤ s.wal.reservedLsn := by
    rintro p c hj hp q hq c' (h | rfl)
    · rw [hq] at h
      cases h
      exact hI.lsn job p c hj (.inl hp)
    · cases hq
  cases hs with
  | start hj =>
    refine hI.setJob rfl ?_
    rintro c (h | h)
    · cases h
    · cases h
      exact le_rfl
  | @flushAll target d wal hj hf =>
    obtain ⟨h1, h2, h3⟩ := flushUntil_lsn hf
    have hd := hI.durable
    have ht := hI.lsn job _ _ hj (.inr rfl)
    refine PoolInv.setJob (hI.setWal h3 (by omega)) rfl ?_
    rintro c (h | h)
    · cases h
      show d ≤ wal.reservedLsn
      omega
    · cases h
  | collected hj hall => exact hI.setJob rfl (hlsn hj rfl _ rfl)
  | short hj hlt => exact hI.setJob rfl (hlsn hj rfl _ rfl)
  | again hj => exact hI.setJob rfl (hlsn hj rfl _ rfl)
  | copy hj hf =>
    obtain ⟨g, hg, -, hw, -⟩ := hok.batch hj
    rw [hf] at hg
    cases hg
    exact hI.beginWrite hf hw rfl (hlsn hj rfl _ rfl)
  | skip hj hnot => exact hI.setJob rfl (hlsn hj rfl _ rfl)
  | write hj =>
    refine hI.endWrite ⟨_, hj, rfl⟩
      (fun j hne => (AList.lookup_insert_ne hne).trans (by rw [jobs_endWrite])) ?_
    intro p hp
    rw [AList.lookup_insert] at hp
    cases hp
    exact ⟨rfl, hlsn hj rfl _ rfl⟩
  | control hj => exact hI.setJob rfl (hlsn hj rfl _ rfl)
  | single hj =>
    refine hI.endWrite ⟨_, hj, rfl⟩ (fun j hne => AList.lookup_erase_ne hne) ?_
    intro p hp
    rw [AList.lookup_erase] at hp
    cases hp

theorem PoolInv.step {a : PoolAction} (hok : s.Undisturbed a) (hs : PoolStep s a s') :
    PoolInv s' := by
  cases a with
  | allocate => exact hI.allocate hs
  | load pid => exact hI.load hs
  | evict pid => exact hI.evict hs
  | append pid kind tx payload => exact hI.append hs
  | appendUnlogged pid lsn => exact hI.appendUnlogged hs
  | modify writer pid => exact hI.modify hs
  | log writer kind tx payload => exact hI.log hs
  | markDirty writer lsn => exact hI.markDirty hs
  | abandon writer => exact hI.abandon hs
  | writeLog lsn => exact hI.writeLog hs
  | flushPage job pid d => exact hI.flushPage hok hs
  | visit job pid => exact hI.visit hs
  | flush job =>
    cases hs with
    | flush hs => exact hI.flush hok hs

end
end Pool
end RedlineDb
