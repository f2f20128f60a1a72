import RedlineDb.Heap

/-!
# What the heap's appends do

`LaneWf` is the structural invariant of a heap: pages know their ids, heap pages hold tuples and
undo pages undo records, and the undo page of a lane is the highest one holding a record of the
lane's rows. Pages may wait for reuse, heap pages only. `Put` says what an accepted `appendCell`
does: one cell more on one page, every other page as before.
-/

namespace RedlineDb
open Lib

def Page.Fits (pageSize : Nat) (p : Page) (c : Cell) : Prop :=
  p.lower + slotLen + c.encodedLen ≤ p.upper pageSize

variable {gen n pid r : Nat} {p : Page} {c : Cell}

theorem Page.insertCell_eq_ok {slot : Nat} {p' : Page} : p.insertCell n c = .ok (slot, p') ↔
      p.Fits n c ∧ slot = p.cells.length ∧ p' = { p with cells := p.cells ++ [c] } := by
  unfold insertCell Fits
  split
  · next h =>
    simp only [h, true_and, Except.ok.injEq, Prod.mk.injEq]
    exact ⟨fun ⟨a, b⟩ => ⟨a.symm, b.symm⟩, fun ⟨a, b⟩ => ⟨a.symm, b.symm⟩⟩
  · next h => simp [h]

theorem Page.insertCell_eq_error {e : Error} (h : p.insertCell n c = .error e) : ¬ p.Fits n c := by
  unfold insertCell at h
  split at h
  · cases h
  · next hf => exact hf

def Cell.pageKind : Cell → PageKind
  | .tuple _ => .heap
  | .undo _ => .undo
  | .leaf _ => .btreeLeaf
  | .internal _ => .btreeInternal

structure HeapPageOk (pageSize relId pid : Nat) (p : Page) : Prop where
  kind : p.kind = .heap ∨ p.kind = .undo
  pageId : p.pageId = pid
  rel : p.relId = relId
  room : p.lower ≤ p.upper pageSize
  cells : ∀ c ∈ p.cells, c.pageKind = p.kind

theorem HeapPageOk.length_lt (h : HeapPageOk n r pid p) (hn : n ≤ 65535) :
    p.cells.length < 65536 := by
  have := h.room
  unfold Page.lower Page.upper slotLen pageHeaderLen at this
  omega

theorem HeapPageOk.push {lsn : Nat} (h : HeapPageOk n r pid p) (hc : c.pageKind = p.kind)
    (hf : p.Fits n c) :
    HeapPageOk n r pid { p with cells := p.cells ++ [c], pageLsn := lsn } := by
  refine ⟨h.kind, h.pageId, h.rel, ?_, ?_⟩
  · unfold Page.Fits Page.lower Page.upper Page.cellBytes at hf
    simp only [Page.lower, Page.upper, Page.cellBytes, List.length_append, List.length_singleton,
      List.map_append, List.sum_append, List.map_cons, List.map_nil, List.sum_cons, List.sum_nil]
    rw [Nat.mul_add]
    omega
  · intro c' hc'
    rcases List.mem_append.1 hc' with hc' | hc'
    · exact h.cells c' hc'
    · rw [List.mem_singleton.1 hc']
      exact hc

theorem HeapPageOk.reinitialize {kind : PageKind} (hk : kind = .heap ∨ kind = .undo)
    (hn : pageHeaderLen + slotLen ≤ n) : HeapPageOk n r pid (Page.reinitialize kind pid r gen) := by
  refine ⟨hk, rfl, rfl, ?_, by simp [Page.reinitialize]⟩
  simp only [Page.reinitialize, Page.lower, Page.upper, Page.cellBytes, Special.len, pageHeaderLen,
    slotLen,
    List.length_nil, List.map_nil, List.sum_nil] at hn ⊢
  omega

theorem Page.fits_reinitialize {kind : PageKind}
    (hn : pageHeaderLen + slotLen ≤ n) (h : c.encodedLen ≤ n - (pageHeaderLen + slotLen)) :
    (Page.reinitialize kind pid r gen).Fits n c := by
  simp only [Page.Fits, Page.reinitialize, Page.lower, Page.upper, Page.cellBytes, Special.len,
    pageHeaderLen,
    slotLen, List.length_nil, List.map_nil, List.sum_nil] at hn h ⊢
  omega

abbrev Store.FramesClean (s : Store) : Prop :=
  ∀ q f, s.frames.lookup q = some f → f.dirty = false → s.file q = some f.page

namespace PageBackedHeap
variable {h h' : PageBackedHeap}

structure LaneWf (h : PageBackedHeap) : Prop where
  /-- Page ids are handed out from `1` and below the counter. -/
  ids : ∀ q p, h.store.fetch q = .ok p → 1 ≤ q ∧ q < h.store.nextPageId
  next : 1 ≤ h.store.nextPageId
  noUndo : h.reusableUndoPages = []
  nodup : h.reusableHeapPages.Nodup
  page : ∀ q p, h.store.fetch q = .ok p → HeapPageOk h.store.pageSize.bytes h.relId q p
  reusable : ∀ q ∈ h.reusableHeapPages, ∃ p, h.store.fetch q = .ok p ∧ p.kind = .heap
  laneHeap : ∀ i q, (h.appendLanes i).heapPage = some q →
    q ∉ h.reusableHeapPages ∧ ∃ p, h.store.fetch q = .ok p ∧ p.kind = .heap
  laneUndo : ∀ i q, (h.appendLanes i).undoPage = some q → ∃ p, h.store.fetch q = .ok p ∧
    p.kind = .undo
  /-- The undo page of a lane is the highest page with an undo record of the lane. -/
  undoMono : ∀ i q, (h.appendLanes i).undoPage = some q →
    ∀ (q' : Nat) (p : Page) (k : Nat) (u : UndoRecord),
    h.store.fetch q' = .ok p → p.cells[k]? = some (.undo u) → h.laneForRow u.rowId = i → q' ≤ q

/-- A heap whose pages are never reused. -/
structure HeapWf (h : PageBackedHeap) : Prop extends LaneWf h where
  noReuse : h.reusableHeapPages = []
  /-- A clean frame holds what the file holds. -/
  clean : h.store.FramesClean

variable {wp : Option WalPayload} {lsn pid tx : Nat} {kind : PageKind} {h0 h1 : PageBackedHeap}
variable {out : Option (Nat × Nat)}

theorem tryAppend_eq_ok {reinit : Bool} {c : Cell}
    (ht : h.tryAppend tx pid reinit kind c lsn wp = .ok (out, h')) :
    ∃ f s p, h.store.pin pid = .ok (f, s) ∧
      p = (if reinit then Page.reinitialize kind pid h.relId (f.page.generation + 1) else f.page) ∧
      ((∃ pageLsn wal, p.Fits h.store.pageSize.bytes c ∧ out = some (p.cells.length, p.generation) ∧
          logCell h.wal tx lsn wp = .ok (pageLsn, wal) ∧
          h' = { h with
            wal
            store := s.setFrame pid ⟨{ p with cells := p.cells ++ [c], pageLsn }, true⟩ }) ∨
        (¬ p.Fits h.store.pageSize.bytes c ∧ out = none ∧
          h' = { h with store := s.setFrame pid { f with page := p } })) := by
  simp only [tryAppend, bind_eq_ok, Prod.exists] at ht
  obtain ⟨f, s, hpin, ht⟩ := ht
  refine ⟨f, s, _, hpin, rfl, ?_⟩
  generalize hp :
    (if reinit then Page.reinitialize kind pid h.relId (f.page.generation + 1) else f.page) =
    p at ht
  split at ht
  · next slot staged hins =>
    obtain ⟨hfit, rfl, rfl⟩ := Page.insertCell_eq_ok.1 hins
    simp only [bind_eq_ok, pure_eq_ok, Prod.mk.injEq, Prod.exists] at ht
    obtain ⟨pageLsn, wal, hlog, rfl, rfl⟩ := ht
    exact .inl ⟨pageLsn, wal, hfit, rfl, hlog, rfl⟩
  · next hins =>
    simp only [pure_eq_ok, Prod.mk.injEq] at ht
    obtain ⟨rfl, rfl⟩ := ht
    exact .inr ⟨Page.insertCell_eq_error hins, rfl, rfl⟩

theorem clean_pin {s s' : Store} {f : Frame} (hp : s.pin pid = .ok (f, s')) (hc : s.FramesClean) :
    s'.FramesClean := by
  unfold Store.pin at hp
  split at hp
  · simp only [Except.ok.injEq, Prod.mk.injEq] at hp
    obtain ⟨-, rfl⟩ := hp
    exact hc
  · next hnone =>
    simp only [bind_eq_ok, pure_eq_ok, Prod.mk.injEq] at hp
    obtain ⟨p, hr, -, rfl⟩ := hp
    intro q f hq hd
    by_cases hqp : q = pid
    · subst hqp
      simp only [Store.setFrame, AList.lookup_insert, Option.some.injEq] at hq
      subst hq
      unfold Store.readPage at hr
      split at hr
      · next p' hp' => cases hr; exact hp'
      · split at hr <;> cases hr
    · simp only [Store.setFrame, AList.lookup_insert_ne hqp] at hq
      exact hc q f hq hd

theorem clean_setFrame_dirty {s : Store} {p : Page} (hc : s.FramesClean) :
    (s.setFrame pid ⟨p, true⟩).FramesClean := by
  intro q f hq hd
  by_cases hqp : q = pid
  · subst hqp
    simp only [Store.setFrame, AList.lookup_insert, Option.some.injEq] at hq
    subst hq
    cases hd
  · simp only [Store.setFrame, AList.lookup_insert_ne hqp] at hq
    exact hc q f hq hd

structure Put (h : PageBackedHeap) (kind : PageKind) (c : Cell) (pid slot gen : Nat)
    (h' : PageBackedHeap) : Prop where
  frame : h' =
    { h with store := h'.store, wal := h'.wal, reusableHeapPages := h'.reusableHeapPages }
  size : h'.store.pageSize = h.store.pageSize
  page : ∃ p' old, h'.store.fetch pid = .ok p' ∧ p'.kind = kind ∧ p'.generation = gen ∧
    HeapPageOk h.store.pageSize.bytes h.relId pid p' ∧ p'.cells = old ++ [c] ∧ old.length = slot ∧
    ((∃ p, h.store.fetch pid = .ok p ∧ pid ∉ h.reusableHeapPages ∧ p.cells = old ∧
      p.generation = gen ∧ p.kind = kind ∧
        h'.reusableHeapPages = h.reusableHeapPages) ∨
      (pid = h.store.nextPageId ∧ old = [] ∧ h'.reusableHeapPages = h.reusableHeapPages) ∨
      (kind = .heap ∧ old = [] ∧ h.reusableHeapPages = h'.reusableHeapPages ++ [pid]))
  other : ∀ q, q ≠ pid → h'.store.fetch q = h.store.fetch q
  ids : 1 ≤ pid ∧ pid < h'.store.nextPageId ∧ h.store.nextPageId ≤ h'.store.nextPageId

structure Stored (h : PageBackedHeap) (tx lsn : Nat) (wp : Option WalPayload) (pid : Nat)
    (h' : PageBackedHeap) : Prop where
  log : ∃ pageLsn, logCell h.wal tx lsn wp = .ok (pageLsn, h'.wal) ∧ ∃ p',
    h'.store.frames.lookup pid = some ⟨p', true⟩ ∧ p'.pageLsn = pageLsn
  alloc : h'.store.nextPageId ≤ max h.store.nextPageId (pid + 1)
  clean : h.store.FramesClean → h'.store.FramesClean
  file : h'.store.file = h.store.file ∧ h'.store.pageCount = h.store.pageCount
  active : (∀ p, h.store.fetch pid = .ok p → p.state = .active) → ∀ p, h'.store.fetch pid = .ok p →
    p.state = .active

structure SameStore (s s' : Store) : Prop where
  fetch : ∀ q, s'.fetch q = s.fetch q
  next : s'.nextPageId = s.nextPageId
  size : s'.pageSize = s.pageSize
  file : s'.file = s.file ∧ s'.pageCount = s.pageCount
  clean : s.FramesClean → s'.FramesClean

theorem SameStore.of_pin {s s' : Store} {f : Frame} (hpin : s.pin pid = .ok (f, s')) :
    SameStore s (s'.setFrame pid f) := by
  obtain ⟨hf, hs, hlook, hfile, hcount, hnid, hsize⟩ := Store.pin_ok hpin
  refine ⟨fun q => ?_, hnid, hsize, ⟨hfile, hcount⟩, fun hc q f' hq hd => ?_⟩
  · rw [Store.fetch_setFrame]
    split
    · next hq => subst hq; exact hf.symm
    · exact hs q
  · simp only [Store.setFrame, Lib.lookup_insert] at hq
    split at hq
    · next hq' =>
      cases hq
      exact clean_pin hpin hc q f (hq' ▸ hlook) hd
    · exact clean_pin hpin hc q f' hq hd

theorem nextAppendPage_cases (hu : h.reusableUndoPages = [])
    (hk : kind = .heap ∨ kind = .undo) (hn : h.nextAppendPage kind = .ok (pid, h1)) :
    (∃ rest, kind = .heap ∧ h.reusableHeapPages = rest ++ [pid] ∧
      h1 = { h with reusableHeapPages := rest }) ∨
      ∃ s, h.store.allocate kind h.relId = .ok (pid, s) ∧ h1 = { h with store := s } := by
  unfold nextAppendPage at hn
  split at hn
  · next r hr =>
    cases hn
    rcases hk with rfl | rfl
    · simp only [takeReusablePage, Option.map_eq_some_iff, Prod.mk.injEq] at hr
      obtain ⟨q, hlast, rfl, rfl⟩ := hr
      obtain ⟨rest, hrest⟩ := List.getLast?_eq_some_iff.1 hlast
      exact .inl ⟨rest, rfl, hrest, by rw [hrest, List.dropLast_concat]⟩
    · simp [takeReusablePage, hu] at hr
  · simp only [bind_eq_ok, pure_eq_ok, Prod.mk.injEq, Prod.exists] at hn
    obtain ⟨_, s, hal, rfl, rfl⟩ := hn
    exact .inr ⟨s, hal, rfl⟩

theorem nextAppendPage_spec (hw : LaneWf h)
    (hframe : h0 = { h with store := h0.store }) (hS : SameStore h.store h0.store)
    (hk : kind = .heap ∨ kind = .undo)
    (hnext : h0.nextAppendPage kind = .ok (pid, h1)) :
    h1 = { h with store := h1.store, reusableHeapPages := h1.reusableHeapPages } ∧
      (1 ≤ pid ∧ pid < h1.store.nextPageId ∧ h.store.nextPageId ≤ h1.store.nextPageId ∧
        h1.store.nextPageId ≤ max h.store.nextPageId (pid + 1)) ∧
      (∀ q, q ≠ pid → h1.store.fetch q = h.store.fetch q) ∧ h1.store.pageSize = h.store.pageSize ∧
      (h1.store.file = h.store.file ∧ h1.store.pageCount = h.store.pageCount) ∧
      (h.store.FramesClean → h1.store.FramesClean) ∧
      ((pid = h.store.nextPageId ∧ h1.reusableHeapPages = h.reusableHeapPages) ∨
        (kind = .heap ∧ h.reusableHeapPages = h1.reusableHeapPages ++ [pid])) := by
  have hu : h0.reusableUndoPages = [] := by
    rw [hframe]
    exact hw.noUndo
  have hreuse : h0.reusableHeapPages = h.reusableHeapPages := by rw [hframe]
  have hn := hS.next
  rcases nextAppendPage_cases hu hk hnext with ⟨rest, hheap, hrest, rfl⟩ | ⟨s, hal, rfl⟩
  · obtain ⟨p, hp, -⟩ := hw.reusable pid (by rw [← hreuse, hrest]; simp)
    have hid := hw.ids pid p hp
    refine ⟨by rw [hframe], ⟨hid.1, ?_, ?_, ?_⟩, fun q _ => hS.fetch q, hS.size, hS.file, hS.clean,
      .inr ⟨hheap, hreuse ▸ hrest⟩⟩
    all_goals
      dsimp only
      omega
  · obtain ⟨rfl, rfl⟩ := Store.allocate_ok hal
    have hpos := hw.next
    refine ⟨by rw [hframe], ⟨by omega, ?_, ?_, ?_⟩, fun q hq => ?_, hS.size, hS.file,
      fun hc => clean_setFrame_dirty (hS.clean hc), .inl ⟨hn, hreuse⟩⟩
    · simp [Store.setFrame]
    · simp [Store.setFrame, hn]
    · simp [Store.setFrame]
    · exact (Store.fetch_setFrame_ne hq).trans (hS.fetch q)

/-- A round on a page that the append loop has just taken: it is emptied and has room. `h0` is the
heap with what the rounds before have done, which is nothing that can be read. -/
theorem Put.of_next {c : Cell} (hw : LaneWf h) (hframe : h0 = { h with store := h0.store })
    (hS : SameStore h.store h0.store) (hk : kind = .heap ∨ kind = .undo) (hck : c.pageKind = kind)
    (hsz : c.encodedLen ≤ h.store.pageSize.bytes - (pageHeaderLen + slotLen))
    (hnext : h0.nextAppendPage kind = .ok (pid, h1))
    (ht : h1.tryAppend tx pid true kind c lsn wp = .ok (out, h')) :
    ∃ gen, out = some (0, gen) ∧ Put h kind c pid 0 gen h' ∧ Stored h tx lsn wp pid h' ∧
      (h.reusableHeapPages = [] ∨ kind = .undo → pid = h.store.nextPageId) := by
  obtain ⟨hfr, ⟨hpos, hlt, hle, halloc⟩, hother, hsz1, ⟨hfile, hcount⟩, hclean, hcase⟩ :=
    nextAppendPage_spec hw hframe hS hk hnext
  obtain ⟨f, s, p, hpin, hp, hround⟩ := tryAppend_eq_ok ht
  obtain ⟨-, hs, -, hfile', hcount', hnid', hsize'⟩ := Store.pin_ok hpin
  have hrel1 : h1.relId = h.relId := by rw [hfr]
  have hwal1 : h1.wal = h.wal := by rw [hfr]
  rw [if_pos rfl, hrel1] at hp
  have hfit : p.Fits h1.store.pageSize.bytes c := by
    rw [hp, hsz1]
    exact Page.fits_reinitialize h.store.pageSize.min_le hsz
  obtain ⟨pageLsn, wal, -, rfl, hlog, rfl⟩ | ⟨hn, -⟩ := hround
  swap
  · exact absurd hfit hn
  have hcells : p.cells = [] := by rw [hp]; rfl
  have hpk : p.kind = kind := by rw [hp]; rfl
  have hpush : HeapPageOk h.store.pageSize.bytes h.relId pid
      { p with cells := p.cells ++ [c], pageLsn } :=
    HeapPageOk.push (hp ▸ HeapPageOk.reinitialize hk h.store.pageSize.min_le) (by rw [hck, hpk])
      (hsz1 ▸ hfit)
  refine ⟨p.generation, by rw [hcells]; rfl,
    ⟨?_, hsize'.trans hsz1, ⟨{ p with cells := p.cells ++ [c], pageLsn }, [], ?_⟩, fun q hq => ?_,
      hpos, ?_, ?_⟩,
    ⟨⟨pageLsn, hwal1 ▸ hlog, _, by simp [Store.setFrame]; rfl, rfl⟩, ?_, fun hc => ?_,
      ⟨hfile'.trans hfile,
      hcount'.trans hcount⟩, fun _ p' hp' => ?_⟩, ?_⟩
  · rw [hfr]
  · refine ⟨Store.fetch_setFrame_self, hpk, rfl, ?_, by rw [hcells], rfl, ?_⟩
    · exact hpush
    · rcases hcase with ⟨hid, hr⟩ | ⟨hheap, hr⟩
      · exact .inr (.inl ⟨hid, rfl, hr⟩)
      · exact .inr (.inr ⟨hheap, rfl, hr⟩)
  · exact (Store.fetch_setFrame_ne hq).trans ((hs q).trans (hother q hq))
  · simpa only [Store.setFrame, hnid'] using hlt
  · simpa only [Store.setFrame, hnid'] using hle
  · simpa only [Store.setFrame, hnid'] using halloc
  · exact clean_setFrame_dirty (clean_pin hpin (hclean hc))
  · cases Store.fetch_setFrame_self.symm.trans hp'
    rw [hp]
    rfl
  · intro hnone
    rcases hcase with ⟨hid, -⟩ | ⟨rfl, hr⟩
    · exact hid
    · simp [hr] at hnone

theorem appendCell_put {slot gen : Nat} {c : Cell}
    {cur : Option Nat} (hw : LaneWf h) (hk : kind = .heap ∨ kind = .undo) (hck : c.pageKind = kind)
    (hcur : ∀ q, cur = some q → q ∉ h.reusableHeapPages ∧ ∃ p, h.store.fetch q = .ok p ∧
      p.kind = kind)
    (ha : h.appendCell tx cur kind c lsn wp = .ok ((pid, slot, gen), h')) :
    Put h kind c pid slot gen h' ∧ Stored h tx lsn wp pid h' ∧
      (h.reusableHeapPages = [] ∨ kind = .undo → (∀ q, cur = some q → q ≤ pid) ∧
        (cur = none → pid = h.store.nextPageId)) := by
  simp only [appendCell, bind_eq_ok, ensureCellSize, require_eq_ok] at ha
  obtain ⟨-, hsz, ha⟩ := ha
  cases cur with
  | none =>
    simp only [bind_eq_ok, Prod.exists] at ha
    obtain ⟨q, h1, hnext, ha⟩ := ha
    simp only [appendLoop, bind_eq_ok, Prod.exists] at ha
    obtain ⟨out, h2, ht, ha⟩ := ha
    obtain ⟨g, rfl, hP, hst, hfresh⟩ :=
      Put.of_next hw rfl ⟨fun _ => rfl, rfl, rfl, ⟨rfl, rfl⟩, id⟩ hk hck hsz hnext ht
    simp only [pure_eq_ok, Prod.mk.injEq] at ha
    obtain ⟨⟨rfl, rfl, rfl⟩, rfl⟩ := ha
    exact ⟨hP, hst, fun hundo => ⟨by simp, fun _ => hfresh hundo⟩⟩
  | some q =>
    obtain ⟨hnr, p, hfq, hpk⟩ := hcur q rfl
    dsimp only at ha
    rw [appendLoop] at ha
    simp only [bind_eq_ok, Prod.exists] at ha
    obtain ⟨out, h2, ht, ha⟩ := ha
    obtain ⟨f, s, p', hpin, hp', hcase⟩ := tryAppend_eq_ok ht
    obtain ⟨hf, hs, hlook, hfile, hcount, hnid, hsize⟩ := Store.pin_ok hpin
    rw [hfq] at hf
    cases hf
    simp only [Bool.false_eq_true, ite_false] at hp'
    subst hp'
    have hids := hw.ids q _ hfq
    obtain ⟨pageLsn, wal, hfit, rfl, hlog, rfl⟩ | ⟨-, rfl, rfl⟩ := hcase
    · simp only [pure_eq_ok, Prod.mk.injEq] at ha
      obtain ⟨⟨rfl, rfl, rfl⟩, rfl⟩ := ha
      have hpush : HeapPageOk h.store.pageSize.bytes h.relId q
          { f.page with cells := f.page.cells ++ [c], pageLsn } :=
        (hw.page q _ hfq).push (by rw [hck]; exact hpk.symm) hfit
      refine ⟨⟨rfl, hsize, ⟨_, f.page.cells, Store.fetch_setFrame_self, hpk, rfl, hpush, rfl, rfl,
        ?_⟩, fun q' hq' => ?_,
          hids.1, ?_, ?_⟩, ⟨⟨pageLsn, hlog, _, by simp [Store.setFrame]; rfl, rfl⟩, ?_,
            fun hc => ?_, ⟨hfile, hcount⟩,
          fun hact p' hp' => ?_⟩, fun _ => ⟨?_, by simp⟩⟩
      · exact .inl ⟨f.page, hfq, hnr, rfl, rfl, hpk, rfl⟩
      · exact (Store.fetch_setFrame_ne hq').trans (hs q')
      · simpa only [Store.setFrame, hnid] using hids.2
      · simp only [Store.setFrame, hnid, le_refl]
      · simp only [Store.setFrame, hnid, le_max_left]
      · exact clean_setFrame_dirty (clean_pin hpin hc)
      · cases Store.fetch_setFrame_self.symm.trans hp'
        exact hact f.page hfq
      · rintro _ ⟨⟩
        exact le_rfl
    · -- the lane's page is full: the second round is on another one
      simp only [bind_eq_ok, Prod.exists, appendLoop] at ha
      obtain ⟨q2, h3, hnext, out2, h4, ht2, ha⟩ := ha
      obtain ⟨g, rfl, hP, hst, hfresh⟩ := Put.of_next hw rfl (.of_pin hpin) hk hck hsz hnext ht2
      simp only [pure_eq_ok, Prod.mk.injEq] at ha
      obtain ⟨⟨rfl, rfl, rfl⟩, rfl⟩ := ha
      refine ⟨hP, hst, fun hundo => ⟨?_, by simp⟩⟩
      rintro _ ⟨⟩
      rw [hfresh hundo]
      exact hids.2.le

end PageBackedHeap
end RedlineDb
