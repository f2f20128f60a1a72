import RedlineDb.HeapPages

/-!
# Writing back dirty pages

`Flushed s qs s'`: the frames of `qs` were written back, which changes nothing a reader gets. A loop
of batches with nobody else at work writes back every dirty page whose LSN is durable. Once the log
is durable up to its end, the page file then reads as the pool does.
-/

namespace RedlineDb
namespace Store
open List
variable {s s1 s' : Store} {q x durable batchPages : Nat} {qs rs : List Nat}

def FrameIds (s : Store) : Prop := ∀ q f, s.frames.lookup q = some f → f.page.pageId = q

structure Flushed (s : Store) (qs : List Nat) (s' : Store) : Prop where
  frames : ∀ x, s'.frames.lookup x =
    (s.frames.lookup x).map fun f => if x ∈ qs then { f with dirty := false } else f
  file : ∀ x, s'.file x = if x ∈ qs then (s.frames.lookup x).elim (s.file x) (some ·.page)
    else s.file x
  next : s'.nextPageId = s.nextPageId
  size : s'.pageSize = s.pageSize
  /-- The file grows up to the highest page written. -/
  count : s.pageCount ≤ s'.pageCount ∧
    (∀ x ∈ qs, ∀ f, s.frames.lookup x = some f → x ≤ s'.pageCount) ∧
    ∀ n, s.pageCount ≤ n → (∀ x ∈ qs, ∀ f, s.frames.lookup x = some f → x ≤ n) → s'.pageCount ≤ n

theorem Flushed.nil : Flushed s [] s := by
  refine ⟨?_, by simp, rfl, rfl, le_rfl, by simp, fun n h _ => h⟩
  intro x
  simp

theorem Flushed.frameIds (hF : Flushed s qs s') (hid : FrameIds s) : FrameIds s' := by
  intro q f hq
  rw [hF.frames, Option.map_eq_some_iff] at hq
  obtain ⟨f0, h0, rfl⟩ := hq
  have := hid q f0 h0
  split <;> exact this

theorem flushed_flushFrame (hid : FrameIds s) (q : Nat) : Flushed s [q] (s.flushFrame q) := by
  unfold flushFrame
  cases hq : s.frames.lookup q with
  | none =>
    refine ⟨?_, ?_, rfl, rfl, le_rfl, ?_, fun n h _ => h⟩
    · intro x
      by_cases hx : x = q
      · subst hx; simp [hq]
      · simp [hx]
    · intro x
      by_cases hx : x = q
      · subst hx; simp [hq]
      · simp [hx]
    · intro x hx f hf
      rw [mem_singleton.1 hx, hq] at hf
      cases hf
  | some f =>
    have hp := hid q f hq
    refine ⟨?_, ?_, rfl, rfl, le_max_left _ _, ?_, ?_⟩
    · intro x
      by_cases hx : x = q
      · subst hx; simp [setFrame, hq]
      · simp [setFrame, writePageDirect, AList.lookup_insert_ne hx, hx]
    · intro x
      by_cases hx : x = q
      · subst hx; simp [setFrame, writePageDirect, hp, hq]
      · simp [setFrame, writePageDirect, hp, hx]
    · intro x hx _ _
      rw [mem_singleton.1 hx, ← hp]
      exact le_max_right _ _
    · intro n h1 h2
      have := h2 q (by simp) f hq
      exact Nat.max_le.2 ⟨h1, hp ▸ this⟩

theorem Flushed.trans (h1 : Flushed s qs s1) (h2 : Flushed s1 rs s') : Flushed s (qs ++ rs) s' := by
  have hsome : ∀ x f, s.frames.lookup x = some f → ∃ f', s1.frames.lookup x = some f' ∧
      f'.page = f.page := by
    intro x f hf
    rw [h1.frames, hf]
    refine ⟨_, rfl, ?_⟩
    dsimp only
    split <;> rfl
  have hsome' : ∀ x f', s1.frames.lookup x = some f' → ∃ f, s.frames.lookup x = some f := by
    intro x f' hf
    rw [h1.frames, Option.map_eq_some_iff] at hf
    obtain ⟨f, hf, -⟩ := hf
    exact ⟨f, hf⟩
  refine ⟨?_, ?_, h2.next.trans h1.next, h2.size.trans h1.size,
    le_trans h1.count.1 h2.count.1, ?_, ?_⟩
  · intro x
    rw [h2.frames, h1.frames, Option.map_map]
    congr 1
    funext f
    by_cases hq : x ∈ qs <;> by_cases hr : x ∈ rs <;> simp [hq, hr]
  · intro x
    rw [h2.file, h1.frames, h1.file]
    cases hf : s.frames.lookup x with
    | none => by_cases hq : x ∈ qs <;> by_cases hr : x ∈ rs <;> simp [hq, hr]
    | some f => by_cases hq : x ∈ qs <;> by_cases hr : x ∈ rs <;> simp [hq, hr]
  · intro x hx f hf
    rcases mem_append.1 hx with hx | hx
    · exact le_trans (h1.count.2.1 x hx f hf) h2.count.1
    · obtain ⟨f', hf', -⟩ := hsome x f hf
      exact h2.count.2.1 x hx f' hf'
  · intro n hn hall
    refine h2.count.2.2 n (h1.count.2.2 n hn fun x hx => hall x (by simp [hx])) ?_
    intro x hx f' hf'
    obtain ⟨f, hf⟩ := hsome' x f' hf'
    exact hall x (by simp [hx]) f hf

theorem flushed_foldl (hid : FrameIds s) (qs : List Nat) :
    Flushed s qs (qs.foldl flushFrame s) := by
  induction qs generalizing s with
  | nil => exact .nil
  | cons q qs ih =>
    have h1 := flushed_flushFrame hid q
    exact h1.trans (ih (h1.frameIds hid))

theorem mem_dirtyFrames : x ∈ s.dirtyFrames durable ↔
    ∃ f, s.frames.lookup x = some f ∧ f.dirty = true ∧ f.page.pageLsn ≤ durable := by
  unfold dirtyFrames
  simp only [mem_map, mem_filter, Bool.and_eq_true, decide_eq_true_eq]
  constructor
  · rintro ⟨⟨y, f⟩, ⟨hm, hd, hl⟩, rfl⟩
    exact ⟨f, AList.mem_lookup_iff.2 hm, hd, hl⟩
  · rintro ⟨f, hf, hd, hl⟩
    exact ⟨⟨x, f⟩, ⟨AList.mem_lookup_iff.1 hf, hd, hl⟩, rfl⟩

theorem nodup_dirtyFrames : (s.dirtyFrames durable).Nodup :=
  List.Nodup.sublist (filter_sublist.map _) s.frames.keys_nodup

theorem Flushed.mem_dirtyFrames (hF : Flushed s qs s') :
    x ∈ s'.dirtyFrames durable ↔ x ∈ s.dirtyFrames durable ∧ x ∉ qs := by
  rw [Store.mem_dirtyFrames, Store.mem_dirtyFrames]
  simp only [hF.frames, Option.map_eq_some_iff]
  constructor
  · rintro ⟨_, ⟨f, hf, rfl⟩, hd, hl⟩
    by_cases hx : x ∈ qs
    · simp [hx] at hd
    · simp only [hx, if_false] at hd hl
      exact ⟨⟨f, hf, hd, hl⟩, hx⟩
  · rintro ⟨⟨f, hf, hd, hl⟩, hx⟩
    exact ⟨f, ⟨f, hf, by simp [hx]⟩, hd, hl⟩

theorem flushLoop_flushed (hid : FrameIds s) (hb : 1 ≤ batchPages) {rounds : Nat}
    (hr : (s.dirtyFrames durable).length < rounds) :
    ∃ qs, Flushed s qs (flushLoop durable batchPages rounds s) ∧
      ∀ x ∈ s.dirtyFrames durable, x ∈ qs := by
  induction rounds generalizing s with
  | zero => omega
  | succ rounds ih =>
    have hF := flushed_foldl hid ((s.dirtyFrames durable).take
      (min (max batchPages 1) (max (s.dirtyFrames durable).length 1)))
    unfold flushLoop flushDirtyBatch
    dsimp only
    generalize hk : min (max batchPages 1) (max (s.dirtyFrames durable).length 1) = k at hF
    split
    · next h0 =>
      rw [length_take] at h0
      have : (s.dirtyFrames durable).length = 0 := by omega
      refine ⟨_, hF, ?_⟩
      rw [length_eq_zero_iff.1 this]
      simp
    · next h0 =>
      rw [length_take] at h0
      split
      · next hlt =>
        rw [length_take] at hlt
        refine ⟨_, hF, ?_⟩
        intro x hx
        rw [take_of_length_le (by omega)]
        exact hx
      · next hge =>
        -- what is still dirty was not in the batch, so it is among the rest
        have hsub : (((s.dirtyFrames durable).take k).foldl flushFrame s).dirtyFrames durable ⊆
            (s.dirtyFrames durable).drop k := by
          intro x hx
          obtain ⟨h1, h2⟩ := hF.mem_dirtyFrames.1 hx
          rw [← take_append_drop k (s.dirtyFrames durable)] at h1
          exact (mem_append.1 h1).resolve_left h2
        have hlen := (subperm_of_subset nodup_dirtyFrames hsub).length_le
        rw [length_drop] at hlen
        obtain ⟨rs, hR, hall⟩ := ih (hF.frameIds hid) (by omega)
        refine ⟨_, hF.trans hR, ?_⟩
        intro x hx
        by_cases hxk : x ∈ (s.dirtyFrames durable).take k
        · exact mem_append_left _ hxk
        · exact mem_append_right _ (hall x (hF.mem_dirtyFrames.2 ⟨hx, hxk⟩))

theorem flushDirtyBatches_flushed (hid : FrameIds s) (durable batchPages : Nat) :
    ∃ qs, Flushed s qs (s.flushDirtyBatches durable batchPages) ∧ ∀ x ∈ s.dirtyFrames durable,
      x ∈ qs :=
  flushLoop_flushed hid (Nat.le_max_right _ _) (Nat.lt_succ_self _)

theorem Flushed.fetch_eq (hF : Flushed s qs s') {p : Page} :
    s'.fetch q = .ok p ↔ s.fetch q = .ok p := by
  rw [fetch_eq_ok, fetch_eq_ok, hF.frames, hF.file]
  cases hf : s.frames.lookup q with
  | none => by_cases hq : q ∈ qs <;> simp [hq]
  | some f => by_cases hq : q ∈ qs <;> simp [hq]

end Store

namespace PageBackedHeap
variable {h : PageBackedHeap} {d b : Nat} {s' : Store} {qs : List Nat}
section
variable (hL : LiveHeap h)
include hL

theorem LiveHeap.frameIds : h.store.FrameIds :=
  fun q f hf => (hL.wf.page q f.page (Store.fetch_eq_ok.2 (.inl ⟨f, hf, rfl⟩))).pageId

theorem LiveHeap.file_le (hF : Store.Flushed h.store qs s') {q : Nat} {p : Page}
    (hq : s'.file q = some p) :
    q ≤ s'.pageCount := by
  rw [hF.file] at hq
  by_cases hm : q ∈ qs
  · rw [if_pos hm] at hq
    cases hf : h.store.frames.lookup q with
    | some f => exact hF.count.2.1 q hm f hf
    | none =>
      rw [hf] at hq
      exact (hL.pages.file q p hq).trans hF.count.1
  · rw [if_neg hm] at hq
    exact (hL.pages.file q p hq).trans hF.count.1

theorem LiveHeap.pageCount_lt (hF : Store.Flushed h.store qs s') :
    s'.pageCount < h.store.nextPageId := by
  have hcount := hL.pages.count
  have hlt : s'.pageCount ≤ h.store.nextPageId - 1 := by
    refine hF.count.2.2 _ (by omega) ?_
    intro x _ f hf
    have := (hL.wf.ids x f.page (Store.fetch_eq_ok.2 (.inl ⟨f, hf, rfl⟩))).2
    omega
  omega

theorem LiveHeap.flushed (hF : Store.Flushed h.store qs s') : LiveHeap { h with store := s' } := by
  have hfetch : ∀ q p, s'.fetch q = .ok p ↔ h.store.fetch q = .ok p := fun q p => hF.fetch_eq
  constructor
  · refine ⟨⟨?_, ?_, hL.wf.noUndo, hL.wf.nodup, ?_, ?_, ?_, ?_, ?_⟩, hL.wf.noReuse, ?_⟩
    · intro q p hq
      have := hL.wf.ids q p ((hfetch q p).1 hq)
      rw [← hF.next] at this
      exact this
    · show 1 ≤ s'.nextPageId
      rw [hF.next]
      exact hL.wf.next
    · intro q p hq
      show HeapPageOk s'.pageSize.bytes h.relId q p
      rw [hF.size]
      exact hL.wf.page q p ((hfetch q p).1 hq)
    · intro q hq
      obtain ⟨p, hp, hk⟩ := hL.wf.reusable q hq
      exact ⟨p, (hfetch q p).2 hp, hk⟩
    · intro i q hi
      obtain ⟨hnr, p, hp, hk⟩ := hL.wf.laneHeap i q hi
      exact ⟨hnr, p, (hfetch q p).2 hp, hk⟩
    · intro i q hi
      obtain ⟨p, hp, hk⟩ := hL.wf.laneUndo i q hi
      exact ⟨p, (hfetch q p).2 hp, hk⟩
    · intro i q hi q' p k u hq' hk hlane
      exact hL.wf.undoMono i q hi q' p k u ((hfetch q' p).1 hq') hk hlane
    · intro q f hq hclean
      have hq' : s'.frames.lookup q = some f := hq
      rw [hF.frames, Option.map_eq_some_iff] at hq'
      obtain ⟨f0, h0, rfl⟩ := hq'
      show s'.file q = _
      rw [hF.file]
      by_cases hm : q ∈ qs
      · simp [hm, h0]
      · simp only [if_neg hm] at hclean ⊢
        exact hL.wf.clean q f0 h0 hclean
  · refine ⟨fun q p hq => hL.pages.active q p ((hfetch q p).1 hq),
      fun q p hq => hL.pages.lsn q p ((hfetch q p).1 hq), ?_, ?_, fun q p hq => hL.file_le hF hq⟩
    · intro q h1 hq
      obtain ⟨p, hp⟩ := hL.pages.all q h1 (by rw [← hF.next]; exact hq)
      exact ⟨p, (hfetch q p).2 hp⟩
    · show s'.pageCount < s'.nextPageId
      rw [hF.next]
      exact hL.pageCount_lt hF
  · refine ⟨fun q p k t hq => hL.heads.norm q p k t ((hfetch q p).1 hq),
      fun q p k t hq => hL.heads.last q p k t ((hfetch q p).1 hq), ?_⟩
    intro rel row ptr hptr
    obtain ⟨p, t, hp, hrest⟩ := hL.heads.head rel row ptr hptr
    exact ⟨p, t, (hfetch _ p).2 hp, hrest⟩

/-- Once the whole log is durable, flushing writes every page: the file holds what readers get. -/
theorem LiveHeap.file_flushed (hd : h.wal.reservedLsn ≤ d) (q : Nat) (p : Page) :
    (h.store.flushDirtyBatches d b).file q = some p ↔ h.store.fetch q = .ok p := by
  obtain ⟨qs, hF, hall⟩ := Store.flushDirtyBatches_flushed hL.frameIds d b
  rw [hF.file, Store.fetch_eq_ok]
  cases hf : h.store.frames.lookup q with
  | none => simp
  | some f =>
    by_cases hq : q ∈ qs
    · simp [hq]
    · -- a page left out was clean
      have hclean : f.dirty = false := by
        by_contra hdirty
        refine hq (hall q (Store.mem_dirtyFrames.2 ⟨f, hf, by simpa using hdirty, ?_⟩))
        exact (hL.pages.lsn q f.page (Store.fetch_eq_ok.2 (.inl ⟨f, hf, rfl⟩))).trans hd
      simp [hq, hL.wf.clean q f hf hclean]

theorem LiveHeap.pageCount_flushed (hd : h.wal.reservedLsn ≤ d) :
    (h.store.flushDirtyBatches d b).pageCount + 1 = h.store.nextPageId := by
  have hfile := hL.file_flushed hd (b := b)
  obtain ⟨qs, hF, -⟩ := Store.flushDirtyBatches_flushed hL.frameIds d b
  generalize h.store.flushDirtyBatches d b = s' at hF hfile ⊢
  have hlt := hL.pageCount_lt hF
  by_cases h1 : h.store.nextPageId = 1
  · omega
  · obtain ⟨p, hp⟩ := hL.pages.all (h.store.nextPageId - 1) (by omega) (by omega)
    have := hL.file_le hF ((hfile _ p).2 hp)
    omega

theorem LiveHeap.fetch_openFile (hd : h.wal.reservedLsn ≤ d) (pageSize : PageSize) (q : Nat) :
    (Store.openFile pageSize (h.store.flushDirtyBatches d b).file
      (h.store.flushDirtyBatches d b).pageCount).fetch q = h.store.fetch q := by
  have hfile := hL.file_flushed hd (b := b) q
  have hcount := hL.pageCount_flushed hd (b := b)
  generalize h.store.flushDirtyBatches d b = s' at hfile hcount ⊢
  rw [Store.fetch, Store.openFile, AList.lookup_empty]
  dsimp only [Store.readPage]
  cases hf : s'.file q with
  | some p => exact ((hfile p).1 hf).symm
  | none =>
    have hnone : ∀ p, h.store.fetch q ≠ .ok p := by
      intro p hp
      rw [(hfile p).2 hp] at hf
      cases hf
    -- the pages that are not there are `0` and those past the end
    have hpages := hL.pages.count
    have hq : q = 0 ∨ h.store.nextPageId ≤ q := by
      by_contra hc
      obtain ⟨p, hp⟩ := hL.pages.all q (by omega) (by omega)
      exact hnone p hp
    unfold Store.fetch at hnone ⊢
    cases hfr : h.store.frames.lookup q with
    | some f => exact absurd rfl (hfr ▸ hnone f.page)
    | none =>
      cases hfl : h.store.file q with
      | some p => exact absurd (by simp [hfr, Store.readPage, hfl]) (hnone p)
      | none =>
        rcases hq with rfl | hq
        · simp [Store.readPage, hfl]
        · simp only [Store.readPage, hfl]
          rw [if_neg (by omega), if_neg (by omega)]

theorem LiveHeap.fetch_flushed (hd : h.wal.reservedLsn ≤ d) (q : Nat) :
    (h.store.flushDirtyBatches d b).fetch q = h.store.fetch q := by
  obtain ⟨qs, hF, -⟩ := Store.flushDirtyBatches_flushed hL.frameIds d b
  have hopen := hL.fetch_openFile hd h.store.pageSize q (b := b)
  generalize h.store.flushDirtyBatches d b = s' at hF hopen ⊢
  cases hf : s'.frames.lookup q with
  | some f =>
    have hp : s'.fetch q = .ok f.page := by rw [Store.fetch, hf]
    rw [hp, hF.fetch_eq.1 hp]
  | none =>
    rw [← hopen, Store.fetch, hf]
    rfl

end
end PageBackedHeap
end RedlineDb
