import RedlineDb.Vacuum

/-!
# Vacuum and reads

A vacuum with horizon `H` changes nothing for a snapshot at or above `H`: a row it removes reads as
deleted there, and a chain it cuts is behind a version that is visible there (`vacuum_ok`). The
pages it gives back have no head on them, so inserts that take them change the rows they insert only
(`vacuum_preserves_reads`).
-/

namespace RedlineDb.PageBackedHeap
open Lib
variable {h h' : PageBackedHeap}
variable {pid rel row : Nat}

theorem Store.pin_of_fetch {s : Store} {p : Page} (hf : s.fetch pid = .ok p) :
    ∃ f s', s.pin pid = .ok (f, s') ∧ f.page = p := by
  unfold Store.fetch at hf
  unfold Store.pin
  split at hf
  · next f _ =>
    cases hf
    exact ⟨f, s, rfl, rfl⟩
  · exact ⟨⟨p, false⟩, s.setFrame pid ⟨p, false⟩, by simp only [hf]; rfl, rfl⟩

theorem pageHasNoHeads_iff :
    h.pageHasNoHeads pid = true ↔ ∀ rel row ptr, h.headForRelation rel row = some ptr →
      ptr.pageId ≠ pid := by
  simp only [pageHasNoHeads, List.all_eq_true, decide_eq_true_eq, headForRelation]
  exact ⟨fun hall rel row ptr hd => hall ⟨(rel, row), ptr⟩ (AList.mem_lookup_iff.1 hd),
    fun hall e he => hall e.1.1 e.1.2 e.2 (AList.mem_lookup_iff.2 he)⟩

variable {l : List TupleVersion}

theorem getForRelation_eq_of_chain {txs : ConcurrentTxStatus} {snapshot : Snapshot}
    {owner : Option Nat} (hc : RowChain h rel row l) (hc' : RowChain h' rel row l) :
    h'.getForRelation txs snapshot owner rel row = h.getForRelation txs snapshot owner rel row := by
  rw [getForRelation_chain hc, getForRelation_chain hc']

def ReadsAs (txs : ConcurrentTxStatus) (horizon : Nat) (h h' : PageBackedHeap) : Prop :=
  ∀ (snapshot : Snapshot) (owner : Option Nat) (rel row : Nat), horizon ≤ snapshot.visibleCsn →
    h'.getForRelation txs snapshot owner rel row = h.getForRelation txs snapshot owner rel row

/-! ### Changing a page in place -/

theorem ReuseWf.setPage {s : Store} {p p' : Page} (hw : ReuseWf h) (hf : h.store.fetch pid = .ok p)
    (hs : ∀ q, s.fetch q = if q = pid then .ok p' else h.store.fetch q)
    (hnext : s.nextPageId = h.store.nextPageId)
    (hsize : s.pageSize = h.store.pageSize) (hkind : p'.kind = p.kind)
    (hok : HeapPageOk h.store.pageSize.bytes h.relId pid p')
    (hundo : ∀ (k : Nat) (u : UndoRecord), p'.cells[k]? = some (Cell.undo u) →
      p.cells[k]? = some (Cell.undo u))
    (hhead : ∀ rel row ptr t l, h.headForRelation rel row = some ptr → HeadOk h rel row ptr t l →
      ∃ t l, HeadOk { h with store := s } rel row ptr t l) : ReuseWf { h with store := s } := by
  have hfetch : ∀ q p₁, s.fetch q = .ok p₁ → (q = pid ∧ p₁ = p') ∨
      (q ≠ pid ∧ h.store.fetch q = .ok p₁) := by
    intro q p₁ hq
    rw [hs] at hq
    split at hq
    · next h => cases hq; exact .inl ⟨h, rfl⟩
    · next h => exact .inr ⟨h, hq⟩
  have hback : ∀ q k, (∃ p, h.store.fetch q = .ok p ∧ p.kind = k) → ∃ p, s.fetch q = .ok p ∧
      p.kind = k := by
    rintro q k ⟨p₁, hp₁, hk⟩
    rw [hs]
    split
    · next h =>
      rw [h, hf] at hp₁
      cases hp₁
      exact ⟨p', rfl, hkind.trans hk⟩
    · exact ⟨p₁, hp₁, hk⟩
  refine ⟨⟨fun q p₁ hq => ?_, ?_, hw.noUndo, hw.nodup, fun q p₁ hq => ?_,
    fun q hq => hback q _ (hw.reusable q hq),
    fun i q hi => ⟨(hw.laneHeap i q hi).1, hback q _ (hw.laneHeap i q hi).2⟩, fun i q hi =>
      hback q _ (hw.laneUndo i q hi),
    fun i q hi q' p₁ k u hq' hc hlane => ?_⟩, fun rel row ptr hd => ?_⟩
  · show 1 ≤ q ∧ q < s.nextPageId
    rw [hnext]
    rcases hfetch q p₁ hq with ⟨rfl, -⟩ | ⟨-, hq⟩
    · exact hw.ids q p hf
    · exact hw.ids q p₁ hq
  · show 1 ≤ s.nextPageId
    rw [hnext]
    exact hw.next
  · show HeapPageOk s.pageSize.bytes h.relId q p₁
    rw [hsize]
    rcases hfetch q p₁ hq with ⟨rfl, rfl⟩ | ⟨-, hq⟩
    · exact hok
    · exact hw.page q p₁ hq
  · rcases hfetch q' p₁ hq' with ⟨rfl, rfl⟩ | ⟨-, hq'⟩
    · exact hw.undoMono i q hi q' p k u hf (hundo k u hc) hlane
    · exact hw.undoMono i q hi q' p₁ k u hq' hc hlane
  · obtain ⟨hnr, hz, t, l, hok⟩ := hw.head rel row ptr hd
    exact ⟨hnr, hz, hhead rel row ptr t l hd hok⟩

theorem ReuseWf.giveBack {p : Page} (hw : ReuseWf h) (hf : h.store.fetch pid = .ok p)
    (hk : p.kind = .heap)
    (hno : ∀ rel row ptr, h.headForRelation rel row = some ptr → ptr.pageId ≠ pid) :
    ReuseWf ((h.clearCurrentPageReference pid).pushReusablePage .heap pid) := by
  have hlane : ∀ i q, (AppendLane.clear (h.appendLanes i) pid).heapPage = some q →
      (h.appendLanes i).heapPage = some q ∧ q ≠ pid := by
    intro i q hq
    simp only [AppendLane.clear] at hq
    split at hq
    · cases hq
    · next hne => exact ⟨hq, fun h => hne (h ▸ hq)⟩
  have hlaneUndo : ∀ i q, (AppendLane.clear (h.appendLanes i) pid).undoPage = some q →
      (h.appendLanes i).undoPage = some q := by
    intro i q hq
    simp only [AppendLane.clear] at hq
    split at hq
    · cases hq
    · exact hq
  rw [pushReusablePage]
  split
  · refine ⟨{ hw with
      laneHeap := fun i q hi => hw.laneHeap i q (hlane i q hi).1
      laneUndo := fun i q hi => hw.laneUndo i q (hlaneUndo i q hi)
      undoMono := fun i q hi => hw.undoMono i q (hlaneUndo i q hi) }, fun rel row ptr hd => ?_⟩
    obtain ⟨hnr, hz, t, l, hok⟩ := hw.head rel row ptr hd
    exact ⟨hnr, hz, t, l, hok.of_store rfl⟩
  · next hout =>
    have hmem : ∀ q, q ∈ h.reusableHeapPages ++ [pid] → q ∈ h.reusableHeapPages ∨ q = pid :=
      fun q hq => by simpa using hq
    refine ⟨⟨hw.ids, hw.next, hw.noUndo, ?_, hw.page, fun q hq => ?_, fun i q hi => ?_,
      fun i q hi => hw.laneUndo i q (hlaneUndo i q hi), fun i q hi =>
        hw.undoMono i q (hlaneUndo i q hi)⟩, fun rel row ptr hd => ?_⟩
    · exact List.nodup_append.2 ⟨hw.nodup, List.nodup_singleton _, fun a ha b hb hab =>
        hout (List.mem_singleton.1 hb ▸ hab ▸ ha)⟩
    · rcases hmem q hq with hq | rfl
      · exact hw.reusable q hq
      · exact ⟨p, hf, hk⟩
    · obtain ⟨hi, hne⟩ := hlane i q hi
      obtain ⟨hnr, hpage⟩ := hw.laneHeap i q hi
      exact ⟨fun hq => (hmem q hq).elim hnr hne, hpage⟩
    · obtain ⟨hnr, hz, t, l, hok⟩ := hw.head rel row ptr hd
      exact ⟨fun hq => (hmem _ hq).elim hnr (hno rel row ptr hd), hz, t, l, hok.of_store rfl⟩

theorem pushReusablePage_store (h : PageBackedHeap) (pid : Nat) :
    (h.pushReusablePage .heap pid).store = h.store ∧ (h.pushReusablePage .heap pid).relationRowDir =
    h.relationRowDir := by
  rw [pushReusablePage]
  split <;> exact ⟨rfl, rfl⟩

theorem markPageReusable_ok {p : Page} (hw : ReuseWf h) (hf : h.store.fetch pid = .ok p)
    (hk : p.kind = .heap)
    (hno : ∀ rel row ptr, h.headForRelation rel row = some ptr → ptr.pageId ≠ pid) :
    ∃ h', h.markPageReusable pid .heap = .ok h' ∧ ReuseWf h' ∧
      ∀ rel row l, RowChain h rel row l → RowChain h' rel row l := by
  obtain ⟨f, s, hpin, rfl⟩ := Store.pin_of_fetch hf
  obtain ⟨-, hs, -, -, -, hnid, hsize⟩ := Store.pin_ok hpin
  obtain ⟨store, hstore⟩ : ∃ store,
      store = s.setFrame pid { f with page := { f.page with state := .reusable } } := ⟨_, rfl⟩
  have hfetch : ∀ q, store.fetch q = if q = pid then .ok { f.page with state := .reusable }
      else h.store.fetch q := by
    intro q
    rw [hstore, Store.fetch_setFrame, hs q]
  have hback : ∀ q p, h.store.fetch q = .ok p → ∃ p', store.fetch q = .ok p' ∧
      p'.generation = p.generation ∧ p'.cells = p.cells := by
    intro q p hq
    rw [hfetch]
    split
    · next hqp =>
      rw [hqp, hf] at hq
      cases hq
      exact ⟨_, rfl, rfl, rfl⟩
    · exact ⟨p, hq, rfl, rfl⟩
  have htuple : ∀ (h₁ : PageBackedHeap), h₁.store = store → ∀ ptr t, h.readTuple ptr = .ok t →
      h₁.readTuple ptr = .ok t := by
    intro h₁ hh₁ ptr t ht
    obtain ⟨hnull, p, hp, hg, hc⟩ := readTuple_eq_ok.1 ht
    obtain ⟨p', hp', hg', hc'⟩ := hback _ p hp
    exact readTuple_eq_ok.2 ⟨hnull, p', hh₁ ▸ hp', hg'.trans hg, hc' ▸ hc⟩
  have hundo : ∀ (h₁ : PageBackedHeap), h₁.store = store → ∀ ptr u, h.readUndo ptr = .ok u →
      h₁.readUndo ptr = .ok u := by
    intro h₁ hh₁ ptr u hu
    obtain ⟨hne, p, hp, hc⟩ := readUndo_eq_ok.1 hu
    obtain ⟨p', hp', -, hc'⟩ := hback _ p hp
    exact readUndo_eq_ok.2 ⟨hne, p', hh₁ ▸ hp', hc' ▸ hc⟩
  have hw' : ReuseWf { h with store } := by
    refine hw.setPage hf hfetch (hstore ▸ hnid) (hstore ▸ hsize) rfl { hw.page pid f.page hf with }
      (fun _ _ hc => hc) fun rel row ptr t l _ hok => ?_
    exact ⟨t, l,
      { hok with tuple := htuple _ rfl _ _ hok.tuple, chain := hok.chain.of_undo (hundo _ rfl) }⟩
  obtain ⟨p', hp', -⟩ := hback pid _ hf
  have hk' : p'.kind = .heap := by
    rw [hfetch, if_pos rfl] at hp'
    cases hp'
    exact hk
  refine ⟨_, ?_, hw'.giveBack hp' hk' hno, fun rel row l hc => ?_⟩
  · have hpin' : (h.clearCurrentPageReference pid).store.pin pid = .ok (f, s) := hpin
    simp only [markPageReusable, hpin', hstore]
    rfl
  · obtain ⟨hst, hdir⟩ :=
      pushReusablePage_store (({ h with store } : PageBackedHeap).clearCurrentPageReference pid) pid
    have hd : ∀ {o}, h.headForRelation rel row = o →
        ((({ h with store } : PageBackedHeap).clearCurrentPageReference pid).pushReusablePage .heap
          pid).headForRelation rel row = o :=
      fun ho => by
        unfold headForRelation
        rw [hdir]
        exact ho
    cases hc with
    | none h1 => exact .none (hd h1)
    | some h1 h2 h3 h4 => exact .some (hd h1) (htuple _ hst _ _ h2) h3 (h4.of_undo (hundo _ hst))

/-- Cutting the undo chain of a head: its tuple stays, without the chain, and all other heads keep
theirs. -/
theorem overwriteTuple_ok {ptr : TuplePtr} {t : TupleVersion} (hw : ReuseWf h)
    (hd : h.headForRelation rel row = some ptr) (hok : HeadOk h rel row ptr t l) :
    ∃ h', h.overwriteTuple ptr { t with undoHead := 0 } = .ok h' ∧ ReuseWf h' ∧
      h'.relationRowDir = h.relationRowDir ∧ RowChain h' rel row [{ t with undoHead := 0 }] ∧
      ∀ rel' row' l', (rel', row') ≠ (rel, row) → RowChain h rel' row' l' →
        RowChain h' rel' row' l' := by
  obtain ⟨hnull, p, hf, hg, hc⟩ := readTuple_eq_ok.1 hok.tuple
  obtain ⟨f, s, hpin, rfl⟩ := Store.pin_of_fetch hf
  obtain ⟨-, hs, -, -, -, hnid, hsize⟩ := Store.pin_ok hpin
  obtain ⟨p', hp'⟩ : ∃ p', p' = { f.page with
      cells := f.page.cells.set ptr.slot (.tuple { t with undoHead := 0 }), pageLsn := 0 } :=
    ⟨_, rfl⟩
  obtain ⟨store, hstore⟩ : ∃ store, store = s.setFrame ptr.pageId ⟨p', true⟩ := ⟨_, rfl⟩
  have hlt := (List.getElem?_eq_some_iff.1 hc).1
  have hfetch : ∀ q, store.fetch q = if q = ptr.pageId then .ok p' else h.store.fetch q := by
    intro q
    rw [hstore, Store.fetch_setFrame, hs q]
  have hself : store.fetch ptr.pageId = .ok p' := by rw [hfetch, if_pos rfl]
  -- a cell is what it was, or the tuple overwritten
  have hcell : ∀ k, p'.cells[k]? = if k = ptr.slot then some (.tuple { t with undoHead := 0 })
      else f.page.cells[k]? := by
    intro k
    rw [hp']
    simp only [List.getElem?_set]
    by_cases hk : k = ptr.slot
    · simp [hk, hlt]
    · rw [if_neg (Ne.symm hk), if_neg hk]
  have hundo : ∀ q u, h.readUndo q = .ok u → ({ h with store } : PageBackedHeap).readUndo q =
      .ok u := by
    intro q u hu
    obtain ⟨hne, p₁, hp₁, hc₁⟩ := readUndo_eq_ok.1 hu
    by_cases hq : (decodeUndoPtr q).1 = ptr.pageId
    · rw [hq, hf] at hp₁
      cases hp₁
      refine readUndo_eq_ok.2 ⟨hne, p', hq ▸ hself, ?_⟩
      rw [hcell, if_neg]
      · exact hc₁
      · intro hk
        rw [hk, hc] at hc₁
        cases hc₁
    · exact readUndo_eq_ok.2 ⟨hne, p₁, (hfetch _).trans (by rw [if_neg hq]; exact hp₁), hc₁⟩
  have hown : ({ h with store } : PageBackedHeap).readTuple ptr = .ok { t with undoHead := 0 } := by
    refine readTuple_eq_ok.2 ⟨hnull, p', hself, ?_, ?_⟩
    · rw [hp']
      exact hg
    · rw [hcell, if_pos rfl]
  -- another row's tuple is another cell
  have hother : ∀ rel' row' ptr' t' l', (rel', row') ≠ (rel, row) → HeadOk h rel' row' ptr' t' l' →
      ({ h with store } : PageBackedHeap).readTuple ptr' = .ok t' := by
    intro rel' row' ptr' t' l' hne hok'
    obtain ⟨hnull', p₁, hp₁, hg₁, hc₁⟩ := readTuple_eq_ok.1 hok'.tuple
    by_cases hq : ptr'.pageId = ptr.pageId
    · rw [hq, hf] at hp₁
      cases hp₁
      refine readTuple_eq_ok.2 ⟨hnull', p', hq ▸ hself, ?_, ?_⟩
      · rw [hp']
        exact hg₁
      · rw [hcell, if_neg]
        · exact hc₁
        · intro hk
          rw [hk, hc] at hc₁
          cases hc₁
          exact hne (by rw [← hok'.relId, ← hok'.rowId, hok.relId, hok.rowId])
    · exact readTuple_eq_ok.2 ⟨hnull', p₁, (hfetch _).trans (by rw [if_neg hq]; exact hp₁),
        hg₁, hc₁⟩
  have hok₀ : HeadOk { h with store } rel row ptr { t with undoHead := 0 } [] :=
    ⟨hown, hok.relId, hok.rowId, .nil, hok.linked.1, trivial⟩
  have hpage : HeapPageOk h.store.pageSize.bytes h.relId ptr.pageId p' := by
    have hpg := hw.page _ _ hf
    have hbytes : ((f.page.cells.set ptr.slot (.tuple { t with undoHead := 0 })).map
        Cell.encodedLen) = f.page.cells.map Cell.encodedLen := by
      rw [List.map_set]
      have hlen : Cell.encodedLen (.tuple { t with undoHead := 0 }) = Cell.encodedLen
          (.tuple t) := rfl
      rw [hlen]
      have hget : (f.page.cells.map Cell.encodedLen)[ptr.slot]? =
          some (Cell.encodedLen (.tuple t)) := by simp [hc]
      obtain ⟨hlt', hget'⟩ := List.getElem?_eq_some_iff.1 hget
      rw [← hget', List.set_getElem_self]
    have hroom := hpg.room
    refine ⟨?_, ?_, ?_, ?_, ?_⟩
    · exact hp' ▸ hpg.kind
    · exact hp' ▸ hpg.pageId
    · exact hp' ▸ hpg.rel
    · simp only [Page.lower, Page.upper, Page.cellBytes, hp', hbytes, List.length_set] at hroom ⊢
      exact hroom
    · intro c hcm
      simp only [hp'] at hcm ⊢
      rcases List.mem_or_eq_of_mem_set hcm with hcm | rfl
      · exact hpg.cells c hcm
      · exact (hpg.cells (.tuple t) (List.mem_of_getElem? hc) :)
  refine ⟨{ h with store }, ?_, ?_, rfl, .some hd hown hok.relId .nil,
    fun rel' row' l' hne hc' => ?_⟩
  · have hover : f.page.overwriteCell ptr.slot (.tuple { t with undoHead := 0 }) =
        .ok { f.page with
          cells := f.page.cells.set ptr.slot (.tuple { t with undoHead := 0 }) } := by
      simp only [Page.overwriteCell, hc, bind_eq_ok, require_eq_ok, pure_eq_ok]
      exact ⟨(), rfl, trivial⟩
    simp only [overwriteTuple, bind_eq_ok, require_eq_ok, pure_eq_ok, Prod.exists]
    exact ⟨(), hnull, f, s, hpin, _, hover, by rw [hstore, hp']; rfl⟩
  · refine hw.setPage hf hfetch (hstore ▸ hnid) (hstore ▸ hsize) (by rw [hp']) hpage
      (fun k u hk => ?_) fun rel' row' ptr' t' l' hd' hok' => ?_
    · rw [hcell] at hk
      split at hk
      · cases hk
      · exact hk
    · by_cases hkey : (rel', row') = (rel, row)
      · cases hkey
        rw [hd] at hd'
        cases hd'
        exact ⟨_, _, hok₀⟩
      · exact ⟨t', l', hother _ _ _ _ _ hkey hok', hok'.relId, hok'.rowId, hok'.chain.of_undo hundo,
          hok'.linked⟩
  · cases hc' with
    | none h1 => exact .none h1
    | @some ptr' t' l' h1 h2 h3 h4 =>
      obtain ⟨-, -, t'', l'', hok'⟩ := hw.head rel' row' ptr' h1
      cases h2.symm.trans hok'.tuple
      exact .some h1 (hother _ _ _ _ _ hne hok') h3 (h4.of_undo hundo)

section
variable {txs : ConcurrentTxStatus} {horizon : Nat}
variable {owner : Option Nat} {snapshot : Snapshot} {csn fuel rel row : Nat}
  {l : List TupleVersion} {t : TupleVersion}

theorem isTxVisible_of_committed {x : Nat} (hst : txs.state x = .committed csn)
    (hle : csn ≤ snapshot.visibleCsn) : txs.isTxVisible x snapshot owner = true := by
  unfold ConcurrentTxStatus.isTxVisible
  split
  · rfl
  · rw [hst]
    exact decide_eq_true hle

theorem removableUndoChainLen_ok (horizon : Nat) (txs : ConcurrentTxStatus) {ptr count : Nat}
    (hc : UndoChain h row ptr l) (hf : ptr ≤ fuel) :
    ∃ n, h.removableUndoChainLen horizon txs fuel ptr count = .ok n := by
  induction hc generalizing fuel count with
  | nil => cases fuel <;> exact ⟨count, by simp [removableUndoChainLen]⟩
  | @cons ptr u l h1 _ h3 _ _ ih =>
    obtain ⟨n, rfl⟩ : ∃ n, fuel = n + 1 := ⟨fuel - 1, by omega⟩
    rw [removableUndoChainLen, if_neg (readUndo_eq_ok.1 h1).1, h1]
    simp only [bind, Except.bind]
    split
    · exact ⟨0, rfl⟩
    · split
      · split
        · exact ih (by omega)
        · exact ⟨0, rfl⟩
      · exact ⟨0, rfl⟩
      · exact ⟨0, rfl⟩

theorem ended_of_removable {ptr n : Nat} (hc : UndoChain h row ptr l) (hne : ptr ≠ 0)
    (hrem : h.removableUndoChainLen horizon txs fuel ptr 0 = .ok n) (hn : n ≠ 0) :
    ∃ t l' csn, l = t :: l' ∧ txs.state t.endTx = .committed csn ∧ csn < horizon := by
  cases hc with
  | nil => exact absurd rfl hne
  | @cons _ u l h1 _ _ _ _ =>
    cases fuel with
    | zero => simp [removableUndoChainLen, hne] at hrem
    | succ fuel =>
      rw [removableUndoChainLen, if_neg hne, h1] at hrem
      simp only [bind, Except.bind] at hrem
      split at hrem
      · cases hrem
        exact absurd rfl hn
      · split at hrem
        · next csn hst =>
          split at hrem
          · next hlt => exact ⟨_, _, csn, rfl, hst, hlt⟩
          · cases hrem
            exact absurd rfl hn
        · cases hrem
          exact absurd rfl hn
        · cases hrem
          exact absurd rfl hn

/-- A version below the horizon reads as itself, whatever is behind it, and a deletion as no row at
all. -/
theorem get_committed (hc : RowChain h rel row (t :: l)) (hl : Linked 0 (t :: l))
    (hst : txs.state t.beginTx = .committed csn) (hle : csn ≤ snapshot.visibleCsn) :
    h.getForRelation txs snapshot owner rel row =
      .ok (if t.deleted then none else some t.payload) := by
  rw [getForRelation_chain hc]
  cases hdel : t.deleted <;>
    simp [firstVisible, visibility_of_end (.inl hl.1), isTxVisible_of_committed hst hle, hdel,
      hitPayload]

theorem ReadsAs.refl (h : PageBackedHeap) : ReadsAs txs horizon h h := fun _ _ _ _ _ => rfl

theorem ReadsAs.trans {h₁ h₂ h₃ : PageBackedHeap} (a : ReadsAs txs horizon h₁ h₂)
    (b : ReadsAs txs horizon h₂ h₃) :
    ReadsAs txs horizon h₁ h₃ := fun snapshot owner rel row hle =>
      (b snapshot owner rel row hle).trans (a snapshot owner rel row hle)

theorem ReuseWf.head_page {ptr : TuplePtr} (hw : ReuseWf h)
    (hok : HeadOk h rel row ptr t l) : ∃ p, h.store.fetch ptr.pageId = .ok p ∧ p.kind = .heap := by
  obtain ⟨-, p, hf, -, hc⟩ := readTuple_eq_ok.1 hok.tuple
  exact ⟨p, hf, ((hw.page _ p hf).cells _ (List.mem_of_getElem? hc)).symm⟩

theorem giveBack_ok {pid : Nat} {p : Page} (stats : VacuumStats) (hw : ReuseWf h)
    (hf : h.store.fetch pid = .ok p) (hk : p.kind = .heap) :
    ∃ h', (if h.pageHasNoHeads pid then do return (stats, ← h.markPageReusable pid .heap)
      else pure (stats, h) :
        Except Error (VacuumStats × PageBackedHeap)) = .ok (stats, h') ∧ ReuseWf h' ∧
      ∀ rel row l, RowChain h rel row l → RowChain h' rel row l := by
  split
  · next hno =>
    obtain ⟨h', hmark, hw', hchain⟩ := markPageReusable_ok hw hf hk (pageHasNoHeads_iff.1 hno)
    exact ⟨h', by rw [hmark]; rfl, hw', hchain⟩
  · exact ⟨h, rfl, hw, fun _ _ _ hc => hc⟩

theorem removeHeads_ok {ptr : TuplePtr} (hw : ReuseWf h)
    (hd : h.headForRelation rel row = some ptr) :
    ∃ h', (h.removeRelationHeadIf rel row ptr).1 = true ∧
      ((h.removeRelationHeadIf rel row ptr).2.removeHeadIf row ptr).2 = h' ∧
      ReuseWf h' ∧ h'.store = h.store ∧ RowChain h' rel row [] ∧
      ∀ rel' row' l, (rel', row') ≠ (rel, row) → RowChain h rel' row' l →
        RowChain h' rel' row' l := by
  have hrm : h.removeRelationHeadIf rel row ptr =
      (true, { h with relationRowDir := h.relationRowDir.erase (rel, row) }) := if_pos hd
  obtain ⟨h', hh'⟩ : ∃ h', ((h.removeRelationHeadIf rel row ptr).2.removeHeadIf row ptr).2 = h' :=
    ⟨_, rfl⟩
  have hsame : h' = { h with
      relationRowDir := h.relationRowDir.erase (rel, row), rowDir := h'.rowDir } := by
    rw [← hh', hrm]
    simp only [removeHeadIf]
    split <;> rfl
  have hdir : h'.relationRowDir = h.relationRowDir.erase (rel, row) := by rw [hsame]
  have hstore : h'.store = h.store := by rw [hsame]
  refine ⟨h', by rw [hrm], hh', ?_, hstore, .none ?_, fun rel' row' l hne hc => ?_⟩
  · refine hw.of_store (by rw [hsame]) fun k p hp => ?_
    rw [hdir, lookup_erase_eq_some] at hp
    exact hp.2
  · simp [headForRelation, hdir]
  · have hhead : h'.headForRelation rel' row' = h.headForRelation rel' row' := by
      simp [headForRelation, hdir, AList.lookup_erase_ne hne]
    cases hc with
    | none h1 => exact .none (hhead.trans h1)
    | some h1 h2 h3 h4 =>
      exact .some (hhead.trans h1) ((readTuple_of_store hstore _).trans h2) h3
        (h4.of_undo fun q _ hu => (readUndo_of_store hstore q).trans hu)

theorem vacuumRow_ok (hw : ReuseWf h) (horizon : Nat) (txs : ConcurrentTxStatus)
    (stats : VacuumStats) (rel row : Nat)
    (ptr : TuplePtr) :
    ∃ stats' h', h.vacuumRow horizon txs stats rel row ptr = .ok (stats', h') ∧ ReuseWf h' ∧
      ReadsAs txs horizon h h' := by
  have hstay : ReuseWf h ∧ ReadsAs txs horizon h h := ⟨hw, .refl h⟩
  unfold vacuumRow
  by_cases hd : h.headForRelation rel row = some ptr
  swap
  · exact ⟨stats, h, if_pos hd, hstay⟩
  obtain ⟨-, hz, t, l, hok⟩ := hw.head rel row ptr hd
  have hchain : RowChain h rel row (t :: l) := .some hd hok.tuple hok.relId hok.chain
  obtain ⟨p, hf, hk⟩ := hw.head_page hok
  rw [if_neg (not_not.2 hd), hok.tuple]
  simp only [bind, Except.bind]
  cases hst : txs.state t.beginTx with
  | inProgress => exact ⟨stats, h, rfl, hstay⟩
  | aborted => exact ⟨stats, h, rfl, hstay⟩
  | committed csn =>
    dsimp only
    by_cases hdel : t.deleted = true
    · rw [if_pos hdel]
      by_cases hlt : csn < horizon
      swap
      · rw [if_neg hlt]
        exact ⟨stats, h, rfl, hstay⟩
      have hrel : (if t.relId = 0 then h.relId else t.relId) = rel := by
        split
        · next h0 => rw [hz (hok.relId.symm.trans h0), ← hok.relId, h0]
        · exact hok.relId
      obtain ⟨h₁, hrm, hh₁, hw₁, hstore, hgone, hothers⟩ := removeHeads_ok hw hd
      rw [if_pos hlt, hrel, hrm, if_pos rfl, hh₁]
      obtain ⟨h₂, hend, hw₂, hkeep⟩ :=
        giveBack_ok { stats with deadRowsRemoved := stats.deadRowsRemoved + 1 } hw₁ (hstore ▸ hf) hk
      refine ⟨_, h₂, hend, hw₂, fun snapshot owner rel' row' hle => ?_⟩
      by_cases hkey : (rel', row') = (rel, row)
      · cases hkey
        rw [get_committed hchain hok.linked hst (by omega), if_pos hdel,
          getForRelation_chain (hkeep _ _ _ hgone)]
        rfl
      · obtain ⟨l', hc', -⟩ := hw.rowChain rel' row'
        exact getForRelation_eq_of_chain hc' (hkeep _ _ _ (hothers _ _ _ hkey hc'))
    · rw [if_neg hdel]
      by_cases hundo : t.undoHead = 0
      · rw [if_pos hundo]
        exact ⟨stats, h, rfl, hstay⟩
      obtain ⟨n, hrem⟩ : ∃ n, h.removableUndoChainLen horizon txs t.undoHead t.undoHead 0 = .ok n :=
        removableUndoChainLen_ok horizon txs hok.chain le_rfl
      rw [if_neg hundo, hrem]
      dsimp only
      by_cases hn : n = 0
      · rw [if_pos hn]
        exact ⟨stats, h, rfl, hstay⟩
      -- the version in front of the chain is the one that ended it, so every such snapshot sees it
      obtain ⟨t', l', endCsn, rfl, hend, hlt⟩ := ended_of_removable hok.chain hundo hrem hn
      have hcsn : csn < horizon := by
        have hlink := hok.linked.2.1
        rw [hlink, hst] at hend
        cases hend
        exact hlt
      obtain ⟨h₁, hover, hw₁, hdir, hcut, hothers⟩ := overwriteTuple_ok hw hd hok
      rw [if_neg hn, if_neg (not_not.2 hd), hover]
      obtain ⟨p₁, hf₁, hk₁⟩ : ∃ p, h₁.store.fetch ptr.pageId = .ok p ∧ p.kind = .heap := by
        obtain ⟨-, -, t₁, l₁, hok₁⟩ :=
          hw₁.head rel row ptr (by unfold headForRelation; rw [hdir]; exact hd)
        exact hw₁.head_page hok₁
      obtain ⟨h₂, hend₂, hw₂, hkeep⟩ := giveBack_ok { stats with
        chainsPruned := stats.chainsPruned + 1, undoLinksRemoved := stats.undoLinksRemoved + n }
          hw₁ hf₁ hk₁
      refine ⟨_, h₂, hend₂, hw₂, fun snapshot owner rel' row' hle => ?_⟩
      by_cases hkey : (rel', row') = (rel, row)
      · cases hkey
        rw [get_committed hchain hok.linked hst (by omega),
          get_committed (hkeep _ _ _ hcut) ⟨hok.linked.1, trivial⟩ hst (by omega)]
      · obtain ⟨l'', hc', -⟩ := hw.rowChain rel' row'
        exact getForRelation_eq_of_chain hc' (hkeep _ _ _ (hothers _ _ _ hkey hc'))

/-- A vacuum goes through, keeps the invariant, and changes nothing for snapshots at or above the
horizon. -/
theorem vacuum_ok (hw : ReuseWf h) (horizon : Nat) (txs : ConcurrentTxStatus) :
    ∃ stats h', h.vacuum horizon txs = .ok (stats, h') ∧ ReuseWf h' ∧ ReadsAs txs horizon h h' := by
  have hfold : ∀ (rows : List ((Nat × Nat) × TuplePtr)) (stats : VacuumStats) (h : PageBackedHeap),
      ReuseWf h →
      ∃ stats' h', rows.foldlM (fun s e => s.2.vacuumRow horizon txs s.1 e.1.1 e.1.2 e.2)
        (stats, h) = .ok (stats', h') ∧
        ReuseWf h' ∧ ReadsAs txs horizon h h' := by
    intro rows
    induction rows with
    | nil => exact fun stats h hw => ⟨stats, h, rfl, hw, .refl h⟩
    | cons e rows ih =>
      intro stats h hw
      obtain ⟨stats₁, h₁, hrow, hw₁, hreads₁⟩ := vacuumRow_ok hw horizon txs stats e.1.1 e.1.2 e.2
      obtain ⟨stats₂, h₂, hrest, hw₂, hreads₂⟩ := ih stats₁ h₁ hw₁
      refine ⟨stats₂, h₂, ?_, hw₂, hreads₁.trans hreads₂⟩
      rw [List.foldlM_cons, hrow]
      exact hrest
  exact hfold _ _ h hw

end

structure InsertCall where
  tx : Nat
  rel : Nat
  row : Nat
  payload : Bytes
  lsn : Nat

def insert (h : PageBackedHeap) (c : InsertCall) : Except Error PageBackedHeap :=
  h.insertForRelation c.tx c.rel c.row c.payload c.lsn

theorem RowChain.insert_others {rel row : Nat} {calls : List InsertCall} (hw : ReuseWf h)
    (hc : RowChain h rel row l)
    (hrun : Run insert (fun h c => (h.normRel c.rel, c.row) ≠ (rel, row)) h calls h') :
    RowChain h' rel row l := by
  have hinv : ReuseWf h' ∧ RowChain h' rel row l := by
    refine hrun.invariant (I := fun _ h => ReuseWf h ∧ RowChain h rel row l) ⟨hw, hc⟩ ?_
    rintro _ h₁ c h₂ ⟨hw₁, hc₁⟩ hne hs
    have hwrote := insertForRelation_wrote hw₁ hs
    exact ⟨hwrote.wf, hwrote.other rel row l (Ne.symm hne) hc₁⟩
  exact hinv.2

end RedlineDb.PageBackedHeap

namespace RedlineDb.Engine
open Lib PageBackedHeap
variable {e e' : Engine}

def vacuumWithHorizon (e : Engine) (horizon : Nat) : Except Error (VacuumStats × Engine) := do
  let (stats, heap) ← e.heap.vacuum horizon e.txs
  return (stats, { e with heap })

inductive VacuumOp
  | call (op : Op)
  | vacuum (horizon : Nat)

def stepVacuum (e : Engine) : VacuumOp → Except Error Engine
  | .call op => e.step op
  | .vacuum horizon => do return (← e.vacuumWithHorizon horizon).2

theorem reuseWf_create (relId lanes : Nat) (pageSize : PageSize)
    (segmentBytes walBufferBytes : Nat) :
    ReuseWf (create relId lanes pageSize segmentBytes walBufferBytes).heap := by
  have hwf := heapWf_create relId lanes pageSize segmentBytes walBufferBytes
  refine { hwf with head := fun rel row ptr hd => ?_ }
  simp [create, PageBackedHeap.new, headForRelation] at hd

theorem reuseWf_step {op : Op} (hw : ReuseWf e.heap) (hs : e.step op = .ok e') :
    ReuseWf e'.heap := by
  rcases step_heap_cases hs with ⟨-, wal, hwal⟩ | ⟨_, _, _, _, -, hins⟩ |
    ⟨_, _, _, _, _, _, -, hup⟩ | ⟨_, _, _, _, _, -, hdel⟩
  · rw [hwal]
    exact hw.of_store rfl fun _ _ hd => hd
  · exact (insertForRelation_wrote hw hins).wf
  · exact (updateForRelation_wrote hw hup).wf
  · exact (deleteForRelation_wrote hw hdel).wf

theorem reuseWf_stepVacuum {op : VacuumOp} (hw : ReuseWf e.heap) (hs : e.stepVacuum op = .ok e') :
    ReuseWf e'.heap := by
  cases op with
  | call op => exact reuseWf_step hw hs
  | vacuum horizon =>
    simp only [stepVacuum, vacuumWithHorizon, bind_eq_ok, pure_eq_ok, Prod.exists,
      Prod.mk.injEq] at hs
    obtain ⟨_, _, ⟨stats, heap, hv, rfl, rfl⟩, rfl⟩ := hs
    obtain ⟨stats', heap', hv', hw', -⟩ := vacuum_ok hw horizon e.txs
    rw [hv] at hv'
    cases hv'
    exact hw'

/-- In every state that transactions and earlier vacuums reach, a vacuum with any horizon goes
through. For every snapshot at or above the horizon each row reads as before, and still does after
any inserts of other rows, which may take the pages given back. -/
theorem vacuum_preserves_reads {relId lanes segmentBytes walBufferBytes : Nat} {pageSize : PageSize}
    {ops : List VacuumOp}
    (hrun : Run stepVacuum (fun _ _ => True)
      (create relId lanes pageSize segmentBytes walBufferBytes) ops e) (horizon : Nat) :
    ∃ stats e', e.vacuumWithHorizon horizon = .ok (stats, e') ∧
      ∀ (snapshot : Snapshot) (owner : Option Nat) (rel row : Nat), horizon ≤ snapshot.visibleCsn →
        e'.heap.getForRelation e'.txs snapshot owner rel row = e.heap.getForRelation e.txs snapshot
          owner rel row ∧
        ∀ calls heap, Run PageBackedHeap.insert (fun h c => (h.normRel c.rel, c.row) ≠ (rel, row))
          e'.heap calls heap →
          heap.getForRelation e'.txs snapshot owner rel row = e.heap.getForRelation e.txs snapshot
            owner rel row := by
  have hw : ReuseWf e.heap :=
    hrun.invariant (I := fun _ e => ReuseWf e.heap) (reuseWf_create _ _ _ _ _)
    fun _ _ _ _ hw _ hs => reuseWf_stepVacuum hw hs
  obtain ⟨stats, heap', hv, hw', hreads⟩ := vacuum_ok hw horizon e.txs
  refine ⟨stats, { e with heap := heap' }, ?_, fun snapshot owner rel row hle =>
    ⟨hreads snapshot owner rel row hle, fun calls heap hins => ?_⟩⟩
  · simp only [vacuumWithHorizon, bind_eq_ok, pure_eq_ok, Prod.exists]
    exact ⟨stats, heap', hv, rfl⟩
  · obtain ⟨l, hc, -⟩ := hw'.rowChain rel row
    exact (getForRelation_eq_of_chain hc (hc.insert_others hw' hins)).trans
      (hreads snapshot owner rel row hle)

/-- Two lanes. Row `1` is deleted and its page given back; the insert of row `3` takes it; row `2`
reads as before. -/
theorem vacuum_preserves_reads_reused :
    ∃ (e e' : Engine) (stats : VacuumStats) (heap : PageBackedHeap),
    e.vacuumWithHorizon 3 = .ok (stats, e') ∧ stats.deadRowsRemoved = 1 ∧
      e'.heap.reusableHeapPages = [1] ∧
      e'.heap.insertForRelation 4 7 3 [3] 1 = .ok heap ∧ heap.reusableHeapPages = [] ∧
      heap.getForRelation e'.txs e.txs.snapshot none 7 2 =
        e.heap.getForRelation e.txs e.txs.snapshot none 7 2 := by
  obtain ⟨e, hrun, hcsn, v, hv, hdead, hreuse, heap, hins, hempty⟩ : ∃ e,
      Run stepVacuum (fun _ _ => True) (create 1 2 .small 4096 4096)
      ([.begin .snapshot, .insertForRelation 1 7 1 [1], .appendCommit 1, .finishCommit 1,
        .begin .snapshot,
        .deleteForRelation 2 7 1, .appendCommit 2, .finishCommit 2, .begin .snapshot,
          .insertForRelation 3 7 2 [2],
        .appendCommit 3, .finishCommit 3, .begin .snapshot].map .call) e ∧
      e.txs.snapshot.visibleCsn = 3 ∧ ∃ v ∈ (e.vacuumWithHorizon 3).toOption,
        v.1.deadRowsRemoved = 1 ∧
        v.2.heap.reusableHeapPages = [1] ∧
          ∃ heap ∈ (v.2.heap.insertForRelation 4 7 3 [3] 1).toOption,
          heap.reusableHeapPages = [] := by decide +kernel
  obtain ⟨stats, e', hv', hreads⟩ := vacuum_preserves_reads hrun 3
  obtain rfl := Except.ok.inj (hv'.symm.trans (mem_toOption.1 hv))
  refine ⟨e, e', stats, heap, hv', hdead, hreuse, mem_toOption.1 hins, hempty, ?_⟩
  refine (hreads e.txs.snapshot none 7 2 hcsn.symm.le).2 [⟨4, 7, 3, [3], 1⟩] heap (.cons ?_
    (mem_toOption.1 hins) .nil)
  simp

end RedlineDb.Engine
