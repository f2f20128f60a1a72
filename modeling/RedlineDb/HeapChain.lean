import RedlineDb.HeapSpec

/-!
# Version chains

The versions of a row form a chain: the tuple its directory entry points at, then the before-images
along the undo pointers. `RowChain h rel row l` says that `l` lists them, newest first. Appends
never change a cell that is there, so a chain only changes when its own row is written: an insert
starts a new chain, an update or delete puts its tuple above the version it replaces.
-/

namespace RedlineDb.PageBackedHeap
open Lib List
variable {h h' : PageBackedHeap}

/-! ### Cells stay where they are -/

theorem getElem?_of_prefix {α : Type} {l l' : List α} {k : Nat} {a : α} (hp : l <+: l')
    (hk : l[k]? = some a) :
    l'[k]? = some a := by
  obtain ⟨r, rfl⟩ := hp
  rw [List.getElem?_append_left (List.getElem?_eq_some_iff.1 hk).1]
  exact hk

theorem tupleCell_eq_ok {p : Page} {k : Nat} {t : TupleVersion} :
    p.tupleCell k = .ok t ↔ p.cells[k]? = some (.tuple t) := by
  unfold Page.tupleCell
  split <;> simp_all

variable {u : UndoRecord}

theorem undoCell_eq_ok {p : Page} {k : Nat} :
    p.undoCell k = .ok u ↔ p.cells[k]? = some (.undo u) := by
  unfold Page.undoCell
  split <;> simp_all

variable {ptr : TuplePtr}

theorem readTuple_eq_ok {t : TupleVersion} : h.readTuple ptr = .ok t ↔
    ¬ ptr.isNull ∧ ∃ p, h.store.fetch ptr.pageId = .ok p ∧ p.generation = ptr.generation ∧
      p.cells[ptr.slot]? = some (.tuple t) := by
  simp only [readTuple, bind_eq_ok, require_eq_ok, tupleCell_eq_ok]
  constructor
  · rintro ⟨-, h1, p, h2, -, h3, h4⟩
    exact ⟨h1, p, h2, h3, h4⟩
  · rintro ⟨h1, p, h2, h3, h4⟩
    exact ⟨(), h1, p, h2, (), h3, h4⟩

theorem readUndo_eq_ok {ptr : Nat} : h.readUndo ptr = .ok u ↔
    ptr ≠ 0 ∧ ∃ p, h.store.fetch (decodeUndoPtr ptr).1 = .ok p ∧
      p.cells[(decodeUndoPtr ptr).2]? = some (.undo u) := by
  simp only [readUndo, bind_eq_ok, require_eq_ok, undoCell_eq_ok]
  constructor
  · rintro ⟨-, h1, p, h2, h3⟩
    exact ⟨h1, p, h2, h3⟩
  · rintro ⟨h1, p, h2, h3⟩
    exact ⟨(), h1, p, h2, h3⟩

section Put
variable {pid slot gen row : Nat} {kind : PageKind} {c : Cell} {lane : AppendLane}

theorem Put.reusable_sub (hP : Put h kind c pid slot gen h') :
    ∀ q ∈ h'.reusableHeapPages, q ∈ h.reusableHeapPages := by
  obtain ⟨_, _, _, _, _, _, _, _, ⟨_, _, _, _, _, _, hr⟩ | ⟨_, _, hr⟩ | ⟨_, _, hr⟩⟩ := hP.page
  · exact fun q hq => hr ▸ hq
  · exact fun q hq => hr ▸ hq
  · exact fun q hq => hr ▸ mem_append_left _ hq

theorem Put.not_reusable (hw : LaneWf h) (hP : Put h kind c pid slot gen h') :
    pid ∉ h'.reusableHeapPages := by
  obtain ⟨_, _, _, _, _, _, _, _, ⟨_, _, hnr, _, _, _, hr⟩ | ⟨rfl, _, hr⟩ | ⟨_, _, hr⟩⟩ := hP.page
  · rw [hr]
    exact hnr
  · intro hq
    obtain ⟨p, hp, -⟩ := hw.reusable _ (hr ▸ hq)
    exact lt_irrefl _ (hw.ids _ p hp).2
  · have hnd := hw.nodup
    rw [hr, nodup_append] at hnd
    exact fun hq => hnd.2.2 pid hq pid (mem_singleton_self _) rfl

theorem Put.page_mono (hP : Put h kind c pid slot gen h') (hw : LaneWf h) {q : Nat} {p : Page}
    (hf : h.store.fetch q = .ok p) (hq : q ∉ h.reusableHeapPages) :
    ∃ p', h'.store.fetch q = .ok p' ∧ p'.generation = p.generation ∧ p'.kind = p.kind ∧
      p.cells <+: p'.cells := by
  by_cases hqp : q = pid
  · subst hqp
    obtain ⟨p', old, hf', hk', hg', -, hcells, -, ⟨p₀, hf₀, -, rfl, hg, hk, -⟩ | ⟨rfl, -⟩ |
        ⟨-, -, hr⟩⟩ := hP.page
    · rw [hf] at hf₀
      cases hf₀
      exact ⟨p', hf', by rw [hg', hg], by rw [hk', hk], hcells ▸ prefix_append _ _⟩
    · exact absurd (hw.ids _ p hf).2 (lt_irrefl _)
    · exact absurd (by rw [hr]; simp) hq
  · exact ⟨p, by rw [hP.other q hqp]; exact hf, rfl, rfl, prefix_rfl⟩

theorem Put.cell_cases (hP : Put h kind c pid slot gen h') {q k : Nat} {p' : Page} {c' : Cell}
    (hf : h'.store.fetch q = .ok p') (hc : p'.cells[k]? = some c') :
    (∃ p, h.store.fetch q = .ok p ∧ p.cells[k]? = some c' ∧ p.kind = p'.kind ∧
      p.generation = p'.generation) ∨
      (q = pid ∧ k = slot ∧ c' = c) := by
  by_cases hq : q = pid
  · subst hq
    obtain ⟨p2, old, hf2, hk2, hg2, -, hcells, hlen, hold⟩ := hP.page
    rw [hf] at hf2
    cases hf2
    rw [hcells] at hc
    rcases lt_or_ge k old.length with hk | hk
    · rw [getElem?_append_left hk] at hc
      rcases hold with ⟨p, hfp, -, rfl, hg, hkp, -⟩ | ⟨-, rfl, -⟩ | ⟨-, rfl, -⟩
      · exact .inl ⟨p, hfp, hc, by rw [hkp, hk2], by rw [hg, hg2]⟩
      · simp at hk
      · simp at hk
    · rw [getElem?_append_right hk] at hc
      have hk0 : k - old.length = 0 := by
        by_contra hne
        rw [getElem?_eq_none (by simp; omega)] at hc
        cases hc
      rw [hk0] at hc
      simp only [getElem?_cons_zero, Option.some.injEq] at hc
      exact .inr ⟨rfl, by omega, hc.symm⟩
  · exact .inl ⟨p', by rw [← hP.other q hq]; exact hf, hc, rfl, rfl⟩

theorem Put.readTuple {t : TupleVersion} (hP : Put h kind (.tuple t) pid slot gen h') :
    h'.readTuple ⟨pid, slot, gen⟩ = .ok t := by
  obtain ⟨p', old, hf, -, hg, -, hcells, hlen, -⟩ := hP.page
  refine readTuple_eq_ok.2 ⟨?_, p', hf, hg, ?_⟩
  · have := hP.ids.1
    simp only [TuplePtr.isNull, Bool.and_eq_true, beq_iff_eq, not_and]
    omega
  · rw [hcells, ← hlen]
    simp

variable {u : UndoRecord}

theorem Put.readUndo (hP : Put h kind (.undo u) pid slot gen h') :
    h'.readUndo (encodeUndoPtr pid slot) = .ok u := by
  obtain ⟨p', old, hf, -, -, hok, hcells, hlen, -⟩ := hP.page
  have hid := hP.ids.1
  have hslot : slot < 65536 := by
    have h1 := hok.length_lt h.store.pageSize.le_max
    simp only [hcells, length_append, hlen] at h1
    omega
  refine readUndo_eq_ok.2 ⟨by unfold encodeUndoPtr; omega, p', ?_, ?_⟩
  · rw [decode_encodeUndoPtr hslot]
    exact hf
  · rw [decode_encodeUndoPtr hslot, hcells, ← hlen]
    simp

/-- Where an undo record of the row goes: above the lane's page. -/
abbrev UndoPlace (h : PageBackedHeap) (row pid : Nat) : Prop :=
  (∀ q, (h.appendLanes (h.laneForRow row)).undoPage = some q → q ≤ pid) ∧
    ((h.appendLanes (h.laneForRow row)).undoPage = none → pid = h.store.nextPageId)

theorem UndoPlace.le (hpl : UndoPlace h row pid) (hw : LaneWf h) {q k : Nat} {p : Page}
    (hf : h.store.fetch q = .ok p)
    (hc : p.cells[k]? = some (.undo u)) (hl : h.laneForRow u.rowId = h.laneForRow row) :
    q ≤ pid := by
  cases hcur : (h.appendLanes (h.laneForRow row)).undoPage with
  | none =>
    rw [hpl.2 hcur]
    exact (hw.ids q p hf).2.le
  | some q0 => exact (hw.undoMono _ q0 hcur q p k u hf hc hl).trans (hpl.1 q0 hcur)

theorem Put.undo_lt {u0 : UndoRecord} {prev : Nat} (hP : Put h .undo (.undo u) pid slot gen h')
    (hw : LaneWf h) (hpl : UndoPlace h row pid) (hprev : h.readUndo prev = .ok u0)
    (hrow : u0.rowId = row) :
    prev < encodeUndoPtr pid slot := by
  obtain ⟨-, p0, hp0, hc0⟩ := readUndo_eq_ok.1 hprev
  have hk0 := (List.getElem?_eq_some_iff.1 hc0).1
  have hpid := hpl.le hw hp0 hc0 (by rw [hrow])
  simp only [decodeUndoPtr] at hp0 hc0 hk0 hpid
  unfold encodeUndoPtr
  rcases lt_or_eq_of_le hpid with hlt | heq
  · omega
  · -- same page: the earlier record has a lower slot
    have hq0 := (hw.ids _ p0 hp0).2
    obtain ⟨-, -, -, -, -, -, -, hlen, ⟨p1, hf1, -, rfl, -⟩ | ⟨hid', -⟩ | ⟨hheap, -⟩⟩ := hP.page
    · rw [heq, hf1] at hp0
      cases hp0
      omega
    · omega
    · cases hheap

structure NextLane (h : PageBackedHeap) (row : Nat) (kind : PageKind) (c : Cell) (pid : Nat)
    (lane : AppendLane) : Prop where
  heap : ∀ q, lane.heapPage = some q → (q = pid ∧ kind = .heap) ∨
    (h.appendLanes (h.laneForRow row)).heapPage = some q
  undo : ∀ q, lane.undoPage = some q →
    (q = pid ∧ kind = .undo ∧ UndoPlace h row pid) ∨
    (h.appendLanes (h.laneForRow row)).undoPage = some q
  record : ∀ u, c = .undo u → h.laneForRow u.rowId = h.laneForRow row ∧ lane.undoPage = some pid

theorem NextLane.tuple {t : TupleVersion} :
    NextLane h row .heap (.tuple t) pid
      { h.appendLanes (h.laneForRow row) with heapPage := some pid } := by
  refine ⟨?_, fun q hq => .inr hq, by rintro u ⟨⟩⟩
  rintro q ⟨⟩
  exact .inl ⟨rfl, rfl⟩

theorem NextLane.undoRecord (hrow : u.rowId = row) (hpl : UndoPlace h row pid) :
    NextLane h row .undo (.undo u) pid
      { h.appendLanes (h.laneForRow row) with undoPage := some pid } := by
  refine ⟨fun q hq => .inr hq, ?_, ?_⟩
  · rintro q ⟨⟩
    exact .inl ⟨rfl, rfl, hpl⟩
  · rintro _ ⟨⟩
    exact ⟨by rw [hrow], rfl⟩

theorem Put.pid_le (hw : HeapWf h) (hP : Put h kind c pid slot gen h') :
    pid ≤ h.store.nextPageId := by
  obtain ⟨_, _, _, _, _, _, _, _, ⟨p, hp, _⟩ | ⟨hid, _⟩ | ⟨_, _, hr⟩⟩ := hP.page
  · exact (hw.ids pid p hp).2.le
  · exact hid.le
  · simp [hw.noReuse] at hr

theorem LaneWf.undo_not_reusable (hw : LaneWf h) {q k : Nat} {p : Page}
    (hf : h.store.fetch q = .ok p)
    (hc : p.cells[k]? = some (.undo u)) : q ∉ h.reusableHeapPages := by
  intro hq
  obtain ⟨p', hf', hk⟩ := hw.reusable q hq
  rw [hf] at hf'
  cases hf'
  have hcell := (hw.page q p hf).cells _ (mem_of_getElem? hc)
  exact absurd (hcell.trans hk) (by simp [Cell.pageKind])

theorem LaneWf.undoPage_not_reusable (hw : LaneWf h) {i q : Nat}
    (hi : (h.appendLanes i).undoPage = some q) :
    q ∉ h.reusableHeapPages ∧ ∃ p, h.store.fetch q = .ok p ∧ p.kind = .undo := by
  obtain ⟨p, hp, hk⟩ := hw.laneUndo i q hi
  refine ⟨fun hq => ?_, p, hp, hk⟩
  obtain ⟨p', hp', hk'⟩ := hw.reusable q hq
  rw [hp] at hp'
  cases hp'
  rw [hk] at hk'
  cases hk'

structure Keeps (h h' : PageBackedHeap) : Prop where
  undo : ∀ ptr u, h.readUndo ptr = .ok u → h'.readUndo ptr = .ok u
  tuple : ∀ ptr t, ptr.pageId ∉ h.reusableHeapPages → h.readTuple ptr = .ok t →
    h'.readTuple ptr = .ok t
  reusable : ∀ q ∈ h'.reusableHeapPages, q ∈ h.reusableHeapPages
  dir : h'.relationRowDir = h.relationRowDir
  relId : h'.relId = h.relId

theorem Keeps.trans {h₁ h₂ h₃ : PageBackedHeap} (a : Keeps h₁ h₂) (b : Keeps h₂ h₃) :
    Keeps h₁ h₃ where
  undo ptr u hu := b.undo ptr u (a.undo ptr u hu)
  tuple ptr t hn ht := b.tuple ptr t (fun hq => hn (a.reusable _ hq)) (a.tuple ptr t hn ht)
  reusable q hq := a.reusable q (b.reusable q hq)
  dir := b.dir.trans a.dir
  relId := b.relId.trans a.relId

theorem Put.keeps (hw : LaneWf h) (hP : Put h kind c pid slot gen h') : Keeps h h' where
  undo ptr u hu := by
    obtain ⟨hne, p, hf, hc⟩ := readUndo_eq_ok.1 hu
    obtain ⟨p', hf', -, -, hpre⟩ := hP.page_mono hw hf (hw.undo_not_reusable hf hc)
    exact readUndo_eq_ok.2 ⟨hne, p', hf', getElem?_of_prefix hpre hc⟩
  tuple ptr t hn ht := by
    obtain ⟨hnull, p, hf, hg, hc⟩ := readTuple_eq_ok.1 ht
    obtain ⟨p', hf', hg', -, hpre⟩ := hP.page_mono hw hf hn
    exact readTuple_eq_ok.2 ⟨hnull, p', hf', hg'.trans hg, getElem?_of_prefix hpre hc⟩
  reusable := hP.reusable_sub
  dir := by rw [hP.frame]
  relId := by rw [hP.frame]

theorem Put.undo_le (hP : Put h kind c pid slot gen h') (hw : LaneWf h)
    (hN : NextLane h row kind c pid lane) {i q q' k : Nat}
    {p : Page} (hi : ((h'.setLane (h.laneForRow row) lane).appendLanes i).undoPage = some q)
    (hq' : h'.store.fetch q' = .ok p) (hcell : p.cells[k]? = some (.undo u))
    (hlane : h'.laneForRow u.rowId = i) : q' ≤ q := by
  have hal : h'.appendLanes = h.appendLanes := by rw [hP.frame]
  have hlane' : h.laneForRow u.rowId = i := by
    rw [hP.frame] at hlane
    exact hlane
  simp only [setLane] at hi
  rcases hP.cell_cases hq' hcell with ⟨p0, hp0, hc0, -, -⟩ | ⟨rfl, -, hcu⟩
  · split at hi
    · next hii =>
      rcases hN.undo q hi with ⟨rfl, -, hpl⟩ | hq
      · exact hpl.le hw hp0 hc0 (hlane'.trans hii)
      · exact hw.undoMono _ q hq q' p0 k u hp0 hc0 (hlane'.trans hii)
    · rw [hal] at hi
      exact hw.undoMono i q hi q' p0 k u hp0 hc0 hlane'
  · obtain ⟨h1, h2⟩ := hN.record u hcu.symm
    rw [h1] at hlane'
    subst hlane'
    simp only [ite_true, h2] at hi
    cases hi
    exact le_rfl

theorem Put.laneWf (hw : LaneWf h) (hP : Put h kind c pid slot gen h')
    (hN : NextLane h row kind c pid lane) :
    LaneWf (h'.setLane (h.laneForRow row) lane) := by
  have hK := hP.keeps hw
  have hal : h'.appendLanes = h.appendLanes := by rw [hP.frame]
  obtain ⟨pn, old, hpn, hkn, -, hokn, -, -, hfrom⟩ := hP.page
  -- a page that a lane goes on with
  have hkept : ∀ q k, (q ∉ h.reusableHeapPages ∧ ∃ p, h.store.fetch q = .ok p ∧ p.kind = k) →
      q ∉ h'.reusableHeapPages ∧ ∃ p, h'.store.fetch q = .ok p ∧ p.kind = k := by
    rintro q k ⟨hnr, p, hp, hk⟩
    obtain ⟨p', hp', -, hk', -⟩ := hP.page_mono hw hp hnr
    exact ⟨fun hq => hnr (hK.reusable q hq), p', hp', hk'.trans hk⟩
  refine ⟨fun q p hq => ?_, hw.next.trans hP.ids.2.2, ?_, ?_, fun q p hq => ?_, fun q hq => ?_,
    fun i q hi => ?_,
    fun i q hi => ?_, fun i q hi q' p k u => hP.undo_le hw hN hi⟩
  · by_cases hqp : q = pid
    · exact hqp ▸ ⟨hP.ids.1, hP.ids.2.1⟩
    · have hid := hw.ids q p ((hP.other q hqp).symm.trans hq)
      exact ⟨hid.1, hid.2.trans_le hP.ids.2.2⟩
  · show h'.reusableUndoPages = []
    rw [hP.frame]
    exact hw.noUndo
  · show h'.reusableHeapPages.Nodup
    have hnd := hw.nodup
    rcases hfrom with ⟨_, _, _, _, _, _, hr⟩ | ⟨_, _, hr⟩ | ⟨_, _, hr⟩
    · rw [hr]; exact hnd
    · rw [hr]; exact hnd
    · rw [hr, nodup_append] at hnd
      exact hnd.1
  · show HeapPageOk h'.store.pageSize.bytes h'.relId q p
    rw [hP.size, hK.relId]
    by_cases hqp : q = pid
    · subst hqp
      cases hpn.symm.trans hq
      exact hokn
    · exact hw.page q p ((hP.other q hqp).symm.trans hq)
  · have hne : q ≠ pid := fun h => hP.not_reusable hw (h ▸ hq)
    obtain ⟨p, hp, hk⟩ := hw.reusable q (hK.reusable q hq)
    exact ⟨p, (hP.other q hne).trans hp, hk⟩
  · simp only [setLane] at hi
    split at hi
    · rcases hN.heap q hi with ⟨rfl, rfl⟩ | hq
      · exact ⟨fun hq => hP.not_reusable hw hq, pn, hpn, hkn⟩
      · exact hkept q _ (hw.laneHeap _ q hq)
    · exact hkept q _ (hw.laneHeap i q (hal ▸ hi))
  · simp only [setLane] at hi
    split at hi
    · rcases hN.undo q hi with ⟨rfl, rfl, -⟩ | hq
      · exact ⟨pn, hpn, hkn⟩
      · exact (hkept q _ (hw.undoPage_not_reusable hq)).2
    · exact (hkept q _ (hw.undoPage_not_reusable (hal ▸ hi))).2

end Put

variable {h1 : PageBackedHeap} {gen lsn pid rel row slot tx : Nat} {wp : Option WalPayload}
  {current next t : TupleVersion} {a b l l' : List TupleVersion} {payload : Bytes}

theorem Keeps.setLane (hK : Keeps h h1) (i : Nat) (lane : AppendLane) :
    Keeps h (h1.setLane i lane) :=
  { hK with }

theorem appendTuple_put (hw : LaneWf h) (ha : h.appendTuple tx row t lsn wp = .ok (ptr, h')) :
    (LaneWf h' ∧ Keeps h h') ∧ h'.readTuple ptr = .ok t ∧ ptr.pageId ∉ h'.reusableHeapPages ∧ ∃ h1,
      Put h .heap (.tuple t) ptr.pageId ptr.slot ptr.generation h1 ∧
        Stored h tx lsn wp ptr.pageId h1 ∧
      h' = h1.setLane (h.laneForRow row)
        { h1.appendLanes (h.laneForRow row) with heapPage := some ptr.pageId } := by
  simp only [appendTuple, bind_eq_ok, pure_eq_ok, Prod.mk.injEq, Prod.exists] at ha
  obtain ⟨pid, slot, gen, h1, hc, rfl, rfl⟩ := ha
  obtain ⟨hP, hst, -⟩ := appendCell_put hw (.inl rfl) rfl (fun q hq => hw.laneHeap _ q hq) hc
  have hal : h1.appendLanes = h.appendLanes := by rw [hP.frame]
  refine ⟨⟨?_, (hP.keeps hw).setLane _ _⟩, hP.readTuple, fun hq => hP.not_reusable hw hq, h1, hP,
    hst, rfl⟩
  rw [hal]
  exact hP.laneWf hw .tuple

theorem appendUndo_put {ptr : Nat} (hw : LaneWf h) (hrow : u.rowId = row)
    (ha : h.appendUndo tx row u lsn = .ok (ptr, h')) :
    (LaneWf h' ∧ Keeps h h') ∧ h'.readUndo ptr = .ok u ∧
      (∀ prev u0, h.readUndo prev = .ok u0 → u0.rowId = row → prev < ptr) ∧ ∃ h1 pid slot gen,
      Put h .undo (.undo u) pid slot gen h1 ∧ Stored h tx lsn none pid h1 ∧
      h' = h1.setLane (h.laneForRow row)
        { h1.appendLanes (h.laneForRow row) with undoPage := some pid } := by
  simp only [appendUndo, bind_eq_ok, pure_eq_ok, Prod.mk.injEq, Prod.exists] at ha
  obtain ⟨pid, slot, gen, h1, hc, rfl, rfl⟩ := ha
  obtain ⟨hP, hst, hplace⟩ :=
    appendCell_put hw (.inr rfl) rfl (fun q hq => hw.undoPage_not_reusable hq) hc
  have hpl := hplace (.inr rfl)
  have hal : h1.appendLanes = h.appendLanes := by rw [hP.frame]
  refine ⟨⟨?_, (hP.keeps hw).setLane _ _⟩, hP.readUndo, fun prev u0 hprev hrow0 => ?_, h1, pid,
    slot, gen, hP, hst, rfl⟩
  · rw [hal]
    exact hP.laneWf hw (.undoRecord hrow hpl)
  · exact hP.undo_lt hw hpl hprev hrow0

/-! ### Without reuse -/

structure Grows (h h' : PageBackedHeap) : Prop where
  wf : HeapWf h'
  tuple : ∀ ptr t, h.readTuple ptr = .ok t → h'.readTuple ptr = .ok t
  undo : ∀ ptr u, h.readUndo ptr = .ok u → h'.readUndo ptr = .ok u
  relId : h'.relId = h.relId

theorem Grows.trans {h2 h3 : PageBackedHeap} (a : Grows h1 h2) (b : Grows h2 h3) : Grows h1 h3 where
  wf := b.wf
  tuple ptr t ht := b.tuple ptr t (a.tuple ptr t ht)
  undo ptr u hu := b.undo ptr u (a.undo ptr u hu)
  relId := b.relId.trans a.relId

theorem HeapWf.refl_grows (hw : HeapWf h) : Grows h h := ⟨hw, fun _ _ h => h, fun _ _ h => h, rfl⟩

theorem Grows.of_keeps (hw : HeapWf h) (hw' : LaneWf h' ∧ Keeps h h') (hc : h'.store.FramesClean) :
    Grows h h' := by
  have hno : ∀ q, q ∉ h.reusableHeapPages := by simp [hw.noReuse]
  exact ⟨⟨hw'.1, eq_nil_iff_forall_not_mem.2 fun q hq => hno q (hw'.2.reusable q hq), hc⟩,
    fun ptr t => hw'.2.tuple ptr t (hno _), hw'.2.undo, hw'.2.relId⟩

theorem appendTuple_grows (hw : HeapWf h) (ha : h.appendTuple tx row t lsn wp = .ok (ptr, h')) :
    Grows h h' := by
  obtain ⟨hw', -, -, h1, -, hst, rfl⟩ := appendTuple_put hw.toLaneWf ha
  exact .of_keeps hw hw' (hst.clean hw.clean)

theorem appendUndo_grows {ptr : Nat} (hw : HeapWf h) (hrow : u.rowId = row)
    (ha : h.appendUndo tx row u lsn = .ok (ptr, h')) : Grows h h' := by
  obtain ⟨hw', -, -, h1, pid, slot, gen, -, hst, rfl⟩ := appendUndo_put hw.toLaneWf hrow ha
  exact .of_keeps hw hw' (hst.clean hw.clean)

inductive UndoChain (h : PageBackedHeap) (row : Nat) : Nat → List TupleVersion → Prop
  | nil : UndoChain h row 0 []
  | cons {ptr : Nat} {u : UndoRecord} {l : List TupleVersion} :
      h.readUndo ptr = .ok u → u.rowId = row → u.prevUndo < ptr →
        u.beforeImage.undoHead = u.prevUndo →
      UndoChain h row u.prevUndo l → UndoChain h row ptr (u.beforeImage :: l)

inductive RowChain (h : PageBackedHeap) (rel row : Nat) : List TupleVersion → Prop
  | none : h.headForRelation rel row = none → RowChain h rel row []
  | some {ptr : TuplePtr} {t : TupleVersion} {l : List TupleVersion} :
      h.headForRelation rel row = some ptr → h.readTuple ptr = .ok t → t.relId = rel →
      UndoChain h row t.undoHead l → RowChain h rel row (t :: l)

theorem UndoChain.of_undo {ptr : Nat} (hc : UndoChain h row ptr l)
    (hu : ∀ ptr u, h.readUndo ptr = .ok u → h'.readUndo ptr = .ok u) : UndoChain h' row ptr l := by
  induction hc with
  | nil => exact .nil
  | cons h1 h2 h3 h4 _ ih => exact .cons (hu _ _ h1) h2 h3 h4 ih

theorem UndoChain.lt {ptr n : Nat} (hc : UndoChain h row ptr l) (hn : 0 < n)
    (hlt : ∀ prev u, h.readUndo prev = .ok u → u.rowId = row → prev < n) : ptr < n := by
  cases hc with
  | nil => exact hn
  | cons h1 h2 _ _ _ => exact hlt _ _ h1 h2

theorem RowChain.grows (hc : RowChain h rel row l) (hg : Grows h h')
    (hd : h'.headForRelation rel row = h.headForRelation rel row) : RowChain h' rel row l := by
  cases hc with
  | none h1 => exact .none (hd.trans h1)
  | some h1 h2 h3 h4 => exact .some (hd.trans h1) (hg.tuple _ _ h2) h3 (h4.of_undo hg.undo)

theorem UndoChain.det {ptr : Nat} (hc : UndoChain h row ptr l) (hc' : UndoChain h row ptr l') :
    l = l' := by
  induction hc generalizing l' with
  | nil =>
    cases hc' with
    | nil => rfl
    | cons _ _ h3 => omega
  | cons h1 _ h3 _ _ ih =>
    cases hc' with
    | nil => omega
    | cons h1' _ _ _ h5' =>
      rw [h1] at h1'
      cases h1'
      rw [ih h5']

theorem RowChain.det (hc : RowChain h rel row l) (hc' : RowChain h rel row l') : l = l' := by
  cases hc with
  | none h1 =>
    cases hc' with
    | none => rfl
    | some h1' => rw [h1] at h1'; cases h1'
  | some h1 h2 _ h4 =>
    cases hc' with
    | none h1' => rw [h1] at h1'; cases h1'
    | some h1' h2' _ h4' =>
      rw [h1] at h1'
      cases h1'
      rw [h2] at h2'
      cases h2'
      rw [h4.det h4']

theorem UndoChain.suffix {ptr : Nat} (hc : UndoChain h row ptr l)
    (hl : l = a ++ t :: b) : UndoChain h row t.undoHead b := by
  induction hc generalizing a with
  | nil => simp at hl
  | cons _ _ _ h4 h5 ih =>
    cases a with
    | nil =>
      obtain ⟨rfl, rfl⟩ := hl
      rw [h4]
      exact h5
    | cons x a =>
      simp only [cons_append, cons.injEq] at hl
      exact ih hl.2

theorem RowChain.suffix (hc : RowChain h rel row l) (hl : l = a ++ t :: b) :
    UndoChain h row t.undoHead b := by
  cases hc with
  | none => simp at hl
  | some _ _ _ h4 =>
    cases a with
    | nil =>
      obtain ⟨rfl, rfl⟩ := hl
      exact h4
    | cons x a =>
      simp only [cons_append, cons.injEq] at hl
      exact h4.suffix hl.2

structure WroteAt (h : PageBackedHeap) (rel row : Nat) (h' : PageBackedHeap) : Prop where
  grows : Grows h h'
  other : ∀ rel' row', (rel', row') ≠ (rel, row) →
    h'.headForRelation rel' row' = h.headForRelation rel' row'

theorem WroteAt.rowChain {rel' row' : Nat} (hW : WroteAt h rel row h')
    (hne : (rel', row') ≠ (rel, row)) (hc : RowChain h rel' row' l) : RowChain h' rel' row' l :=
  hc.grows hW.grows (hW.other rel' row' hne)

structure Wrote (h : PageBackedHeap) (rel row : Nat) (l : List TupleVersion)
    (h' : PageBackedHeap) : Prop
    extends WroteAt h rel row h' where
  chain : RowChain h' rel row l

theorem Grows.setHeads (hg : Grows h h1) :
    Grows h ((h1.setHead row ptr).setRelationHead rel row ptr) :=
  hg.trans ⟨{ hg.wf with }, fun _ _ h => h, fun _ _ h => h, rfl⟩

theorem Wrote.of_setHead (hg : Grows h h1) (hd : h1.relationRowDir = h.relationRowDir)
    (hr : h1.readTuple ptr = .ok t) (hrel : t.relId = rel) (hu : UndoChain h1 row t.undoHead l) :
    Wrote h rel row (t :: l) ((h1.setHead row ptr).setRelationHead rel row ptr) := by
  have hg' : Grows h1 ((h1.setHead row ptr).setRelationHead rel row ptr) :=
    hg.wf.refl_grows.setHeads
  refine ⟨⟨hg.trans hg', ?_⟩, .some ?_ (hg'.tuple _ _ hr) hrel (hu.of_undo hg'.undo)⟩
  · intro rel' row' hne
    simp [headForRelation, setRelationHead, setHead, AList.lookup_insert_ne hne, hd]
  · simp [headForRelation, setRelationHead, setHead]

section
variable (hw : HeapWf h)
include hw

theorem insertRecoveredAt_ok (hi : h.insertRecoveredAt tx rel row payload lsn = .ok h') :
    Wrote h (h.normRel rel) row [.new row (h.normRel rel) tx payload] h' := by
  simp only [insertRecoveredAt, bind_eq_ok, pure_eq_ok, Prod.exists] at hi
  obtain ⟨ptr, h2, ha, rfl⟩ := hi
  have hw0 : HeapWf { h with nextRow := advanceRowPast h.nextRow row } :=
    { hw with }
  have hg0 : Grows h { h with nextRow := advanceRowPast h.nextRow row } :=
    ⟨hw0, fun _ _ h => h, fun _ _ h => h, rfl⟩
  obtain ⟨⟨-, hK⟩, hr, -⟩ := appendTuple_put hw0.toLaneWf ha
  exact .of_setHead (hg0.trans (appendTuple_grows hw0 ha)) hK.dir hr rfl .nil

theorem insertForRelation_ok (hi : h.insertForRelation tx rel row payload lsn = .ok h') :
    Wrote h (h.normRel rel) row [.new row (h.normRel rel) tx payload] h' := by
  have hw0 : HeapWf { h with nextRow := advanceRowPast h.nextRow row } :=
    { hw with }
  have hW := insertRecoveredAt_ok hw0 hi
  exact ⟨⟨{ hW.grows with }, hW.other⟩, hW.chain⟩

theorem appendVersion_ok {kind : UndoKind} (hrel : next.relId = rel)
    (hu : UndoChain h row current.undoHead l)
    (ha : h.appendVersion kind tx rel row next current lsn wp = .ok h') :
    ∃ undoPtr, Wrote h rel row
      ({ next with undoHead := undoPtr } :: { current with endTx := tx } :: l) h' := by
  simp only [appendVersion, bind_eq_ok, pure_eq_ok, Prod.exists] at ha
  obtain ⟨undoPtr, h2, hundo, ptr, h3, htup, rfl⟩ := ha
  have hg1 := appendUndo_grows hw rfl hundo
  have hg2 := appendTuple_grows hg1.wf htup
  obtain ⟨⟨-, hK1⟩, hr1, hlt, -⟩ := appendUndo_put hw.toLaneWf rfl hundo
  obtain ⟨⟨-, hK2⟩, hr2, -⟩ := appendTuple_put hg1.wf.toLaneWf htup
  have hprev : current.undoHead < undoPtr :=
    hu.lt (Nat.pos_of_ne_zero (readUndo_eq_ok.1 hr1).1) hlt
  exact ⟨undoPtr, .of_setHead (hg1.trans hg2) (hK2.dir.trans hK1.dir) hr2 hrel
    (UndoChain.cons (u := ⟨kind, tx, row, current.undoHead, { current with endTx := tx }⟩)
      (hg2.undo _ _ hr1) rfl hprev rfl (hu.of_undo (hg1.trans hg2).undo))⟩

theorem appendVersion_at {kind : UndoKind}
    (ha : h.appendVersion kind tx rel row next current lsn wp = .ok h') : WroteAt h rel row h' := by
  simp only [appendVersion, bind_eq_ok, pure_eq_ok, Prod.exists] at ha
  obtain ⟨undoPtr, h2, hundo, ptr, h3, htup, rfl⟩ := ha
  have hg1 := appendUndo_grows hw rfl hundo
  obtain ⟨⟨-, hK1⟩, -⟩ := appendUndo_put hw.toLaneWf rfl hundo
  obtain ⟨⟨-, hK2⟩, -⟩ := appendTuple_put hg1.wf.toLaneWf htup
  refine ⟨(hg1.trans (appendTuple_grows hg1.wf htup)).setHeads, ?_⟩
  intro rel' row' hne
  show AList.lookup (rel', row') (h3.relationRowDir.insert (rel, row) ptr) = h.relationRowDir.lookup
      (rel', row')
  rw [AList.lookup_insert_ne hne, hK2.dir, hK1.dir]

variable {snapshot : Snapshot} {txs : ConcurrentTxStatus}

theorem updateForRelation_at
    (hu : h.updateForRelation tx snapshot txs rel row payload lsn = .ok h') :
    WroteAt h (h.normRel rel) row h' := by
  simp only [updateForRelation, appendUpdateVersion, bind_eq_ok] at hu
  obtain ⟨_, -, _, -, ha⟩ := hu
  exact appendVersion_at hw ha

theorem deleteForRelation_at (hd : h.deleteForRelation tx snapshot txs rel row lsn = .ok h') :
    WroteAt h (h.normRel rel) row h' := by
  simp only [deleteForRelation, appendDeleteVersion, bind_eq_ok] at hd
  obtain ⟨_, -, ha⟩ := hd
  exact appendVersion_at hw ha

end

def Replaces (h : PageBackedHeap) (tx rel row : Nat) (current : TupleVersion) (value : Option Bytes)
    (h' : PageBackedHeap) : Prop :=
  ∃ kind next lsn wp, next.relId = h.normRel rel ∧ next.beginTx = tx ∧ next.endTx = 0 ∧
    (if next.deleted then none else some next.payload) = value ∧
    h.appendVersion kind tx (h.normRel rel) row next current lsn wp = .ok h'

theorem Replaces.of_update (ha : h.appendUpdateVersion tx rel row payload current lsn = .ok h') :
    Replaces h tx rel row current (some payload) h' := by
  simp only [appendUpdateVersion, bind_eq_ok] at ha
  obtain ⟨-, -, ha⟩ := ha
  exact ⟨_, _, _, _, rfl, rfl, rfl, rfl, ha⟩

theorem Replaces.of_delete (ha : h.appendDeleteVersion tx rel row current lsn = .ok h') :
    Replaces h tx rel row current none h' := ⟨_, _, _, _, rfl, rfl, rfl, rfl, ha⟩

theorem Replaces.wrote {value : Option Bytes} (hR : Replaces h tx rel row current value h')
    (hw : HeapWf h)
    (hu : UndoChain h row current.undoHead l) : ∃ (next : TupleVersion) (undoPtr : Nat),
    next.beginTx = tx ∧ next.endTx = 0 ∧
      (if next.deleted then none else some next.payload) = value ∧ Wrote h (h.normRel rel) row
        ({ next with undoHead := undoPtr } :: { current with endTx := tx } :: l) h' := by
  obtain ⟨kind, next, lsn, wp, hrel, hnb, hne, hv, ha⟩ := hR
  obtain ⟨undoPtr, hW⟩ := appendVersion_ok hw hrel hu ha
  exact ⟨next, undoPtr, hnb, hne, hv, hW⟩

section Read
variable (txs : ConcurrentTxStatus) (snapshot : Snapshot) (owner : Option Nat)

def firstVisible : List TupleVersion → UndoHit
  | [] => .exhausted
  | t :: l =>
    match t.visibility txs snapshot owner with
    | .visible => .visible t
    | .deleted => .deleted
    | .invisible => firstVisible l

def hitPayload : UndoHit → Option Bytes
  | .visible t => some t.payload
  | .deleted => none
  | .exhausted => none

variable {txs snapshot owner}
variable {l : List TupleVersion}

theorem walkUndo_chain {row ptr fuel : Nat} (hc : UndoChain h row ptr l) (hf : ptr ≤ fuel) :
    h.walkUndo txs snapshot owner fuel ptr = .ok (firstVisible txs snapshot owner l) := by
  induction hc generalizing fuel with
  | nil => cases fuel <;> simp [walkUndo, firstVisible]
  | @cons ptr u l h1 _ h3 _ _ ih =>
    obtain ⟨n, rfl⟩ : ∃ n, fuel = n + 1 := ⟨fuel - 1, by omega⟩
    have hne := (readUndo_eq_ok.1 h1).1
    simp only [walkUndo, if_neg hne, h1, firstVisible]
    show (match u.beforeImage.visibility txs snapshot owner with
      | .visible => Except.ok (UndoHit.visible u.beforeImage)
      | .deleted => Except.ok .deleted
      | .invisible => h.walkUndo txs snapshot owner n u.prevUndo) = _
    rw [ih (by omega)]
    cases u.beforeImage.visibility txs snapshot owner <;> rfl

theorem getForRelation_chain {rel row : Nat} (hc : RowChain h rel row l) :
    h.getForRelation txs snapshot owner rel row =
      .ok (hitPayload (firstVisible txs snapshot owner l)) := by
  unfold getForRelation
  cases hc with
  | none h1 => rw [h1]; rfl
  | @some ptr t l h1 h2 h3 h4 =>
    rw [h1]
    simp only [h2, firstVisible]
    show (if t.relId ≠ rel then Except.ok none else _) = _
    rw [if_neg (by simpa using h3)]
    cases t.visibility txs snapshot owner with
    | visible => rfl
    | deleted => rfl
    | invisible =>
      simp only [getFromUndo, walkUndo_chain h4 le_rfl]
      cases firstVisible txs snapshot owner l <;> rfl

theorem firstVisible_eq_visible {t : TupleVersion}
    (hv : firstVisible txs snapshot owner l = .visible t) :
    ∃ a b, l = a ++ t :: b ∧ t.visibility txs snapshot owner = .visible ∧
      ∀ v ∈ a, v.visibility txs snapshot owner = .invisible := by
  induction l with
  | nil => cases hv
  | cons x l ih =>
    simp only [firstVisible] at hv
    cases hx : x.visibility txs snapshot owner with
    | visible =>
      rw [hx] at hv
      cases hv
      exact ⟨[], l, rfl, hx, by simp⟩
    | deleted => rw [hx] at hv; cases hv
    | invisible =>
      rw [hx] at hv
      obtain ⟨a, b, rfl, h1, h2⟩ := ih hv
      refine ⟨x :: a, b, rfl, h1, ?_⟩
      intro v hv'
      rcases mem_cons.1 hv' with rfl | hv'
      · exact hx
      · exact h2 v hv'

end Read

/-- The write check returns a visible version of the chain, with only invisible ones above it; it
looks below the head only when the head's transaction aborted. -/
theorem visibleTupleForWrite_ok {tx rel row : Nat}
    {l : List TupleVersion} {current : TupleVersion} (hc : RowChain h (h.normRel rel) row l)
    (hv : h.visibleTupleForWriteInRelation tx snapshot txs rel row = .ok current) :
    ∃ a b, l = a ++ current :: b ∧ current.visibility txs snapshot (some tx) = .visible ∧
      (∀ v ∈ a, v.visibility txs snapshot (some tx) = .invisible) ∧
      (∀ t a', a = t :: a' → txs.state t.beginTx = .aborted) := by
  simp only [visibleTupleForWriteInRelation, currentTupleForRelation, bind_eq_ok] at hv
  obtain ⟨t, ht, hv⟩ := hv
  cases hc with
  | none h1 => rw [h1] at ht; cases ht
  | @some ptr t' l h1 h2 h3 h4 =>
    rw [h1] at ht
    dsimp only at ht
    rw [h2] at ht
    cases ht
    unfold visibleCurrentTupleForWrite at hv
    cases hvis : t.visibility txs snapshot (some tx) with
    | visible =>
      rw [hvis] at hv
      cases hv
      exact ⟨[], l, rfl, hvis, by simp, by simp⟩
    | deleted => rw [hvis] at hv; cases hv
    | invisible =>
      rw [hvis] at hv
      cases hst : txs.state t.beginTx with
      | committed csn => rw [hst] at hv; cases hv
      | inProgress => rw [hst] at hv; cases hv
      | aborted =>
        rw [hst] at hv
        simp only [walkUndo_chain h4 le_rfl, bind_eq_ok, Except.ok.injEq, exists_eq_left'] at hv
        cases hfv : firstVisible txs snapshot (some tx) l with
        | visible t2 =>
          rw [hfv] at hv
          cases hv
          obtain ⟨a, b, rfl, hvt, ha⟩ := firstVisible_eq_visible hfv
          refine ⟨t :: a, b, rfl, hvt, ?_, ?_⟩
          · intro v hv'
            rcases mem_cons.1 hv' with rfl | hv'
            · exact hvis
            · exact ha v hv'
          · rintro _ _ ⟨⟩
            exact hst
        | deleted => rw [hfv] at hv; cases hv
        | exhausted => rw [hfv] at hv; cases hv

end RedlineDb.PageBackedHeap
