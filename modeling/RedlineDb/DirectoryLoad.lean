import RedlineDb.HeapPages
import RedlineDb.HeapRecovery

/-!
# What the directory load finds

`load_row_directory_from_pages` scans the pages from the lowest on, each from its last slot down,
and keeps the first version of a row it meets. `firstVersion` is that version, read off the pages:
it is the last one on the lowest page that holds any, which need not be the row's newest.
-/

namespace RedlineDb

def Cell.isVersionOf (rel row : Nat) : Cell → Bool
  | .tuple t => t.relId = rel ∧ t.rowId = row
  | _ => false

def Page.lastVersion (p : Page) (rel row : Nat) : Option Nat :=
  (List.range p.cells.length).reverse.find? fun k => (p.cells[k]?).any (Cell.isVersionOf rel row)

namespace PageBackedHeap
variable {h h' : PageBackedHeap} {pid rel row : Nat} {p : Page}

def versionOn (h : PageBackedHeap) (rel row pid : Nat) : Option TuplePtr :=
  match h.store.fetch pid with
  | .ok p => (p.lastVersion rel row).map fun k => ⟨pid, k, p.generation⟩
  | .error _ => none

def firstVersion (h : PageBackedHeap) (rel row : Nat) : Option TuplePtr :=
  (scanPages (h.store.nextPageId - 1)).findSome? (h.versionOn rel row)

def SameBut (h h' : PageBackedHeap) : Prop :=
  h' = { h with rowDir := h'.rowDir, relationRowDir := h'.relationRowDir, nextRow := h'.nextRow }

theorem SameBut.trans {h1 h2 h3 : PageBackedHeap} (a : SameBut h1 h2) (b : SameBut h2 h3) :
    SameBut h1 h3 := by
  unfold SameBut at *
  rw [b, a]

theorem SameBut.store (hs : SameBut h h') : h'.store = h.store := by rw [hs]

theorem SameBut.relId (hs : SameBut h h') : h'.relId = h.relId := by rw [hs]

theorem SameBut.normRel (hs : SameBut h h') (rel : Nat) : h'.normRel rel = h.normRel rel := by
  unfold PageBackedHeap.normRel
  rw [hs.relId]

theorem headForRelation_setRelationHead (rel' row' : Nat) (ptr : TuplePtr) :
    (h.setRelationHead rel' row' ptr).headForRelation rel row =
      if (rel, row) = (rel', row') then some ptr else h.headForRelation rel row := by
  unfold setRelationHead headForRelation
  split
  · next he => rw [he]; simp
  · next he => rw [AList.lookup_insert_ne he]

theorem loadTuple_ok (ptr : TuplePtr) {t : TupleVersion} (hn : h.normRel t.relId = t.relId) :
    SameBut h (h.loadTuple ptr t) ∧ ∀ rel row, (h.loadTuple ptr t).headForRelation rel row =
      (h.headForRelation rel row).or
      (if Cell.isVersionOf rel row (.tuple t) then some ptr else none) := by
  have hn' : ({ h with nextRow := advanceRowPast h.nextRow t.rowId } : PageBackedHeap).normRel
      t.relId = t.relId := hn
  generalize hh : ({ h with nextRow := advanceRowPast h.nextRow t.rowId } : PageBackedHeap) =
    h1 at hn'
  have hs1 : SameBut h h1 := by rw [← hh]; rfl
  have hd1 : ∀ rel row, h1.headForRelation rel row = h.headForRelation rel row := by
    rw [← hh]; exact fun _ _ => rfl
  -- the row directory of the heap as a whole plays no part in the relation's
  obtain ⟨h2, hh2, hs2, hd2⟩ :
      ∃ h2, (if (h1.head t.rowId).isNone then h1.setHead t.rowId ptr else h1) = h2 ∧
      SameBut h1 h2 ∧ ∀ rel row, h2.headForRelation rel row = h1.headForRelation rel row := by
    split
    · exact ⟨_, rfl, rfl, fun _ _ => rfl⟩
    · exact ⟨_, rfl, rfl, fun _ _ => rfl⟩
  have hdef : h.loadTuple ptr t =
      if (h2.headForRelation t.relId t.rowId).isNone then h2.setRelationHead t.relId t.rowId ptr
        else h2 := by
    unfold loadTuple
    rw [hh]
    dsimp only
    rw [hn', hh2]
  rw [hdef]
  have hver : ∀ rel row, Cell.isVersionOf rel row (.tuple t) = true ↔
      (rel, row) = (t.relId, t.rowId) := by
    intro rel row
    simp only [Cell.isVersionOf, decide_eq_true_eq, Prod.mk.injEq]
    exact ⟨fun h => ⟨h.1.symm, h.2.symm⟩, fun h => ⟨h.1.symm, h.2.symm⟩⟩
  constructor
  · refine (hs1.trans hs2).trans ?_
    split
    · rfl
    · rfl
  · intro rel row
    have hd := (hd2 rel row).trans (hd1 rel row)
    split
    · next hnone =>
      rw [headForRelation_setRelationHead]
      by_cases he : (rel, row) = (t.relId, t.rowId)
      · obtain ⟨rfl, rfl⟩ := Prod.mk.inj he
        rw [hd, Option.isNone_iff_eq_none] at hnone
        rw [if_pos rfl, if_pos ((hver _ _).2 rfl), hnone]
        rfl
      · rw [if_neg he, if_neg fun hc => he ((hver rel row).1 hc), hd, Option.or_none]
    · next hsome =>
      by_cases he : (rel, row) = (t.relId, t.rowId)
      · obtain ⟨rfl, rfl⟩ := Prod.mk.inj he
        rw [hd] at hsome ⊢
        cases hptr : h.headForRelation t.relId t.rowId with
        | none => rw [hptr] at hsome; exact absurd rfl hsome
        | some ptr' => rfl
      · rw [hd, if_neg fun hc => he ((hver rel row).1 hc), Option.or_none]

theorem loadSlots_ok (pid : Nat) {slots : List Nat}
    (hc : ∀ k ∈ slots, ∃ t, p.cells[k]? = some (.tuple t) ∧ h.normRel t.relId = t.relId) :
    ∃ h', loadSlots pid p slots h = .ok h' ∧ SameBut h h' ∧ ∀ rel row, h'.headForRelation rel row =
      (h.headForRelation rel row).or
        ((slots.find? fun k => (p.cells[k]?).any (Cell.isVersionOf rel row)).map
          fun k => ⟨pid, k, p.generation⟩) := by
  induction slots generalizing h with
  | nil => exact ⟨h, rfl, rfl, by simp⟩
  | cons k slots ih =>
    obtain ⟨t, hk, hn⟩ := hc k (by simp)
    obtain ⟨hs1, hd1⟩ := loadTuple_ok ⟨pid, k, p.generation⟩ hn
    obtain ⟨h', hl, hs, hd⟩ := ih (h := h.loadTuple ⟨pid, k, p.generation⟩ t) (by
      intro k' hk'
      obtain ⟨t', ht', hn'⟩ := hc k' (by simp [hk'])
      exact ⟨t', ht', by rw [hs1.normRel]; exact hn'⟩)
    refine ⟨h', ?_, hs1.trans hs, ?_⟩
    · show (p.tupleCell k >>= _) = _
      rw [Page.tupleCell, hk]
      exact hl
    · intro rel row
      rw [hd, hd1, Option.or_assoc, List.find?_cons, hk]
      congr 1
      cases hv : Cell.isVersionOf rel row (.tuple t) with
      | true => simp [hv]
      | false => simp [hv]

/-- What the load needs of a page: it is there, and a heap page is the heap's own, in use, with
tuples. -/
def Loadable (h : PageBackedHeap) (pid : Nat) : Prop :=
  ∃ p, h.store.fetch pid = .ok p ∧ p.relId = h.relId ∧ p.state = .active ∧
    (p.kind = .heap → ∀ k < p.cells.length, ∃ t, p.cells[k]? = some (.tuple t) ∧
      h.normRel t.relId = t.relId) ∧
    (p.kind ≠ .heap → ∀ (k : Nat) (t : TupleVersion), p.cells[k]? ≠ some (.tuple t))

theorem Loadable.of_same (hl : Loadable h pid) (hs : SameBut h h') : Loadable h' pid := by
  obtain ⟨p, hp, hr, ha, ht, hu⟩ := hl
  refine ⟨p, by rw [hs.store]; exact hp, by rw [hs.relId]; exact hr, ha, ?_, hu⟩
  intro hk k hlt
  obtain ⟨t, hc, hn⟩ := ht hk k hlt
  exact ⟨t, hc, by rw [hs.normRel]; exact hn⟩

theorem versionOn_of_same (hs : SameBut h h') (rel row pid : Nat) :
    h'.versionOn rel row pid = h.versionOn rel row pid := by
  unfold versionOn
  rw [hs.store]

theorem lastVersion_eq_none (hu : ∀ (k : Nat) (t : TupleVersion), p.cells[k]? ≠ some (.tuple t)) :
    p.lastVersion rel row = none := by
  refine List.find?_eq_none.2 ?_
  intro k _
  cases hc : p.cells[k]? with
  | none => simp
  | some c =>
    cases c with
    | tuple t => exact absurd hc (hu k t)
    | undo u => simp [Cell.isVersionOf]
    | leaf e => simp [Cell.isVersionOf]
    | internal e => simp [Cell.isVersionOf]

theorem loadPages_ok {pids : List Nat} (hp : ∀ pid ∈ pids, Loadable h pid) :
    ∃ h', loadPages pids h = .ok h' ∧ SameBut h h' ∧ ∀ rel row,
      h'.headForRelation rel row = (h.headForRelation rel row).or
        (pids.findSome? (h.versionOn rel row)) := by
  induction pids generalizing h with
  | nil => exact ⟨h, rfl, rfl, by simp⟩
  | cons pid pids ih =>
    obtain ⟨p, hfetch, hrel, hact, htup, hund⟩ := hp pid (by simp)
    have hver : ∀ rel row, h.versionOn rel row pid =
        (p.lastVersion rel row).map fun k => ⟨pid, k, p.generation⟩ := by
      intro rel row
      unfold versionOn
      rw [hfetch]
    have hscan : h.scanFetch pid = .ok (some p) := by rw [scanFetch, hfetch]
    by_cases hk : p.kind = .heap
    · have hslots : ∀ k ∈ (List.range p.cells.length).reverse, ∃ t,
          p.cells[k]? = some (.tuple t) ∧ h.normRel t.relId = t.relId :=
        fun k hk' => htup hk k (by simpa using hk')
      obtain ⟨h1, hl1, hs1, hd1⟩ := loadSlots_ok pid hslots
      obtain ⟨h', hl, hs, hd⟩ := ih (h := h1) fun q hq => (hp q (by simp [hq])).of_same hs1
      refine ⟨h', ?_, hs1.trans hs, ?_⟩
      · show (h.scanFetch pid >>= _) = _
        rw [hscan]
        show (if _ then _ else _) = _
        rw [if_pos ⟨by simp [isOwnHeapPage, hk, hrel], by rw [hact]; decide⟩]
        show (loadSlots pid p (List.range p.cells.length).reverse h >>= _) = _
        rw [hl1]
        exact hl
      · intro rel row
        rw [hd, hd1, Option.or_assoc, List.findSome?_cons, hver]
        congr 1
        rw [show h1.versionOn rel row = h.versionOn rel row from funext
          (versionOn_of_same hs1 rel row)]
        show (Option.map _ (p.lastVersion rel row)).or _ = _
        cases p.lastVersion rel row with
        | none => rfl
        | some k => rfl
    · obtain ⟨h', hl, hs, hd⟩ := ih (h := h) fun q hq => hp q (by simp [hq])
      refine ⟨h', ?_, hs, ?_⟩
      · show (h.scanFetch pid >>= _) = _
        rw [hscan]
        show (if _ then _ else _) = _
        rw [if_neg (by simp [isOwnHeapPage, hk])]
        exact hl
      · intro rel row
        rw [hd, List.findSome?_cons, hver, lastVersion_eq_none (hund hk)]
        rfl

theorem loadReusable_ok {pids : List Nat} (hp : ∀ pid ∈ pids, Loadable h pid) :
    loadReusable pids h = .ok h := by
  induction pids with
  | nil => rfl
  | cons pid pids ih =>
    obtain ⟨p, hfetch, -, hact, -, -⟩ := hp pid (by simp)
    show (h.scanFetch pid >>= _) = _
    rw [scanFetch, hfetch]
    show (if _ then _ else _) = _
    rw [if_neg (by rw [hact]; simp)]
    exact ih fun q hq => hp q (by simp [hq])

theorem LiveHeap.loadable (hL : LiveHeap h) (h1 : 1 ≤ pid) (hlt : pid < h.store.nextPageId) :
    Loadable h pid := by
  obtain ⟨p, hp⟩ := hL.pages.all pid h1 hlt
  have hok := hL.wf.page pid p hp
  refine ⟨p, hp, hok.rel, hL.pages.active pid p hp, ?_, ?_⟩
  · intro hk k hklt
    have hc := hok.cells _ (List.getElem_mem hklt)
    cases hcell : p.cells[k] with
    | tuple t =>
      have hget : p.cells[k]? = some (.tuple t) := by rw [List.getElem?_eq_getElem hklt, hcell]
      exact ⟨t, hget, hL.heads.norm pid p k t hp hget⟩
    | undo u => rw [hcell, hk] at hc; cases hc
    | leaf e => rw [hcell, hk] at hc; cases hc
    | internal e => rw [hcell, hk] at hc; cases hc
  · intro hk k t hget
    have hc := hok.cells _ (List.mem_of_getElem? hget)
    exact hk hc.symm

theorem versionOn_eq_some {ptr : TuplePtr} (hv : h.versionOn rel row pid = some ptr) :
    ∃ (p : Page) (k : Nat) (t : TupleVersion),
      h.store.fetch pid = .ok p ∧ p.cells[k]? = some (.tuple t) ∧ t.relId = rel ∧
        t.rowId = row := by
  unfold versionOn at hv
  split at hv
  · next p hp =>
    obtain ⟨k, hk, -⟩ := Option.map_eq_some_iff.1 hv
    have hany := List.find?_some hk
    cases hc : p.cells[k]? with
    | none => simp [hc] at hany
    | some c =>
      rw [hc] at hany
      cases c with
      | tuple t =>
        simp only [Option.any_some, Cell.isVersionOf, decide_eq_true_eq] at hany
        exact ⟨p, k, t, hp, hc, hany⟩
      | undo u => simp [Cell.isVersionOf] at hany
      | leaf e => simp [Cell.isVersionOf] at hany
      | internal e => simp [Cell.isVersionOf] at hany
  · cases hv

theorem LiveHeap.firstVersion_isSome (hL : LiveHeap h) :
    (h.firstVersion rel row).isSome = (h.headForRelation rel row).isSome := by
  cases hd : h.headForRelation rel row with
  | none =>
    rw [firstVersion, List.findSome?_eq_none_iff.2]
    intro pid _
    by_contra hne
    obtain ⟨ptr, hv⟩ := Option.ne_none_iff_exists'.1 hne
    obtain ⟨p, k, t, hp, hk, rfl, rfl⟩ := versionOn_eq_some hv
    obtain ⟨ptr', hd', -⟩ := hL.heads.last pid p k t hp hk
    rw [hd] at hd'
    cases hd'
  | some ptr =>
    obtain ⟨p, t, hp, -, -, hk, rfl, rfl⟩ := hL.heads.head rel row ptr hd
    obtain ⟨h1, hlt⟩ := hL.wf.ids ptr.pageId p hp
    obtain ⟨hslot, -⟩ := List.getElem?_eq_some_iff.1 hk
    rw [firstVersion, Option.isSome_some, List.findSome?_isSome_iff]
    refine ⟨ptr.pageId, by rw [scanPages, List.mem_range'_1]; omega, ?_⟩
    rw [versionOn, hp]
    simp only [Option.isSome_map, Page.lastVersion, List.find?_isSome]
    exact ⟨ptr.slot, by simpa using hslot, by simp [hk, Cell.isVersionOf]⟩

end PageBackedHeap
end RedlineDb
