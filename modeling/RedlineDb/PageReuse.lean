import RedlineDb.Format
import RedlineDb.Lib.Assoc
import RedlineDb.Lib.Run

/-!
# Heap pages that vacuum gives back

`append_tuple` chooses a page under the lock of its lane and puts the tuple there; the row's heads
are set afterwards, outside the lock, in the row directory and then in the directory of the
relation. Vacuum removes the heads of a dead row, looks through the shards of the relation directory
for another head on the page and, if there is none, takes the page out of the lanes and puts it on
the list of reusable pages. A page is what reuse looks at: its generation and whose tuples its cells
are. Vacuum may take any tombstone, so its horizon does not matter here. Undo pages are never given
back.

Nothing keeps vacuum and the appends to one page apart (`head_into_recycled_page`); when they are,
every head leads to its row's tuple (`page_reuse_safe`).
-/

namespace RedlineDb.PageReuse
open Lib Function List

abbrev RowKey := Nat × Nat

structure HeapTuple where
  key : RowKey
  deleted : Bool
deriving DecidableEq

structure HeapPage where
  generation : Nat
  cells : List HeapTuple
deriving DecidableEq

/-- The placement policy: the lane of a row and the shard of a relation. -/
structure Placement where
  lanes : Nat
  rowLane : Nat → Nat
  relationLane : Nat → Nat
  rowLane_lt : ∀ row, rowLane row < lanes
  relationLane_lt : ∀ rel, relationLane rel < lanes

/-- An append under way: on `page` with the lane's lock held, the tuple on the page, the row's head
set. -/
inductive AppendCall
  | chosen (key : RowKey) (deleted : Bool) (lane page : Nat) (needsReinit : Bool)
  | appended (key : RowKey) (ptr : TuplePtr)
  | headSet (key : RowKey) (ptr : TuplePtr)
deriving DecidableEq

namespace AppendCall

def key : AppendCall → RowKey
  | chosen key .. | appended key _ | headSet key _ => key

def page : AppendCall → Nat
  | chosen _ _ _ page _ => page
  | appended _ ptr | headSet _ ptr => ptr.pageId

def lane? : AppendCall → Option Nat
  | chosen _ _ lane _ _ => some lane
  | _ => none

def ptr? : AppendCall → Option TuplePtr
  | appended _ ptr | headSet _ ptr => some ptr
  | _ => none

def Clashes (c c' : AppendCall) : Prop := c.key = c'.key ∨ ∃ lane, c.lane? = some lane ∧
    c'.lane? = some lane

end AppendCall

/-- A vacuum of one row: the head is removed from the directory of the relation and not yet from the
row directory; or the page is looked at, with the shards still to be searched and then the lanes
still to be cleared. -/
inductive VacuumCall
  | removed (key : RowKey) (ptr : TuplePtr)
  | checking (page : Nat) (shards lanes : List Nat)
deriving DecidableEq

namespace VacuumCall

def checked? : VacuumCall → Option Nat
  | checking page _ _ => some page
  | removed _ _ => none

def removedPage? : VacuumCall → Option Nat
  | removed _ ptr => some ptr.pageId
  | checking .. => none

end VacuumCall

structure Heap where
  pages : Nat → HeapPage
  nextPageId : Nat
  lanes : Nat → Option Nat
  rowDir : Nat → Option TuplePtr
  relationRowDir : AList (fun _ : RowKey => TuplePtr)
  reusable : List Nat
  appends : AList (fun _ : Nat => AppendCall)
  vacuums : AList (fun _ : Nat => VacuumCall)

inductive Act
  /-- `append_tuple` up to the page of its lane. -/
  | append (call : Nat) (key : RowKey) (deleted : Bool)
  /-- The round of `append_cell` on the page; `full` is the answer of a page that was in use. -/
  | insert (call : Nat) (full : Bool)
  | setHead (call : Nat)
  | setRelationHead (call : Nat)
  | removeRelationHead (call : Nat) (key : RowKey)
  | removeHead (call : Nat)
  /-- The undo chain of a head was pruned. -/
  | pruned (call : Nat) (key : RowKey)
  | scanShard (call : Nat)
  | clearLane (call : Nat)
  | markReusable (call : Nat)
deriving DecidableEq

namespace Heap

def new : Heap where
  pages := fun _ => ⟨0, []⟩
  nextPageId := 1
  lanes := fun _ => none
  rowDir := fun _ => none
  relationRowDir := ∅
  reusable := []
  appends := ∅
  vacuums := ∅

variable (P : Placement) (h : Heap)

def setAppend (call : Nat) (c : AppendCall) : Heap := { h with appends := h.appends.insert call c }

def setVacuum (call : Nat) (c : VacuumCall) : Heap := { h with vacuums := h.vacuums.insert call c }

def setLane (lane : Nat) (page : Option Nat) : Heap := { h with lanes := update h.lanes lane page }

def LaneFree (lane : Nat) : Prop := ∀ e ∈ h.appends.entries, e.2.lane? ≠ some lane

instance (lane : Nat) : Decidable (h.LaneFree lane) := inferInstanceAs (Decidable (∀ e ∈ _, _))

def nextAppendPage : Nat × Heap :=
  match h.reusable.getLast? with
  | some page => (page, { h with reusable := h.reusable.dropLast })
  | none =>
    (h.nextPageId, { h with
      nextPageId := h.nextPageId + 1
      pages := update h.pages h.nextPageId ⟨1, []⟩ })

def choosePage (call : Nat) (key : RowKey) (deleted : Bool) (lane : Nat) : Heap :=
  let (page, h) := h.nextAppendPage
  (h.setLane lane (some page)).setAppend call (.chosen key deleted lane page true)

def append (call : Nat) (key : RowKey) (deleted : Bool) : Except Error Heap := do
  let lane := P.rowLane key.2
  require (h.appends.lookup call = none ∧ h.LaneFree lane) .lockTimeout
  match h.lanes lane with
  | some page => return h.setAppend call (.chosen key deleted lane page false)
  | none => return h.choosePage call key deleted lane

def HeapPage.insertTuple (p : HeapPage) (needsReinit : Bool) (t : HeapTuple) : HeapPage :=
  if needsReinit then ⟨p.generation + 1, [t]⟩ else { p with cells := p.cells ++ [t] }

def insert (call : Nat) (full : Bool) : Except Error Heap :=
  match h.appends.lookup call with
  | some (.chosen key deleted lane page needsReinit) =>
    if !needsReinit && full then .ok (h.choosePage call key deleted lane)
    else
      let p := HeapPage.insertTuple (h.pages page) needsReinit ⟨key, deleted⟩
      .ok ({ h with pages := update h.pages page p }.setAppend call
        (.appended key ⟨page, p.cells.length - 1, p.generation⟩))
  | _ => .error .writeConflict

def setHead (call : Nat) : Except Error Heap :=
  match h.appends.lookup call with
  | some (.appended key ptr) =>
    .ok ({ h with rowDir := update h.rowDir key.2 (some ptr) }.setAppend call (.headSet key ptr))
  | _ => .error .writeConflict

def setRelationHead (call : Nat) : Except Error Heap :=
  match h.appends.lookup call with
  | some (.headSet key ptr) =>
    .ok { h with
      relationRowDir := h.relationRowDir.insert key ptr, appends := h.appends.erase call }
  | _ => .error .writeConflict

def readTuple (ptr : TuplePtr) : Option HeapTuple :=
  if (h.pages ptr.pageId).generation = ptr.generation then (h.pages ptr.pageId).cells[ptr.slot]?
    else none

def removeRelationHead (call : Nat) (key : RowKey) : Except Error Heap :=
  match h.vacuums.lookup call, h.relationRowDir.lookup key with
  | none, some ptr => do
    require ((h.readTuple ptr).any (·.deleted)) .notVisible
    return { h with relationRowDir := h.relationRowDir.erase key }.setVacuum call (.removed key ptr)
  | _, _ => .error .notVisible

def startCheck (call page : Nat) : Heap :=
  h.setVacuum call (.checking page (List.range P.lanes) (List.range P.lanes))

def removeHead (call : Nat) : Except Error Heap :=
  match h.vacuums.lookup call with
  | some (.removed key ptr) =>
    let rowDir := if h.rowDir key.2 = some ptr then update h.rowDir key.2 none else h.rowDir
    .ok (startCheck P { h with rowDir } call ptr.pageId)
  | _ => .error .notVisible

def pruned (call : Nat) (key : RowKey) : Except Error Heap :=
  match h.vacuums.lookup call, h.relationRowDir.lookup key with
  | none, some ptr => .ok (startCheck P h call ptr.pageId)
  | _, _ => .error .notVisible

def scanShard (call : Nat) : Except Error Heap :=
  match h.vacuums.lookup call with
  | some (.checking page (shard :: shards) lanes) =>
    if ∃ e ∈ h.relationRowDir.entries, P.relationLane e.1.1 = shard ∧ e.2.pageId = page then
      .ok { h with vacuums := h.vacuums.erase call }
    else .ok (h.setVacuum call (.checking page shards lanes))
  | _ => .error .notVisible

def clearLane (call : Nat) : Except Error Heap :=
  match h.vacuums.lookup call with
  | some (.checking page [] (lane :: lanes)) => do
    require (h.LaneFree lane) .lockTimeout
    return (if h.lanes lane = some page then h.setLane lane none else h).setVacuum call
      (.checking page [] lanes)
  | _ => .error .notVisible

def markReusable (call : Nat) : Except Error Heap :=
  match h.vacuums.lookup call with
  | some (.checking page [] []) =>
    .ok { h with
      reusable := if page ∈ h.reusable then h.reusable else h.reusable ++ [page]
      vacuums := h.vacuums.erase call }
  | _ => .error .notVisible

def step : Act → Except Error Heap
  | .append call key deleted => h.append P call key deleted
  | .insert call full => h.insert call full
  | .setHead call => h.setHead call
  | .setRelationHead call => h.setRelationHead call
  | .removeRelationHead call key => h.removeRelationHead call key
  | .removeHead call => h.removeHead P call
  | .pruned call key => h.pruned P call key
  | .scanShard call => h.scanShard P call
  | .clearLane call => h.clearLane call
  | .markReusable call => h.markReusable call

/-! ### When appends and vacuum keep apart -/

def Checked (page : Nat) : Prop := ∃ e ∈ h.vacuums.entries, e.2.checked? = some page

instance (page : Nat) : Decidable (h.Checked page) := inferInstanceAs (Decidable (∃ e ∈ _, _))

/-- Vacuum may look at the page: no append to it is under way, and no head on it is removed from one
directory only. -/
def Quiet (call page : Nat) : Prop :=
  (∀ e ∈ h.appends.entries, e.2.page ≠ page) ∧
    ∀ e ∈ h.vacuums.entries, e.1 ≠ call → e.2.removedPage? ≠ some page

instance (call page : Nat) : Decidable (h.Quiet call page) := inferInstanceAs (Decidable (_ ∧ _))

/-- The appends to a page, from its choice to the row's head, and vacuum's look at the page, up to
the list of reusable pages, exclude each other; so do that look and the removal of a head on the
page. A row has one append at a time. -/
def Apart : Act → Prop
  | .append _ key _ => (∀ e ∈ h.appends.entries, e.2.key ≠ key) ∧
      ¬ h.Checked ((h.lanes (P.rowLane key.2)).getD h.nextAppendPage.1)
  | .insert call full =>
    match h.appends.lookup call with
    | some (.chosen _ _ _ _ false) => full = true → ¬ h.Checked h.nextAppendPage.1
    | _ => True
  | .removeRelationHead _ key =>
    match h.relationRowDir.lookup key with
    | some ptr => ¬ h.Checked ptr.pageId
    | none => True
  | .removeHead call =>
    match h.vacuums.lookup call with
    | some (.removed _ ptr) => h.Quiet call ptr.pageId
    | _ => True
  | .pruned call key =>
    match h.relationRowDir.lookup key with
    | some ptr => h.Quiet call ptr.pageId
    | none => True
  | _ => True

instance (a : Act) : Decidable (h.Apart P a) := by
  unfold Apart
  repeat' split
  all_goals infer_instance

/-! ### What refers to a page -/

variable {P h} {h' : Heap} {key : RowKey} {ptr : TuplePtr} {page call : Nat}

inductive Ref (h : Heap) (key : RowKey) (ptr : TuplePtr) : Prop
  | head (hh : h.relationRowDir.lookup key = some ptr)
  | flight {t : Nat} {c : AppendCall} (ht : h.appends.lookup t = some c) (hk : c.key = key)
      (hp : c.ptr? = some ptr)
  | removed {v : Nat} (hv : h.vacuums.lookup v = some (.removed key ptr))

def Leads (h : Heap) (key : RowKey) (ptr : TuplePtr) : Prop :=
  ∃ deleted, h.readTuple ptr = some ⟨key, deleted⟩

theorem Leads.congr (hpage : h'.pages ptr.pageId = h.pages ptr.pageId) (hl : h.Leads key ptr) :
    h'.Leads key ptr := by
  simpa only [Leads, readTuple, hpage] using hl

theorem Leads.push {t : HeapTuple} (hpage : h'.pages ptr.pageId =
    HeapPage.insertTuple (h.pages ptr.pageId) false t) (hl : h.Leads key ptr) :
      h'.Leads key ptr := by
  obtain ⟨deleted, hr⟩ := hl
  refine ⟨deleted, ?_⟩
  simp only [readTuple] at hr
  split at hr
  · next hg =>
    have hlt : ptr.slot < (h.pages ptr.pageId).cells.length := by
      rw [getElem?_eq_some_iff] at hr
      exact hr.1
    simp only [readTuple, hpage, HeapPage.insertTuple, Bool.false_eq_true, if_false, hg, if_true]
    rw [getElem?_append_left hlt]
    exact hr
  · cases hr

/-- The head of a row belongs to one of the relations that have the row: it is that relation's head,
or about to be, or half removed. -/
def RowRef (h : Heap) (row : Nat) (ptr : TuplePtr) : Prop :=
  ∃ rel, (h.relationRowDir.lookup (rel, row) = some ptr ∧
    ∀ t p, h.appends.lookup t ≠ some (.headSet (rel, row) p)) ∨
    (∃ t, h.appends.lookup t = some (.headSet (rel, row) ptr)) ∨
    ∃ v, h.vacuums.lookup v = some (.removed (rel, row) ptr)

structure Checking (P : Placement) (h : Heap) (page : Nat) (shards lanes : List Nat) : Prop where
  lt : page < h.nextPageId
  appends : ∀ t c, h.appends.lookup t = some c → c.page ≠ page
  removed : ∀ v key ptr, h.vacuums.lookup v = some (.removed key ptr) → ptr.pageId ≠ page
  heads : ∀ key ptr, h.relationRowDir.lookup key = some ptr → ptr.pageId = page →
    P.relationLane key.1 ∈ shards
  cleared : ∀ i, h.lanes i = some page → i ∈ lanes

structure Inv (P : Placement) (h : Heap) : Prop where
  ref : ∀ key ptr, Ref h key ptr → h.Leads key ptr ∧ ptr.pageId < h.nextPageId ∧
    ptr.pageId ∉ h.reusable
  lane : ∀ i page, h.lanes i = some page → i < P.lanes ∧ page < h.nextPageId ∧ page ∉ h.reusable
  oneLane : ∀ i j page, h.lanes i = some page → h.lanes j = some page → i = j
  chosen : ∀ t key deleted lane page re,
    h.appends.lookup t = some (.chosen key deleted lane page re) →
    h.lanes lane = some page ∧ (re = true → ∀ key ptr, Ref h key ptr → ptr.pageId ≠ page)
  apart : ∀ t t' c c', h.appends.lookup t = some c → h.appends.lookup t' = some c' →
    c.Clashes c' → t = t'
  reusable : h.reusable.Nodup ∧ ∀ page ∈ h.reusable, page < h.nextPageId
  check : ∀ v page shards lanes, h.vacuums.lookup v = some (.checking page shards lanes) →
    Checking P h page shards lanes
  rowDir : ∀ row ptr, h.rowDir row = some ptr → h.RowRef row ptr

theorem not_ref_new : ¬ Ref new key ptr := by
  rintro (hh | ⟨ht, -, -⟩ | hv)
  · simp [new] at hh
  · simp [new] at ht
  · simp [new] at hv

theorem inv_new : Inv P new where
  ref := fun _ _ hr => absurd hr not_ref_new
  lane := by simp [new]
  oneLane := by simp [new]
  chosen := by simp [new]
  apart := by simp [new]
  reusable := by simp [new]
  check := by simp [new]
  rowDir := by simp [new]

variable {lane row : Nat} {deleted re : Bool}

theorem laneFree_iff : h.LaneFree lane ↔ ∀ t c, h.appends.lookup t = some c → c.lane? ≠ some lane :=
  forall_entries_iff (p := fun _ c => AppendCall.lane? c ≠ some lane)

variable {shards lanes : List Nat}

theorem Checked.intro (hv : h.vacuums.lookup call = some (.checking page shards lanes)) :
    h.Checked page :=
  ⟨⟨call, _⟩, AList.mem_lookup_iff.1 hv, rfl⟩

theorem quiet_iff : h.Quiet call page ↔ (∀ t c, h.appends.lookup t = some c → c.page ≠ page) ∧
    ∀ v key ptr, v ≠ call → h.vacuums.lookup v = some (.removed key ptr) → ptr.pageId ≠ page := by
  unfold Quiet
  rw [forall_entries_iff (p := fun _ c => AppendCall.page c ≠ page),
    forall_entries_iff (p := fun v c => v ≠ call → VacuumCall.removedPage? c ≠ some page)]
  refine and_congr Iff.rfl ⟨fun hq v key ptr hv hl hp => ?_, fun hq v c hl hv hp => ?_⟩
  · exact hq v _ hl hv (by simp [VacuumCall.removedPage?, hp])
  · cases c with
    | removed key ptr => exact hq v key ptr hv hl (by simpa [VacuumCall.removedPage?] using hp)
    | checking => simp [VacuumCall.removedPage?] at hp

theorem Inv.ref_mono (hI : Inv P h) (href : ∀ key ptr, Ref h' key ptr → Ref h key ptr)
    (hpages : ∀ page < h.nextPageId, h'.pages page = h.pages page)
    (hnext : h.nextPageId ≤ h'.nextPageId)
    (hlist : ∀ page ∈ h'.reusable, page ∈ h.reusable) (key : RowKey) (ptr : TuplePtr)
    (hr : Ref h' key ptr) :
    h'.Leads key ptr ∧ ptr.pageId < h'.nextPageId ∧ ptr.pageId ∉ h'.reusable := by
  obtain ⟨hl, hlt, hout⟩ := hI.ref key ptr (href key ptr hr)
  exact ⟨hl.congr (hpages _ hlt), by omega, fun hin => hout (hlist _ hin)⟩

theorem lookup_setVacuum {c c' : VacuumCall} {v : Nat} :
    (h.setVacuum call c).vacuums.lookup v = some c' ↔
    (v = call ∧ c' = c) ∨ (v ≠ call ∧ h.vacuums.lookup v = some c') := lookup_insert_eq_some

variable {c : AppendCall}

theorem Ref.of_insert (hr : Ref h' key ptr) (happ : h'.appends = h.appends.insert call c)
    (hrel : h'.relationRowDir = h.relationRowDir) (hvac : h'.vacuums = h.vacuums) :
    Ref h key ptr ∨ (c.key = key ∧ c.ptr? = some ptr) := by
  rcases hr with hh | ⟨ht, hk, hp⟩ | hv
  · exact .inl (.head (hrel ▸ hh))
  · rw [happ] at ht
    rcases lookup_insert_eq_some.1 ht with ⟨-, rfl⟩ | ⟨-, ht⟩
    · exact .inr ⟨hk, hp⟩
    · exact .inl (.flight ht hk hp)
  · exact .inl (.removed (hvac ▸ hv))

theorem RowRef.of_insert (hr : h.RowRef row ptr) (happ : h'.appends = h.appends.insert call c)
    (hrel : h'.relationRowDir = h.relationRowDir) (hvac : h'.vacuums = h.vacuums)
    (hcall : ∀ key ptr, h.appends.lookup call ≠ some (.headSet key ptr))
    (hc : ∀ rel q, c ≠ .headSet (rel, row) q) :
    h'.RowRef row ptr := by
  rw [RowRef, hrel, hvac, happ]
  obtain ⟨rel, ⟨hh, hno⟩ | ⟨t, ht⟩ | hv⟩ := hr
  · refine ⟨rel, .inl ⟨hh, fun t q ht => ?_⟩⟩
    rcases lookup_insert_eq_some.1 ht with ⟨-, heq⟩ | ⟨-, ht⟩
    · exact hc rel q heq.symm
    · exact hno t q ht
  · refine ⟨rel, .inr (.inl ⟨t, lookup_insert_eq_some.2 (.inr ⟨?_, ht⟩)⟩)⟩
    rintro rfl
    exact hcall _ _ ht
  · exact ⟨rel, .inr (.inr hv)⟩

section
variable (hI : Inv P h)
include hI

theorem Inv.apart_insert (hfree : ∀ t d, t ≠ call → h.appends.lookup t = some d → ¬ c.Clashes d)
    (t t' : Nat) (d d' : AppendCall) (ht : (h.appends.insert call c).lookup t = some d)
    (ht' : (h.appends.insert call c).lookup t' = some d') (hc : d.Clashes d') : t = t' := by
  rcases lookup_insert_eq_some.1 ht with ⟨h1, rfl⟩ | ⟨h1, h2⟩ <;>
    rcases lookup_insert_eq_some.1 ht' with ⟨h1', rfl⟩ | ⟨h1', h2'⟩
  · rw [h1, h1']
  · exact absurd hc (hfree t' d' h1' h2')
  · exact absurd (hc.imp Eq.symm fun ⟨l, hl, hl'⟩ => ⟨l, hl', hl⟩) (hfree t d h1 h2)
  · exact hI.apart t t' d d' h2 h2' hc

/-- An append begins on `page` or goes on to it, with the lock of the lane; the page may have come
from the list, and vacuum does not look at it. -/
theorem Inv.choose {pages : Nat → HeapPage} {next : Nat} {list : List Nat}
    (hnext : h.nextPageId ≤ next)
    (hpages : ∀ p < h.nextPageId, pages p = h.pages p) (hlist : ∀ p ∈ list, p ∈ h.reusable)
    (hnodup : list.Nodup)
    (hpage : lane < P.lanes ∧ page < next ∧ page ∉ list)
    (hother : ∀ i, i ≠ lane → h.lanes i ≠ some page)
    (hcall : ∀ key ptr, h.appends.lookup call ≠ some (.headSet key ptr))
    (hfree : ∀ t c, t ≠ call → h.appends.lookup t = some c →
      ¬ (AppendCall.chosen key deleted lane page re).Clashes c)
    (hcheck : ¬ h.Checked page) (hre : re = true → ∀ key ptr, Ref h key ptr → ptr.pageId ≠ page) :
    Inv P (({ h with pages, nextPageId := next, reusable := list }.setLane lane
      (some page)).setAppend call
      (.chosen key deleted lane page re)) := by
  have href : ∀ key' ptr,
      Ref (({ h with pages, nextPageId := next, reusable := list }.setLane lane
      (some page)).setAppend
      call (.chosen key deleted lane page re)) key' ptr → Ref h key' ptr := by
    intro key' ptr hr
    rcases hr.of_insert (h := h) rfl rfl rfl with hr | ⟨-, hp⟩
    · exact hr
    · cases hp
  have hlane : ∀ {i p}, update h.lanes lane (some page) i = some p →
      (i = lane ∧ p = page) ∨ (i ≠ lane ∧ h.lanes i = some p) := by
    intro i p hi
    by_cases heq : i = lane
    · rw [heq, update_self, Option.some.injEq] at hi
      exact .inl ⟨heq, hi.symm⟩
    · rw [update_of_ne heq] at hi
      exact .inr ⟨heq, hi⟩
  refine ⟨hI.ref_mono href hpages hnext hlist, ?_, ?_, ?_, hI.apart_insert hfree,
    ⟨hnodup, ?_⟩, ?_, ?_⟩
  · intro i p hi
    rcases hlane hi with ⟨rfl, rfl⟩ | ⟨-, hi⟩
    · exact hpage
    · obtain ⟨h1, h2, h3⟩ := hI.lane i p hi
      exact ⟨h1, lt_of_lt_of_le h2 hnext, fun hin => h3 (hlist p hin)⟩
  · intro i j p hi hj
    rcases hlane hi with ⟨h1, h2⟩ | ⟨h1, h2⟩ <;> rcases hlane hj with ⟨h1', h2'⟩ | ⟨h1', h2'⟩
    · rw [h1, h1']
    · exact absurd (h2 ▸ h2') (hother j h1')
    · exact absurd (h2' ▸ h2) (hother i h1)
    · exact hI.oneLane i j p h2 h2'
  · intro t key' deleted' lane' page' re' ht
    rcases lookup_insert_eq_some.1 ht with ⟨-, heq⟩ | ⟨hne, ht⟩
    · cases heq
      exact ⟨update_self _ _ _, fun h1 k p hr => hre h1 k p (href k p hr)⟩
    · obtain ⟨hl, hre'⟩ := hI.chosen t _ _ _ _ _ ht
      have hne' : lane' ≠ lane := fun heq => hfree t _ hne ht (.inr ⟨lane, rfl, by rw [← heq]; rfl⟩)
      exact ⟨(update_of_ne hne' _ _).trans hl, fun h1 k p hr => hre' h1 k p (href k p hr)⟩
  · intro p hp
    exact lt_of_lt_of_le (hI.reusable.2 p (hlist p hp)) hnext
  · intro v p shards lanes hv
    obtain ⟨h1, h2, h3, h4, h5⟩ := hI.check v p shards lanes hv
    have hne : page ≠ p := by
      rintro rfl
      exact hcheck (.intro hv)
    refine ⟨lt_of_lt_of_le h1 hnext, ?_, h3, h4, ?_⟩
    · intro t c ht
      rcases lookup_insert_eq_some.1 ht with ⟨-, rfl⟩ | ⟨-, ht⟩
      · exact hne
      · exact h2 t c ht
    · intro i hi
      rcases hlane hi with ⟨-, heq⟩ | ⟨-, hi⟩
      · exact absurd heq.symm hne
      · exact h5 i hi
  · intro row ptr hptr
    exact (hI.rowDir row ptr hptr).of_insert rfl rfl rfl hcall (by simp)

theorem nextAppendPage_spec : ∃ page pages next list,
    h.nextAppendPage = (page, { h with pages, nextPageId := next, reusable := list }) ∧
    (page ∈ h.reusable ∨ page = h.nextPageId) ∧ page < next ∧ page ∉ list ∧ h.nextPageId ≤ next ∧
    (∀ p < h.nextPageId, pages p = h.pages p) ∧ (∀ p ∈ list, p ∈ h.reusable) ∧ list.Nodup := by
  unfold nextAppendPage
  cases hr : h.reusable.getLast? with
  | some page =>
    obtain ⟨rest, hrest⟩ := getLast?_eq_some_iff.1 hr
    have hdrop : h.reusable.dropLast = rest := by rw [hrest, dropLast_concat]
    obtain ⟨hnodup, hlt⟩ := hI.reusable
    rw [hrest] at hnodup hlt
    obtain ⟨hrestNodup, -, hdisj⟩ := nodup_append.1 hnodup
    refine ⟨page, _, _, _, rfl, .inl (by simp [hrest]), hlt page (by simp), ?_, le_rfl,
      fun _ _ => rfl, ?_, ?_⟩
    · rw [hdrop]
      intro hin
      exact hdisj page hin page (by simp) rfl
    · rw [hdrop, hrest]
      exact fun p hp => mem_append_left _ hp
    · rw [hdrop]
      exact hrestNodup
  | none =>
    have hnil : h.reusable = [] := getLast?_eq_none_iff.1 hr
    refine ⟨h.nextPageId, _, _, _, rfl, .inr rfl, Nat.lt_succ_self _, by simp [hnil], Nat.le_succ _,
      fun p hp => ?_,
      fun p hp => hp, by simp [hnil]⟩
    exact update_of_ne (by omega) _ _

theorem Inv.unused (hpage : page ∈ h.reusable ∨ page = h.nextPageId) :
    (∀ key ptr, Ref h key ptr → ptr.pageId ≠ page) ∧ ∀ i, h.lanes i ≠ some page := by
  constructor
  · intro key ptr hr heq
    obtain ⟨-, hlt, hout⟩ := hI.ref key ptr hr
    rcases hpage with hin | rfl
    · exact hout (heq ▸ hin)
    · omega
  · intro i hi
    obtain ⟨-, hlt, hout⟩ := hI.lane i page hi
    rcases hpage with hin | rfl
    · exact hout hin
    · omega

theorem Inv.choosePage (hlt : lane < P.lanes)
    (hcall : ∀ key ptr, h.appends.lookup call ≠ some (.headSet key ptr))
    (hfree : ∀ page re t c, t ≠ call → h.appends.lookup t = some c →
      ¬ (AppendCall.chosen key deleted lane page re).Clashes c)
        (hcheck : ¬ h.Checked h.nextAppendPage.1) : Inv P (h.choosePage call key deleted lane) := by
  obtain ⟨page, pages, next, list, hnext, hpage, hlt', hout, hgrow, hpages, hlist, hnodup⟩ :=
    nextAppendPage_spec hI
  obtain ⟨hnoRef, hnoLane⟩ := hI.unused hpage
  simp only [Heap.choosePage, hnext] at hcheck ⊢
  exact hI.choose hgrow hpages hlist hnodup ⟨hlt, hlt', hout⟩ (fun i _ => hnoLane i) hcall
    (hfree _ _) hcheck
    fun _ => hnoRef

theorem Inv.append (hapart : h.Apart P (.append call key deleted))
    (hs : h.append P call key deleted = .ok h') : Inv P h' := by
  obtain ⟨hkey, hcheck⟩ := hapart
  rw [forall_entries_iff (p := fun _ c => AppendCall.key c ≠ key)] at hkey
  simp only [Heap.append, bind_eq_ok, require_eq_ok] at hs
  obtain ⟨-, ⟨hcall, hfree⟩, hs⟩ := hs
  rw [laneFree_iff] at hfree
  have hnone : ∀ key ptr, h.appends.lookup call ≠ some (.headSet key ptr) := by simp [hcall]
  have hboth : ∀ page re t c, t ≠ call → h.appends.lookup t = some c →
      ¬ (AppendCall.chosen key deleted (P.rowLane key.2) page re).Clashes c := by
    rintro page re t c - ht (hk | ⟨l, ⟨⟩, hl⟩)
    · exact hkey t c ht hk.symm
    · exact hfree t c ht hl
  cases hlane : h.lanes (P.rowLane key.2) with
  | some page =>
    simp only [hlane, pure_eq_ok, Option.getD_some] at hs hcheck
    subst hs
    have hsame : h.setLane (P.rowLane key.2) (some page) = h := by
      rw [← hlane, setLane, update_eq_self]
    have hI' := hI.choose le_rfl (fun _ _ => rfl) (fun _ hp => hp) hI.reusable.1 (hI.lane _ _ hlane)
      (fun i hi hp => hi (hI.oneLane i _ page hp hlane)) hnone (hboth page false) hcheck (by simp)
    rwa [hsame] at hI'
  | none =>
    simp only [hlane, pure_eq_ok, Option.getD_none] at hs hcheck
    subst hs
    exact hI.choosePage (P.rowLane_lt _) hnone hboth hcheck

omit hI in
theorem getElem?_insertTuple {p : HeapPage} {t : HeapTuple} :
    (HeapPage.insertTuple p re t).cells[(HeapPage.insertTuple p re t).cells.length - 1]? =
    some t := by
  unfold HeapPage.insertTuple
  split <;> simp

/-- An append goes on from `c` to `c'` on its page and gives its lock back. What the directories say
is left to the caller. -/
theorem Inv.advance {c c' : AppendCall} {pages : Nat → HeapPage} {rowDir : Nat → Option TuplePtr}
    (hcall : h.appends.lookup call = some c) (hh' : h' = { h with pages, rowDir }.setAppend call c')
    (hkey : c'.key = c.key) (hpage : c'.page = c.page) (hlane : c'.lane? = none)
    (href : ∀ key ptr, Ref h' key ptr → h'.Leads key ptr ∧ ptr.pageId < h.nextPageId ∧
      ptr.pageId ∉ h.reusable)
    (hre : ∀ t key deleted lane page, t ≠ call →
      h.appends.lookup t = some (.chosen key deleted lane page true) →
      ∀ key ptr, Ref h' key ptr → ptr.pageId ≠ page)
    (hrow : ∀ row ptr, h'.rowDir row = some ptr → h'.RowRef row ptr) : Inv P h' := by
  subst hh'
  refine ⟨href, hI.lane, hI.oneLane, ?_, hI.apart_insert ?_, hI.reusable, ?_, hrow⟩
  · intro t key deleted lane page re ht
    rcases lookup_insert_eq_some.1 ht with ⟨-, rfl⟩ | ⟨hne, ht⟩
    · cases hlane
    · refine ⟨(hI.chosen t _ _ _ _ _ ht).1, ?_⟩
      rintro rfl
      exact hre t _ _ _ _ hne ht
  · rintro t d hne ht (hk | ⟨l, hl, -⟩)
    · exact hne (hI.apart t call d c ht hcall (.inl (hkey ▸ hk).symm))
    · rw [hlane] at hl
      cases hl
  · intro v q shards lanes hv
    obtain ⟨h1, h2, h3, h4, h5⟩ := hI.check v q shards lanes hv
    refine ⟨h1, fun t d ht => ?_, h3, h4, h5⟩
    rcases lookup_insert_eq_some.1 ht with ⟨-, rfl⟩ | ⟨-, ht⟩
    · rw [hpage]
      exact h2 call c hcall
    · exact h2 t d ht

theorem Inv.insertTuple {p : HeapPage}
    (hcall : h.appends.lookup call = some (.chosen key deleted lane page re))
    (hp : HeapPage.insertTuple (h.pages page) re ⟨key, deleted⟩ = p) :
    Inv P ({ h with pages := update h.pages page p }.setAppend call
      (.appended key ⟨page, p.cells.length - 1, p.generation⟩)) := by
  obtain ⟨hlane, hre⟩ := hI.chosen _ _ _ _ _ _ hcall
  obtain ⟨-, hpage, hout⟩ := hI.lane lane page hlane
  have href : ∀ key' ptr', Ref ({ h with pages := update h.pages page p }.setAppend call
      (.appended key ⟨page, p.cells.length - 1, p.generation⟩)) key' ptr' →
      Ref h key' ptr' ∨ (key' = key ∧ ptr' = ⟨page, p.cells.length - 1, p.generation⟩) := by
    intro key' ptr' hr
    rcases hr.of_insert (h := h) rfl rfl rfl with hr | ⟨hk, hp'⟩
    · exact .inl hr
    · exact .inr ⟨hk.symm, (Option.some.inj hp').symm⟩
  refine hI.advance hcall rfl rfl rfl rfl ?_ ?_ ?_
  · intro key' ptr' hr
    rcases href _ _ hr with hr | ⟨rfl, rfl⟩
    · obtain ⟨hl, h2, h3⟩ := hI.ref _ _ hr
      refine ⟨?_, h2, h3⟩
      by_cases hq : ptr'.pageId = page
      · -- the page was in use, so it has only grown
        have hfalse : re = false := by
          cases re with
          | false => rfl
          | true => exact absurd hq (hre rfl _ _ hr)
        refine hl.push (t := ⟨key, deleted⟩) ?_
        rw [hq, ← hfalse, hp]
        exact update_self _ _ _
      · exact hl.congr (update_of_ne hq _ _)
    · refine ⟨⟨deleted, ?_⟩, hpage, hout⟩
      simp only [readTuple, setAppend, update_self, if_true, ← hp]
      exact getElem?_insertTuple
  · intro t key' deleted' lane' page' hne ht k q hr
    obtain ⟨hl, hre'⟩ := hI.chosen t _ _ _ _ _ ht
    rcases href _ _ hr with hr | ⟨-, rfl⟩
    · exact hre' rfl k q hr
    · -- the page of another lane
      rintro rfl
      obtain rfl := hI.oneLane _ _ _ hl hlane
      exact hne (hI.apart t call _ _ ht hcall (.inr ⟨lane', rfl, rfl⟩))
  · intro row q hq
    exact (hI.rowDir row q hq).of_insert rfl rfl rfl (by simp [hcall]) (by simp)

theorem Inv.insert {full : Bool} (hapart : h.Apart P (.insert call full))
    (hs : h.insert call full = .ok h') :
    Inv P h' := by
  unfold Heap.insert at hs
  split at hs
  · next key deleted lane page re hcall =>
    split at hs
    · -- the page is full, the lane takes another one
      next hfull =>
      cases hs
      obtain ⟨rfl, rfl⟩ : re = false ∧ full = true := by simpa using hfull
      simp only [Apart, hcall] at hapart
      refine hI.choosePage (hI.lane lane page (hI.chosen _ _ _ _ _ _ hcall).1).1
        (by simp [hcall]) ?_ (hapart trivial)
      exact fun _ _ t c hne ht hc => hne (hI.apart call t _ c hcall ht hc).symm
    · cases hs
      exact hI.insertTuple hcall rfl
  · cases hs

theorem Inv.setHead (hs : h.setHead call = .ok h') : Inv P h' := by
  unfold Heap.setHead at hs
  split at hs
  · next key ptr hcall =>
    cases hs
    have href : ∀ key' ptr',
        Ref ({ h with rowDir := update h.rowDir key.2 (some ptr) }.setAppend call
        (.headSet key ptr))
        key' ptr' → Ref h key' ptr' := by
      intro key' ptr' hr
      rcases hr.of_insert (h := h) rfl rfl rfl with hr | ⟨rfl, hp⟩
      · exact hr
      · exact .flight hcall rfl hp
    refine hI.advance hcall rfl rfl rfl rfl
      (hI.ref_mono href (fun _ _ => rfl) le_rfl fun _ hq => hq) ?_ ?_
    · intro t key' deleted lane page _ ht k q hr
      exact (hI.chosen t _ _ _ _ _ ht).2 rfl k q (href k q hr)
    · intro row q hq
      by_cases hrow : row = key.2
      · subst hrow
        obtain rfl : ptr = q := by simpa [setAppend] using hq
        exact ⟨key.1, .inr (.inl ⟨call, lookup_insert_eq_some.2 (.inl ⟨rfl, rfl⟩)⟩)⟩
      · have hq : h.rowDir row = some q := by simpa [setAppend, update_of_ne hrow] using hq
        refine (hI.rowDir row q hq).of_insert rfl rfl rfl (by simp [hcall]) fun rel q' heq => ?_
        cases heq
        exact hrow rfl
  · cases hs

theorem Inv.setRelationHead (hs : h.setRelationHead call = .ok h') : Inv P h' := by
  unfold Heap.setRelationHead at hs
  split at hs
  · next key ptr hcall =>
    cases hs
    have hflight : Ref h key ptr := .flight hcall rfl rfl
    have href : ∀ key' ptr',
        Ref { h with
          relationRowDir := h.relationRowDir.insert key ptr, appends := h.appends.erase call }
          key' ptr' →
          Ref h key' ptr' := by
      rintro key' ptr' (hh | ⟨ht, hk, hp⟩ | hv)
      · rcases lookup_insert_eq_some.1 hh with ⟨rfl, rfl⟩ | ⟨-, hh⟩
        · exact hflight
        · exact .head hh
      · exact .flight (lookup_erase_eq_some.1 ht).2 hk hp
      · exact .removed hv
    refine ⟨hI.ref_mono href (fun _ _ => rfl) le_rfl (fun _ hp => hp), hI.lane, hI.oneLane, ?_, ?_,
      hI.reusable,
      ?_, ?_⟩
    · intro t key' deleted lane page re ht
      obtain ⟨hl, hre⟩ := hI.chosen t _ _ _ _ _ (lookup_erase_eq_some.1 ht).2
      exact ⟨hl, fun h1 k q hr => hre h1 k q (href k q hr)⟩
    · intro t t' c c' ht ht'
      exact hI.apart t t' c c' (lookup_erase_eq_some.1 ht).2 (lookup_erase_eq_some.1 ht').2
    · intro v q shards lanes hv
      obtain ⟨h1, h2, h3, h4, h5⟩ := hI.check v q shards lanes hv
      refine ⟨h1, fun t c ht => h2 t c (lookup_erase_eq_some.1 ht).2, h3,
        fun key' ptr' hh hq => ?_, h5⟩
      rcases lookup_insert_eq_some.1 hh with ⟨rfl, rfl⟩ | ⟨-, hh⟩
      · exact absurd hq (h2 call _ hcall)
      · exact h4 key' ptr' hh hq
    · intro row q hq
      obtain ⟨rel, ⟨hh, hno⟩ | ⟨t, ht⟩ | hv⟩ := hI.rowDir row q hq
      · refine ⟨rel, .inl ⟨lookup_insert_eq_some.2 (.inr ⟨?_, hh⟩), fun t q' ht => ?_⟩⟩
        · rintro rfl
          exact hno call ptr hcall
        · exact hno t q' (lookup_erase_eq_some.1 ht).2
      · by_cases htc : t = call
        · subst htc
          rw [hcall] at ht
          cases ht
          refine ⟨rel, .inl ⟨lookup_insert_eq_some.2 (.inl ⟨rfl, rfl⟩), fun t' q' ht' => ?_⟩⟩
          obtain ⟨hne, ht'⟩ := lookup_erase_eq_some.1 ht'
          exact hne (hI.apart t' t _ _ ht' hcall (.inl rfl))
        · exact ⟨rel, .inr (.inl ⟨t, lookup_erase_eq_some.2 ⟨htc, ht⟩⟩)⟩
      · exact ⟨rel, .inr (.inr hv)⟩
  · cases hs

/-- A step of vacuum: nothing is added but pages on the list, which no pointer and no lane refers
to. -/
theorem Inv.vacuum {relationRowDir : AList (fun _ : RowKey => TuplePtr)}
    {rowDir : Nat → Option TuplePtr}
    {vacuums : AList (fun _ : Nat => VacuumCall)} {lanes : Nat → Option Nat} {list : List Nat}
    (hh' : h' = { h with relationRowDir, rowDir, vacuums, lanes, reusable := list })
    (href : ∀ key ptr, Ref h' key ptr → Ref h key ptr)
    (hlane : ∀ i p, lanes i = some p → h.lanes i = some p)
    (hkept : ∀ t c lane, h.appends.lookup t = some c → c.lane? = some lane →
      lanes lane = h.lanes lane)
    (hnodup : list.Nodup) (hlist : ∀ p ∈ list, p ∈ h.reusable ∨
      p < h.nextPageId ∧ (∀ key ptr, Ref h' key ptr → ptr.pageId ≠ p) ∧ ∀ i, lanes i ≠ some p)
    (hcheck : ∀ v page shards lanes, h'.vacuums.lookup v = some (.checking page shards lanes) →
      Checking P h' page shards lanes)
    (hrow : ∀ row ptr, h'.rowDir row = some ptr → h'.RowRef row ptr) : Inv P h' := by
  subst hh'
  refine ⟨?_, ?_, ?_, ?_, hI.apart, ⟨hnodup, ?_⟩, hcheck, hrow⟩
  · intro key ptr hr
    obtain ⟨hl, hlt, hout⟩ := hI.ref key ptr (href key ptr hr)
    refine ⟨hl, hlt, fun hin => ?_⟩
    rcases hlist _ hin with hin | ⟨-, hno, -⟩
    · exact hout hin
    · exact hno key ptr hr rfl
  · intro i p hi
    obtain ⟨h1, h2, h3⟩ := hI.lane i p (hlane i p hi)
    refine ⟨h1, h2, fun hin => ?_⟩
    rcases hlist p hin with hin | ⟨-, -, hno⟩
    · exact h3 hin
    · exact hno i hi
  · intro i j p hi hj
    exact hI.oneLane i j p (hlane i p hi) (hlane j p hj)
  · intro t key deleted lane page re ht
    obtain ⟨hl, hre⟩ := hI.chosen t _ _ _ _ _ ht
    exact ⟨(hkept t _ lane ht rfl).trans hl, fun h1 k q hr => hre h1 k q (href k q hr)⟩
  · intro p hp
    rcases hlist p hp with hp | ⟨hp, -, -⟩
    · exact hI.reusable.2 p hp
    · exact hp

theorem Inv.removeRelationHead (hapart : h.Apart P (.removeRelationHead call key))
    (hs : h.removeRelationHead call key = .ok h') : Inv P h' := by
  unfold Heap.removeRelationHead at hs
  split at hs
  · next ptr hcall hhead =>
    obtain ⟨-, rfl⟩ := guarded_eq_ok.1 hs
    have hcheck : ¬ h.Checked ptr.pageId := by simpa only [Apart, hhead] using hapart
    have hfrom : ∀ {v c}, v ≠ call → h.vacuums.lookup v = some c →
        (({ h with relationRowDir := h.relationRowDir.erase key } : Heap).setVacuum call
          (.removed key ptr)).vacuums.lookup v =
          some c :=
      fun hne hv => lookup_insert_eq_some.2 (.inr ⟨hne, hv⟩)
    refine hI.vacuum rfl ?_ (fun _ _ hi => hi) (fun _ _ _ _ _ => rfl) hI.reusable.1
      (fun _ hp => .inl hp) ?_ ?_
    · rintro key' ptr' (hh | ⟨ht, hk, hp⟩ | hv)
      · exact .head (lookup_erase_eq_some.1 hh).2
      · exact .flight ht hk hp
      · rcases lookup_setVacuum.1 hv with ⟨-, heq⟩ | ⟨-, hv⟩
        · cases heq
          exact .head hhead
        · exact .removed hv
    · intro v q shards lanes hv
      rcases lookup_setVacuum.1 hv with ⟨-, heq⟩ | ⟨-, hv⟩
      · cases heq
      obtain ⟨h1, h2, h3, h4, h5⟩ := hI.check v q shards lanes hv
      refine ⟨h1, h2, fun v' key' ptr' hv' => ?_,
        fun key' ptr' hh => h4 key' ptr' (lookup_erase_eq_some.1 hh).2, h5⟩
      rcases lookup_setVacuum.1 hv' with ⟨-, heq⟩ | ⟨-, hv'⟩
      · cases heq
        rintro rfl
        exact hcheck (Checked.intro hv)
      · exact h3 v' key' ptr' hv'
    · intro row q hq
      obtain ⟨rel, ⟨hh, hno⟩ | ht | ⟨v, hv⟩⟩ := hI.rowDir row q hq
      · by_cases heq : (rel, row) = key
        · subst heq
          rw [hhead, Option.some.injEq] at hh
          exact ⟨rel, .inr (.inr ⟨call, lookup_insert_eq_some.2 (.inl ⟨rfl, by rw [hh]⟩)⟩)⟩
        · exact ⟨rel, .inl ⟨lookup_erase_eq_some.2 ⟨heq, hh⟩, hno⟩⟩
      · exact ⟨rel, .inr (.inl ht)⟩
      · refine ⟨rel, .inr (.inr ⟨v, hfrom ?_ hv⟩)⟩
        rintro rfl
        rw [hcall] at hv
        cases hv
  · cases hs

omit hI in
/-- Vacuum's own record moves on from something other than a half removed head, or its row is no
longer there. -/
theorem RowRef.mono (hr : h.RowRef row ptr) (happ : h'.appends = h.appends)
    (hrel : h'.relationRowDir = h.relationRowDir)
    (hvac : ∀ v rel, h.vacuums.lookup v = some (.removed (rel, row) ptr) →
      h'.vacuums.lookup v = some (.removed (rel, row) ptr)) : h'.RowRef row ptr := by
  rw [RowRef, happ, hrel]
  obtain ⟨rel, hh | ht | ⟨v, hv⟩⟩ := hr
  · exact ⟨rel, .inl hh⟩
  · exact ⟨rel, .inr (.inl ht)⟩
  · exact ⟨rel, .inr (.inr ⟨v, hvac v rel hv⟩)⟩

theorem Inv.startCheck {rowDir : Nat → Option TuplePtr} (hpage : page < h.nextPageId)
    (hquiet : h.Quiet call page)
    (hrow : ∀ row ptr, rowDir row = some ptr →
      (startCheck P { h with rowDir } call page).RowRef row ptr) :
    Inv P (startCheck P { h with rowDir } call page) := by
  obtain ⟨happ, hmoved⟩ := quiet_iff.1 hquiet
  refine hI.vacuum rfl ?_ (fun _ _ hi => hi) (fun _ _ _ _ _ => rfl) hI.reusable.1
    (fun _ hp => .inl hp) ?_ hrow
  · rintro key ptr (hh | ⟨ht, hk, hp⟩ | hv)
    · exact .head hh
    · exact .flight ht hk hp
    · rcases lookup_setVacuum.1 hv with ⟨-, heq⟩ | ⟨-, hv⟩
      · cases heq
      · exact .removed hv
  · intro v q shards lanes hv
    rcases lookup_setVacuum.1 hv with ⟨-, heq⟩ | ⟨-, hv⟩
    · cases heq
      refine ⟨hpage, happ, fun v' key ptr hv' => ?_,
        fun key _ _ _ => mem_range.2 (P.relationLane_lt key.1),
        fun i hi => mem_range.2 (hI.lane i _ hi).1⟩
      rcases lookup_setVacuum.1 hv' with ⟨-, heq⟩ | ⟨hne, hv'⟩
      · cases heq
      · exact hmoved v' key ptr hne hv'
    · obtain ⟨h1, h2, h3, h4, h5⟩ := hI.check v q shards lanes hv
      refine ⟨h1, h2, fun v' key ptr hv' => ?_, h4, h5⟩
      rcases lookup_setVacuum.1 hv' with ⟨-, heq⟩ | ⟨-, hv'⟩
      · cases heq
      · exact h3 v' key ptr hv'

theorem Inv.removeHead (hapart : h.Apart P (.removeHead call)) (hs : h.removeHead P call = .ok h') :
    Inv P h' := by
  unfold Heap.removeHead at hs
  split at hs
  · next key ptr hcall =>
    cases hs
    refine hI.startCheck (hI.ref key ptr (.removed hcall)).2.1
      (by simpa only [Apart, hcall] using hapart) ?_
    intro row q hq
    -- the row's head is gone if it was the one removed
    obtain ⟨hq, hne⟩ : h.rowDir row = some q ∧ ∀ rel, (key, ptr) ≠ ((rel, row), q) := by
      split at hq
      · next hhead =>
        rw [update_apply] at hq
        split at hq
        · cases hq
        · next hrow => exact ⟨hq, fun rel heq => hrow (by cases heq; rfl)⟩
      · next hhead =>
        refine ⟨hq, fun rel heq => ?_⟩
        cases heq
        exact hhead hq
    refine (hI.rowDir row q hq).mono rfl rfl fun v rel hv => lookup_insert_eq_some.2 (.inr ⟨?_, hv⟩)
    rintro rfl
    rw [hcall] at hv
    cases hv
    exact hne rel rfl
  · cases hs

theorem Inv.pruned (hapart : h.Apart P (.pruned call key)) (hs : h.pruned P call key = .ok h') :
    Inv P h' := by
  unfold Heap.pruned at hs
  split at hs
  · next ptr hcall hhead =>
    cases hs
    refine hI.startCheck (hI.ref key ptr (.head hhead)).2.1
      (by simpa only [Apart, hhead] using hapart) ?_
    intro row q hq
    refine (hI.rowDir row q hq).mono rfl rfl fun v rel hv => lookup_insert_eq_some.2 (.inr ⟨?_, hv⟩)
    rintro rfl
    rw [hcall] at hv
    cases hv
  · cases hs

theorem Inv.look {vacuums : AList (fun _ : Nat => VacuumCall)} {lanes' : Nat → Option Nat}
    {list : List Nat} (hcall : h.vacuums.lookup call = some (.checking page shards lanes))
    (hother : ∀ v, v ≠ call → vacuums.lookup v = h.vacuums.lookup v)
    (hlane : ∀ i p, lanes' i = some p → h.lanes i = some p)
    (hkept : ∀ t c lane, h.appends.lookup t = some c → c.lane? = some lane →
      lanes' lane = h.lanes lane) (hnodup : list.Nodup)
    (hlist : ∀ p ∈ list, p ∈ h.reusable ∨ p = page ∧ (∀ key ptr, Ref h key ptr → ptr.pageId ≠ p) ∧
      ∀ i, h.lanes i ≠ some p)
    (hnow : ∀ c, vacuums.lookup call = some c → ∃ shards lanes, c = .checking page shards lanes ∧
      (∀ key ptr, h.relationRowDir.lookup key = some ptr → ptr.pageId = page →
        P.relationLane key.1 ∈ shards) ∧
      ∀ i, lanes' i = some page → i ∈ lanes) : Inv P { h with vacuums, lanes := lanes', reusable :=
        list } := by
  have hremoved : ∀ {v key ptr}, vacuums.lookup v = some (.removed key ptr) →
      h.vacuums.lookup v = some (.removed key ptr) := by
    intro v key ptr hv
    by_cases hvc : v = call
    · subst hvc
      obtain ⟨_, _, heq, -⟩ := hnow _ hv
      cases heq
    · rw [← hother v hvc]
      exact hv
  have href : ∀ key ptr, Ref { h with vacuums, lanes := lanes', reusable := list } key ptr →
      Ref h key ptr := by
    rintro key ptr (hh | ⟨ht, hk, hp⟩ | hv)
    · exact .head hh
    · exact .flight ht hk hp
    · exact .removed (hremoved hv)
  obtain ⟨h1, h2, h3, -, -⟩ := hI.check call page shards lanes hcall
  refine hI.vacuum rfl href hlane hkept hnodup ?_ ?_ ?_
  · intro p hp
    rcases hlist p hp with hp | ⟨rfl, hno, hlanes⟩
    · exact .inl hp
    · exact .inr ⟨h1, fun key ptr hr => hno key ptr (href key ptr hr),
        fun i hi => hlanes i (hlane i p hi)⟩
  · intro v q shards' lanes' hv
    by_cases hvc : v = call
    · subst hvc
      obtain ⟨_, _, heq, hshards, hlanes⟩ := hnow _ hv
      cases heq
      exact ⟨h1, h2, fun v' key ptr hv' => h3 v' key ptr (hremoved hv'), hshards, hlanes⟩
    · rw [hother v hvc] at hv
      obtain ⟨h1, h2, h3, h4, h5⟩ := hI.check v q shards' lanes' hv
      exact ⟨h1, h2, fun v' key ptr hv' => h3 v' key ptr (hremoved hv'), h4,
        fun i hi => h5 i (hlane i q hi)⟩
  · intro row q hq
    refine (hI.rowDir row q hq).mono rfl rfl fun v rel hv => ?_
    rw [hother v, hv]
    rintro rfl
    rw [hcall] at hv
    cases hv

theorem Inv.scanShard (hs : h.scanShard P call = .ok h') : Inv P h' := by
  unfold Heap.scanShard at hs
  split at hs
  · next page shard shards lanes hcall =>
    obtain ⟨-, -, -, hshards, hlanes⟩ := hI.check _ _ _ _ hcall
    split at hs
    · cases hs
      refine hI.look hcall (fun v hv => AList.lookup_erase_ne hv) (fun _ _ hi => hi)
        (fun _ _ _ _ _ => rfl) hI.reusable.1 (fun _ hp => .inl hp) fun c hc => ?_
      rw [AList.lookup_erase] at hc
      cases hc
    · next hnone =>
      cases hs
      refine hI.look hcall (fun v hv => AList.lookup_insert_ne hv) (fun _ _ hi => hi)
        (fun _ _ _ _ _ => rfl) hI.reusable.1 (fun _ hp => .inl hp) fun c hc => ?_
      rcases lookup_setVacuum.1 hc with ⟨-, rfl⟩ | ⟨hne, -⟩
      · refine ⟨shards, lanes, rfl, fun key ptr hh hp => ?_, hlanes⟩
        rcases mem_cons.1 (hshards key ptr hh hp) with heq | hin
        · exact absurd ⟨⟨key, ptr⟩, AList.mem_lookup_iff.1 hh, heq, hp⟩ hnone
        · exact hin
      · exact absurd rfl hne
  · cases hs

theorem Inv.clearLane (hs : h.clearLane call = .ok h') : Inv P h' := by
  unfold Heap.clearLane at hs
  split at hs
  · next page lane lanes hcall =>
    obtain ⟨hfree, rfl⟩ := guarded_eq_ok.1 hs
    rw [laneFree_iff] at hfree
    obtain ⟨-, -, -, hshards, hlanes⟩ := hI.check _ _ _ _ hcall
    generalize hh' : (if h.lanes lane = some page then h.setLane lane none else h) = h₁
    obtain ⟨hsame, hne, heq⟩ : h₁ = { h with lanes := h₁.lanes } ∧
        (∀ i, i ≠ lane → h₁.lanes i = h.lanes i) ∧
        ((h₁.lanes lane = h.lanes lane ∧ h.lanes lane ≠ some page) ∨ h₁.lanes lane = none) := by
      rw [← hh']
      split
      · exact ⟨rfl, fun i hi => update_of_ne hi _ _, .inr (update_self _ _ _)⟩
      · next hl => exact ⟨rfl, fun _ _ => rfl, .inl ⟨rfl, hl⟩⟩
    generalize h₁.lanes = lanes₁ at *
    subst hsame
    have hsub : ∀ i p, lanes₁ i = some p → h.lanes i = some p := by
      intro i p hi
      by_cases hil : i = lane
      · subst hil
        rcases heq with ⟨heq, -⟩ | heq
        · exact heq ▸ hi
        · rw [heq] at hi
          cases hi
      · exact hne i hil ▸ hi
    refine hI.look hcall (fun v hv => AList.lookup_insert_ne hv) hsub ?_ hI.reusable.1
      (fun _ hp => .inl hp) fun c hc => ?_
    · intro t c lane' ht hc
      exact hne lane' fun hl => hfree t c ht (hl ▸ hc)
    · rcases lookup_setVacuum.1 hc with ⟨-, rfl⟩ | ⟨hne', -⟩
      · refine ⟨[], lanes, rfl, hshards, fun i hi => ?_⟩
        rcases mem_cons.1 (hlanes i (hsub i page hi)) with rfl | hin
        · rcases heq with ⟨heq, hno⟩ | heq
          · exact absurd (heq ▸ hi) hno
          · exact absurd (heq.symm.trans hi) (by simp)
        · exact hin
      · exact absurd rfl hne'
  · cases hs

theorem Inv.markReusable (hs : h.markReusable call = .ok h') : Inv P h' := by
  unfold Heap.markReusable at hs
  split at hs
  · next page hcall =>
    cases hs
    obtain ⟨-, happ, hmoved, hshards, hlanes⟩ := hI.check _ _ _ _ hcall
    have hno : ∀ key ptr, Ref h key ptr → ptr.pageId ≠ page := by
      rintro key ptr (hh | @⟨t, c, ht, hk, hp⟩ | hv)
      · exact fun hp => absurd (hshards key ptr hh hp) (by simp)
      · have hpage : c.page = ptr.pageId := by
          cases c with
          | chosen => cases hp
          | appended | headSet =>
            cases hp
            rfl
        exact hpage ▸ happ t c ht
      · exact hmoved _ key ptr hv
    refine hI.look hcall (fun v hv => AList.lookup_erase_ne hv) (fun _ _ hi => hi)
      (fun _ _ _ _ _ => rfl) ?_ ?_ fun c hc => ?_
    · show (if page ∈ h.reusable then h.reusable else h.reusable ++ [page]).Nodup
      split
      · exact hI.reusable.1
      · next hnew => exact hI.reusable.1.append (by simp) (by simpa using hnew)
    · intro p hp
      have hp : p ∈ h.reusable ∨ p = page := by
        split at hp
        · exact .inl hp
        · simpa using hp
      rcases hp with hp | rfl
      · exact .inl hp
      · exact .inr ⟨rfl, hno, fun i hi => absurd (hlanes i hi) (by simp)⟩
    · rw [AList.lookup_erase] at hc
      cases hc
  · cases hs

theorem Inv.step {a : Act} (hapart : h.Apart P a) (hs : h.step P a = .ok h') : Inv P h' := by
  cases a with
  | append call key deleted => exact hI.append hapart hs
  | insert call full => exact hI.insert hapart hs
  | setHead call => exact hI.setHead hs
  | setRelationHead call => exact hI.setRelationHead hs
  | removeRelationHead call key => exact hI.removeRelationHead hapart hs
  | removeHead call => exact hI.removeHead hapart hs
  | pruned call key => exact hI.pruned hapart hs
  | scanShard call => exact hI.scanShard hs
  | clearLane call => exact hI.clearLane hs
  | markReusable call => exact hI.markReusable hs

/-! ### Pages on the list and heads -/

/-- No head and no tuple still to become a head is on a reusable page, and every head leads to a
tuple of its row. -/
structure Safe (h : Heap) : Prop where
  reusable : ∀ page ∈ h.reusable,
    (∀ key ptr, h.relationRowDir.lookup key = some ptr → ptr.pageId ≠ page) ∧
    (∀ row ptr, h.rowDir row = some ptr → ptr.pageId ≠ page) ∧
    ∀ t c ptr, h.appends.lookup t = some c → c.ptr? = some ptr → ptr.pageId ≠ page
  head : ∀ key ptr, h.relationRowDir.lookup key = some ptr → h.Leads key ptr
  rowHead : ∀ row ptr, h.rowDir row = some ptr → ∃ rel, h.Leads (rel, row) ptr

omit hI in
theorem RowRef.ref (hr : h.RowRef row ptr) : ∃ rel, Ref h (rel, row) ptr := by
  obtain ⟨rel, ⟨hh, -⟩ | ⟨t, ht⟩ | ⟨v, hv⟩⟩ := hr
  · exact ⟨rel, .head hh⟩
  · exact ⟨rel, .flight ht rfl rfl⟩
  · exact ⟨rel, .removed hv⟩

theorem Inv.safe : h.Safe where
  reusable := by
    intro page hpage
    have hno : ∀ key ptr, Ref h key ptr → ptr.pageId ≠ page := by
      rintro key ptr hr rfl
      exact (hI.ref key ptr hr).2.2 hpage
    refine ⟨fun key ptr hh => hno key ptr (.head hh), fun row ptr hr => ?_,
      fun t c ptr ht hp => hno c.key ptr (.flight ht rfl hp)⟩
    obtain ⟨rel, hr⟩ := (hI.rowDir row ptr hr).ref
    exact hno _ ptr hr
  head := fun key ptr hh => (hI.ref key ptr (.head hh)).1
  rowHead := by
    intro row ptr hr
    obtain ⟨rel, hr⟩ := (hI.rowDir row ptr hr).ref
    exact ⟨rel, (hI.ref _ ptr hr).1⟩

end

theorem page_reuse_safe {P : Placement} {acts : List Act} {h : Heap}
    (hrun : Run (step P) (Apart P) new acts h) :
    h.Safe := by
  have hI : Inv P h := hrun.invariant (I := fun _ h => Inv P h) inv_new fun _ _ _ _ hI hapart hs =>
      hI.step hapart hs
  exact hI.safe

def oneLane : Placement where
  lanes := 1
  rowLane := fun _ => 0
  relationLane := fun _ => 0
  rowLane_lt := fun _ => Nat.zero_lt_one
  relationLane_lt := fun _ => Nat.zero_lt_one

def appendRow (call : Nat) (key : RowKey) (deleted : Bool) : List Act :=
  [.append call key deleted, .insert call false, .setHead call, .setRelationHead call]

def vacuumRow (call : Nat) (key : RowKey) : List Act :=
  [.removeRelationHead call key, .removeHead call, .scanShard call, .clearLane call,
    .markReusable call]

/-- Row 1 is inserted and deleted, row 2's tuple is on the same page and not yet a head. Vacuum
finds no head on the page and gives it back, row 3 takes it over, and row 2's head points to a page
that is no longer its own. -/
theorem head_into_recycled_page : ∃ acts h, Run (step oneLane) (fun _ _ => True) new acts h ∧
    ¬ h.Safe := by
  obtain ⟨h, hrun, hhead, hread⟩ : ∃ h, Run (step oneLane) (fun _ _ => True) new
      (appendRow 0 (1, 1) false ++ appendRow 0 (1, 1) true ++
        [.append 0 (1, 2) false, .insert 0 false] ++
        vacuumRow 0 (1, 1) ++ appendRow 1 (1, 3) false ++ [.setHead 0, .setRelationHead 0]) h ∧
      h.relationRowDir.lookup (1, 2) = some ⟨1, 2, 2⟩ ∧ h.readTuple ⟨1, 2, 2⟩ = none := by
        decide +kernel
  refine ⟨_, h, hrun, fun hsafe => ?_⟩
  obtain ⟨deleted, hr⟩ := hsafe.head _ _ hhead
  rw [hread] at hr
  cases hr

/-- With row 2's head set before vacuum the page is kept, and once row 2 is gone too row 3 takes it
over. -/
theorem page_reuse_safe_in_turn : ∃ acts h, Run (step oneLane) (Apart oneLane) new acts h ∧ h.Safe ∧
    (∃ ptr, h.relationRowDir.lookup (1, 3) = some ptr ∧ ptr.pageId = 1 ∧ ptr.generation = 3) := by
  obtain ⟨h, hrun, hh⟩ : ∃ h, Run (step oneLane) (Apart oneLane) new
      (appendRow 0 (1, 1) false ++ appendRow 0 (1, 2) false ++ appendRow 0 (1, 1) true ++
        [.removeRelationHead 0 (1, 1), .removeHead 0, .scanShard 0] ++ appendRow 0
        (1, 2) true ++ vacuumRow 0 (1, 2) ++
        appendRow 0 (1, 3) false) h ∧ h.relationRowDir.lookup (1, 3) = some ⟨1, 0, 3⟩ := by
          decide +kernel
  exact ⟨_, h, hrun, page_reuse_safe hrun, ⟨1, 0, 3⟩, hh, rfl, rfl⟩

end Heap
end RedlineDb.PageReuse
