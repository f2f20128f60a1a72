import Mathlib.Logic.Function.Basic
import RedlineDb.Tx
import RedlineDb.IndexKeys
import RedlineDb.Lib.Stateful
import RedlineDb.Lib.Fences

/-!
# The B-tree of an index

`BtreeIndex` with its descent, its point lookup, `insert_tx`, `delete_mark` and the splits. A page
is its header with its entries; the bytes of a cell are left out, the space it takes is not. A call
of the buffer pool or of the log that may fail is answered by an environment, and code that fails
leaves the pages as far as they were changed. The latches are left out: the operations run one after
the other.
-/

namespace RedlineDb.Btree
open Lib

/-- How a call ends when it does not return: with an error, with an index out of bounds, or never.
-/
inductive Fault
  | error (e : Error)
  | panic
  | diverge
deriving DecidableEq

/-- `left` is the left sibling of a leaf and the leftmost child of an internal page. -/
structure PageHeader where
  level : Nat
  left : Option Nat
  right : Option Nat
  highKey : Bytes
deriving DecidableEq

/-- A page of the index. A page that was allocated and not written is `blank`. A page is `torn` when
its high key did not fit: the header then gives a length that leads out of the special area. -/
inductive BtreePage
  | leaf (header : PageHeader) (entries : List LeafEntry)
  | internal (header : PageHeader) (entries : List InternalEntry)
  | blank
  | torn
deriving DecidableEq

/-- `capacity` is `page_body_capacity` of every page; `uniqueness`, `root` and `rootLevel` are on
the meta page. -/
structure Tree where
  capacity : Nat
  uniqueness : IndexUniqueness
  root : Nat
  rootLevel : Nat
  pages : Nat → BtreePage
  next : Nat

def pageHighKeyOff : Nat := 36

def BtreePage.readPageHeader : BtreePage → Except Fault PageHeader
  | .leaf h _ => .ok h
  | .internal h _ => .ok h
  | .blank => .error (.error (.corruptPage "index special header too small"))
  | .torn => .error .panic

def BtreePage.leafEntries : BtreePage → List LeafEntry
  | .leaf _ es => es
  | _ => []

/-! ### Keys and visibility -/

def beBytes (w n : Nat) : Bytes := (leBytes w n).reverse

/-- `append_row_ref_suffix`. -/
def rowRefSuffix (row : IndexRowRef) : Bytes :=
  beBytes 8 row.rowId ++ beBytes 8 row.tuple.pageId ++ beBytes 2 row.tuple.slot ++
    beBytes 4 row.tuple.generation

def physicalKey (logicalKey : Bytes) (row : IndexRowRef) : Bytes := logicalKey ++ rowRefSuffix row

def PageHeader.pastHigh (h : PageHeader) (key : Bytes) : Bool :=
  !h.highKey.isEmpty && decide (h.highKey ≤ key)

def nonTransactionalDeleteTx : Nat := 2 ^ 64 - 1

structure View where
  status : ConcurrentTxStatus
  snapshot : Snapshot
  owner : Option Nat

def View.sees (v : View) (tx : Nat) : Bool := v.status.isTxVisible tx v.snapshot v.owner

def entryVisible (v : View) (e : LeafEntry) : Bool :=
  if e.createTx ≠ 0 ∧ !v.sees e.createTx then false
  else if e.deleteTx = nonTransactionalDeleteTx then false
  else if e.deleteTx ≠ 0 ∧ v.sees e.deleteTx then false
  else true

def deleteMarkerVisible (deleteTx : Nat) (view : Option View) : Bool :=
  if deleteTx = 0 then false
  else if deleteTx = nonTransactionalDeleteTx then true
  else
    match view with
    | none => true
    | some v => v.sees deleteTx

def chooseChild (key : Bytes) : Nat → List InternalEntry → Nat
  | chosen, [] => chosen
  | chosen, e :: es => if key < e.separator then chosen else chooseChild key e.child es

namespace Tree
variable (t : Tree)

def nextOnPath (key : Bytes) (page : Nat) : Except Fault (Option Nat) :=
  match t.pages page with
  | .leaf h _ => .ok (if h.pastHigh key then h.right else none)
  | .internal h es =>
    if h.pastHigh key then .ok h.right
    else
      match h.left with
      | none => .error (.error (.corruptPage "internal page missing leftmost child"))
      | some left => .ok (some (chooseChild key left es))
  | page => page.readPageHeader.map fun _ => none

/-- The loop of `find_leaf_path`: the last page of the path and the pages before it, the nearest
first. A path longer than the number of pages comes back to one of them and never ends. -/
def findLeafPathFrom (key : Bytes) : Nat → Nat → List Nat → Except Fault (Nat × List Nat)
  | 0, _, _ => .error .diverge
  | fuel + 1, page, path => do
    match ← t.nextOnPath key page with
    | some next =>
      if next = page then return (page, path)
      else findLeafPathFrom key fuel next (page :: path)
    | none => return (page, path)

def findLeafPath (key : Bytes) : Except Fault (Nat × List Nat) :=
  t.findLeafPathFrom key (t.next + 1) t.root []

def findLeaf (key : Bytes) : Except Fault Nat := (t.findLeafPath key).map (·.1)

/-- The rows a lookup takes from one leaf. Entries that are not visible are passed over; once an
entry matched, the next one that does not ends the leaf. -/
def collectRows (key : Bytes) (visible : LeafEntry → Bool) :
    Bool → List LeafEntry → List IndexRowRef
  | _, [] => []
  | matched, e :: es =>
    if !visible e then collectRows key visible matched es
    else if e.logicalKey = key then e.row :: collectRows key visible true es
    else if matched then []
    else collectRows key visible matched es

def lookupFrom (key : Bytes) (visible : LeafEntry → Bool) :
    Nat → Nat → Except Fault (List IndexRowRef)
  | 0, _ => .error .diverge
  | fuel + 1, page => do
    let header ← (t.pages page).readPageHeader
    let entries := (t.pages page).leafEntries
    let rows := collectRows key visible false entries
    if entries.head?.any fun e => decide (key < e.logicalKey) then return rows
    else
      match header.right with
      | none => return rows
      | some next => return rows ++ (← lookupFrom key visible fuel next)

def pointLookupFilter (key : Bytes) (visible : LeafEntry → Bool) :
    Except Fault (List IndexRowRef) := do
  let page ← t.findLeaf key
  t.lookupFrom key visible (t.next + 1) page

def pointLookup (key : Bytes) : Except Fault (List IndexRowRef) :=
  t.pointLookupFilter key fun e => e.deleteTx = 0

def pointLookupVisible (v : View) (key : Bytes) : Except Fault (List IndexRowRef) :=
  t.pointLookupFilter key (entryVisible v)

/-! ### Space on a page -/

def leafMinKey (es : List LeafEntry) : Bytes :=
  match es.head?, es.getLast? with
  | some first, some last => if first.logicalKey = last.logicalKey then first.physical
      else first.logicalKey
  | _, _ => []

def minKeyFrom : Nat → Nat → Except Fault Bytes
  | 0, _ => .error .diverge
  | fuel + 1, page =>
    match t.pages page with
    | .internal h _ =>
      match h.left with
      | none => .error (.error (.corruptPage "internal page missing leftmost child"))
      | some child => minKeyFrom fuel child
    | .leaf _ es => .ok (leafMinKey es)
    | page => page.readPageHeader.map fun _ => []

def minKeyForPage (page : Nat) : Except Fault Bytes := t.minKeyFrom (t.next + 1) page

def setPage (id : Nat) (page : BtreePage) : Tree :=
  { t with pages := Function.update t.pages id page }

end Tree

def leafLen (e : LeafEntry) : Nat := Cell.encodedLen (.leaf e)

def internalLen (e : InternalEntry) : Nat := Cell.encodedLen (.internal e)

def required {α : Type} (len : α → Nat) (es : List α) : Nat :=
  (es.map len).sum + es.length * slotLen

/-- The cells `insert_cell` puts on an empty page before it reports a full one. -/
def fitting {α : Type} (len : α → Nat) : Nat → List α → List α
  | _, [] => []
  | room, e :: es => if len e + slotLen ≤ room then
      e :: fitting len (room - (len e + slotLen)) es else []

/-! ### Writing pages -/

/-- The calls out of the index that may fail. -/
inductive Call
  | allocate (id : Nat)
  | pageImage (id : Nat)
  | metaImage
  | indexDelta
deriving DecidableEq

abbrev Env := Call → Option Error

abbrev TreeM := EStateM Fault Tree

def Env.call (env : Env) (c : Call) : TreeM Unit :=
  match env c with
  | none => pure ()
  | some e => throw (.error e)

def allocate (env : Env) : TreeM Nat := do
  let t ← get
  env.call (.allocate t.next)
  set { t with next := t.next + 1 }
  return t.next

def recordPageImage (env : Env) (emitWal : Bool) (c : Call) : TreeM Unit :=
  if emitWal then env.call c else pure ()

/-- The page is emptied, then its header is written, then its cells, one after the other. -/
def rewrite {α : Type} (page : PageHeader → List α → BtreePage) (len : α → Nat) (id : Nat)
    (h : PageHeader)
    (es : List α) : TreeM Unit := do
  let t ← get
  if indexSpecialLen < pageHighKeyOff + h.highKey.length then
    set (t.setPage id .torn)
    throw (.error (.bufferTooSmall (pageHighKeyOff + h.highKey.length) indexSpecialLen))
  else
    set (t.setPage id (page h (fitting len t.capacity es)))
    if (fitting len t.capacity es).length < es.length then throw (.error .pageFull)

def rewriteLeaf (id : Nat) (es : List LeafEntry) (left right : Option Nat) (highKey : Bytes) :
    TreeM Unit :=
  rewrite .leaf leafLen id ⟨0, left, right, highKey⟩ es

def rewriteInternal (id level : Nat) (es : List InternalEntry) (left right : Option Nat)
    (highKey : Bytes) :
    TreeM Unit :=
  rewrite .internal internalLen id ⟨level, left, right, highKey⟩ es

def distinctAt (es : List LeafEntry) (i : Nat) : Bool :=
  i ≠ 0 && i < es.length && (es[i - 1]?).map (·.logicalKey) ≠ (es[i]?).map (·.logicalKey)

/-- `midpoint_distinct_boundary`. -/
def chooseLeafSplit (es : List LeafEntry) : Nat :=
  if es.length ≤ 1 then es.length
  else
    let mid := es.length / 2
    (((List.range es.length).flatMap fun offset => [mid + offset, mid - offset]).find?
      (distinctAt es)).getD mid

def withEntry (es : List LeafEntry) (e : LeafEntry) : List LeafEntry :=
  (es ++ [e]).insertionSort fun a b => a.physical ≤ b.physical

def leftHigh (left right : List LeafEntry) : Bytes :=
  match left.getLast?, right.head? with
  | some a, some b => if a.logicalKey = b.logicalKey then b.physical else b.logicalKey
  | none, some b => b.logicalKey
  | _, none => []

def withSeparator (es : List InternalEntry) (e : InternalEntry) : List InternalEntry :=
  (es ++ [e]).insertionSort fun a b => a.separator ≤ b.separator

/-- `propagate_split`; the nearest ancestor is the first one. -/
def propagateSplit (env : Env) (emitWal : Bool) : List Nat → Nat → Nat → Bytes → Nat → TreeM Unit
  | [], left, right, separator, level => do
    let root ← allocate env
    rewriteInternal root level [⟨separator, right⟩] (some left) none []
    recordPageImage env emitWal (.pageImage root)
    modify fun t => { t with root := root, rootLevel := level }
    recordPageImage env emitWal .metaImage
  | parent :: ancestors, _, right, separator, _ => do
    let t ← get
    match t.pages parent with
    | .internal h es =>
      let all := withSeparator es ⟨separator, right⟩
      if required internalLen all ≤ t.capacity then
        rewriteInternal parent h.level all h.left h.right h.highKey
        recordPageImage env emitWal (.pageImage parent)
      else
        let rightId ← allocate env
        match all.drop (all.length / 2) with
        | [] => throw (.error (.corruptPage "internal split produced empty right side"))
        | first :: rest =>
          let rightSeparator ← reading (·.minKeyForPage first.child)
          rewriteInternal parent h.level (all.take (all.length / 2)) h.left
            (some rightId) rightSeparator
          rewriteInternal rightId h.level (first :: rest) (some first.child) h.right h.highKey
          recordPageImage env emitWal (.pageImage parent)
          recordPageImage env emitWal (.pageImage rightId)
          propagateSplit env emitWal ancestors parent rightId rightSeparator (h.level + 1)
    | .leaf _ _ => throw (.error (.corruptPage "expected internal page"))
    | page => reading fun _ => page.readPageHeader.map fun _ => ()

def splitLeafAndInsert (env : Env) (emitWal : Bool) (ancestors : List Nat) (leaf : Nat)
    (h : PageHeader)
    (es : List LeafEntry) (entry : LeafEntry) : TreeM Unit := do
  let all := withEntry es entry
  let left := all.take (chooseLeafSplit all)
  let right := all.drop (chooseLeafSplit all)
  let rightId ← allocate env
  rewriteLeaf leaf left h.left (some rightId) (leftHigh left right)
  rewriteLeaf rightId right (some leaf) h.right h.highKey
  recordPageImage env emitWal (.pageImage leaf)
  recordPageImage env emitWal (.pageImage rightId)
  propagateSplit env emitWal ancestors leaf rightId (leftHigh left right) 1

/-! ### Inserting and marking -/

/-- `binary_search_by` of the standard library on the physical keys. `some pos` is a position that
holds the key, and which of several is open; `none` comes with the position where the key belongs.
-/
structure BinarySearch where
  find : List LeafEntry → Bytes → Bool × Nat
  found : ∀ es key pos, es.Pairwise (·.physical ≤ ·.physical) → find es key = (true, pos) →
    ∃ e, es[pos]? = some e ∧ e.physical = key
  missing : ∀ es key pos, es.Pairwise (·.physical ≤ ·.physical) → find es key = (false, pos) →
    pos ≤ es.length ∧ (∀ e ∈ es.take pos, e.physical < key) ∧ ∀ e ∈ es.drop pos, key < e.physical

def linearSearch (key : Bytes) : List LeafEntry → Bool × Nat
  | [] => (false, 0)
  | e :: es =>
    if e.physical < key then ((linearSearch key es).1, (linearSearch key es).2 + 1)
      else (e.physical = key, 0)

def BinarySearch.linear : BinarySearch where
  find es key := linearSearch key es
  found es key pos hs h := by
    induction es generalizing pos with
    | nil => simp [linearSearch] at h
    | cons e es ih =>
      simp only [linearSearch] at h
      split at h
      · obtain ⟨h1, rfl⟩ := Prod.mk.inj h
        exact ih _ (List.pairwise_cons.1 hs).2 (Prod.ext h1 rfl)
      · obtain ⟨h1, rfl⟩ := Prod.mk.inj h
        exact ⟨e, rfl, of_decide_eq_true h1⟩
  missing es key pos hs h := by
    induction es generalizing pos with
    | nil => simp_all [linearSearch]
    | cons e es ih =>
      rw [List.pairwise_cons] at hs
      simp only [linearSearch] at h
      split at h
      case isTrue hlt =>
        obtain ⟨h1, rfl⟩ := Prod.mk.inj h
        obtain ⟨hpos, hbefore, hafter⟩ := ih _ hs.2 (Prod.ext h1 rfl)
        exact ⟨Nat.succ_le_succ hpos, List.forall_mem_cons.2 ⟨hlt, hbefore⟩, hafter⟩
      case isFalse hge =>
        obtain ⟨h1, rfl⟩ := Prod.mk.inj h
        have hlt : key < e.physical := lt_of_le_of_ne (not_lt.1 hge) fun he =>
            of_decide_eq_false h1 he.symm
        exact ⟨Nat.zero_le _, by simp,
          List.forall_mem_cons.2 ⟨hlt, fun e' he' => hlt.trans_le (hs.1 e' he')⟩⟩

def newEntry (tx : Nat) (logicalKey : Bytes) (row : IndexRowRef) : LeafEntry :=
  ⟨logicalKey, row, physicalKey logicalKey row, tx, 0⟩

/-- `insert_tx`. The leaf of a path was not left to the right; were it, the loop would look for it
again on the same pages. The second descent is the first one again. -/
def insertTx (search : BinarySearch) (env : Env) (tx : Nat) (logicalKey : Bytes)
    (row : IndexRowRef) : TreeM Unit := do
  let t ← get
  let entry := newEntry tx logicalKey row
  let (leaf, ancestors) ← reading (·.findLeafPath entry.physical)
  match t.pages leaf with
  | .leaf h es =>
    if h.pastHigh entry.physical then throw .diverge
    else
      let (found, pos) := search.find es entry.physical
      if found ∧ t.uniqueness = .unique then throw (.error .writeConflict)
      else if t.capacity < required leafLen (es.insertIdx pos entry) then
        splitLeafAndInsert env (tx ≠ 0) ancestors leaf h es entry
      else
        rewriteLeaf leaf (es.insertIdx pos entry) h.left h.right h.highKey
        recordPageImage env (tx ≠ 0) .indexDelta
  | .internal _ _ => throw (.error (.corruptPage "expected leaf page"))
  | page => reading fun _ => page.readPageHeader.map fun _ => ()

/-- The loop of `delete_mark_tx`: the first entry of the key and the row gets the marker, unless it
has one that is visible. -/
def deleteMarkFrom (env : Env) (view : Option View) (tx : Nat) (logicalKey : Bytes)
    (row : IndexRowRef) :
    Nat → Nat → TreeM Unit
  | 0, _ => throw .diverge
  | fuel + 1, leaf => do
    let t ← get
    match t.pages leaf with
    | .leaf h es =>
      if h.pastHigh (physicalKey logicalKey row) then
        match h.right with
        | none => throw (.error (.corruptPage "index high key missing right link"))
        | some right => deleteMarkFrom env view tx logicalKey row fuel right
      else
        let before := es.takeWhile fun e => ¬ (e.logicalKey = logicalKey ∧ e.row = row)
        match es.drop before.length with
        | e :: after =>
          if deleteMarkerVisible e.deleteTx view then pure ()
          else
            rewriteLeaf leaf (before ++ { e with deleteTx := tx } :: after) h.left h.right h.highKey
            recordPageImage env (tx ≠ 0) .indexDelta
        | [] =>
          if es.any fun e => e.logicalKey = logicalKey then
            match h.right with
            | none => pure ()
            | some right => deleteMarkFrom env view tx logicalKey row fuel right
          else pure ()
    | .internal _ _ => throw (.error (.corruptPage "expected leaf page"))
    | page => reading fun _ => page.readPageHeader.map fun _ => ()

/-- `delete_mark_tx_inner`: with a view it is `delete_mark_tx_visible`, without one
`delete_mark_tx`. -/
def deleteMarkTx (env : Env) (view : Option View) (tx : Nat) (logicalKey : Bytes)
    (row : IndexRowRef) : TreeM Unit := do
  let t ← get
  let (leaf, _) ← reading (·.findLeafPath (physicalKey logicalKey row))
  deleteMarkFrom env view tx logicalKey row (t.next + 1) leaf

/-! ### What the calls do when they succeed -/

section Ok
variable {t t' : Tree} {env : Env} {c : Call} {id : Nat} {u : Unit}

@[simp] theorem Tree.setPage_next (id : Nat) (page : BtreePage) :
    (t.setPage id page).next = t.next := rfl

@[simp] theorem Tree.pages_setPage_self (id : Nat) (page : BtreePage) :
    (t.setPage id page).pages id = page :=
  Function.update_self ..

theorem Tree.pages_setPage_ne (page : BtreePage) {id' : Nat} (h : id' ≠ id) :
    (t.setPage id page).pages id' = t.pages id' :=
  Function.update_of_ne h ..

theorem Env.call_eq_ok : env.call c t = .ok u t' ↔ env c = none ∧ t = t' := by
  unfold Env.call
  cases env c with
  | none => simp [stateful_pure_eq_ok]
  | some e => simp [throw_eq_ok]

theorem allocate_eq_ok : allocate env t = .ok id t' ↔
    env (.allocate t.next) = none ∧ id = t.next ∧ t' = { t with next := t.next + 1 } := by
  simp only [allocate, stateful_bind_eq_ok, get_eq_ok, Env.call_eq_ok, stateful_pure_eq_ok]
  constructor
  · rintro ⟨_, _, ⟨rfl, rfl⟩, _, _, ⟨henv, rfl⟩, _, _, hset, rfl, rfl⟩
    cases hset
    exact ⟨henv, rfl, rfl⟩
  · rintro ⟨henv, rfl, rfl⟩
    exact ⟨_, _, ⟨rfl, rfl⟩, (), _, ⟨henv, rfl⟩, _, _, rfl, rfl, rfl⟩

theorem recordPageImage_eq_ok {emitWal : Bool} :
    recordPageImage env emitWal c t = .ok u t' ↔ (emitWal = true → env c = none) ∧ t = t' := by
  unfold recordPageImage
  split
  case isTrue h => simp [h, Env.call_eq_ok]
  case isFalse h => simp [h, stateful_pure_eq_ok]

section Rewrite
variable {α : Type} {len : α → Nat} {es : List α}

theorem required_cons (e : α) (es : List α) :
    required len (e :: es) = len e + slotLen + required len es := by
  simp only [required, List.map_cons, List.sum_cons, List.length_cons]
  rw [Nat.add_mul]
  omega

theorem fitting_of_required_le {room : Nat} (h : required len es ≤ room) :
    fitting len room es = es := by
  induction es generalizing room with
  | nil => rfl
  | cons e es ih =>
    rw [required_cons] at h
    rw [fitting, if_pos (by omega), ih (by omega)]

theorem required_le_of_fitting {room : Nat} (h : ¬ (fitting len room es).length < es.length) :
    required len es ≤ room := by
  induction es generalizing room with
  | nil => exact Nat.zero_le _
  | cons e es ih =>
    unfold fitting at h
    split at h
    case isTrue hroom =>
      have hrest : required len es ≤ room - (len e + slotLen) := ih (by simpa using h)
      rw [required_cons]
      omega
    case isFalse => simp at h

theorem rewrite_eq_ok {page : PageHeader → List α → BtreePage} {h : PageHeader} :
    rewrite page len id h es t = .ok u t' ↔
      h.highKey.length ≤ indexSpecialLen - pageHighKeyOff ∧ required len es ≤ t.capacity ∧
        t' = t.setPage id (page h es) := by
  unfold rewrite
  simp only [stateful_bind_eq_ok, get_eq_ok]
  constructor
  · rintro ⟨_, _, ⟨rfl, rfl⟩, hok⟩
    split at hok
    case isTrue =>
      obtain ⟨_, _, -, hthrow⟩ := stateful_bind_eq_ok.1 hok
      exact absurd hthrow throw_eq_ok
    case isFalse hhigh =>
      obtain ⟨_, t₁, hset, hrest⟩ := stateful_bind_eq_ok.1 hok
      cases hset
      split at hrest
      · exact absurd hrest throw_eq_ok
      · next hfit =>
        have hreq := required_le_of_fitting hfit
        rw [fitting_of_required_le hreq] at hrest
        obtain ⟨-, rfl⟩ := stateful_pure_eq_ok.1 hrest
        exact ⟨by omega, hreq, rfl⟩
  · rintro ⟨hhigh, hreq, rfl⟩
    refine ⟨t, t, ⟨rfl, rfl⟩, ?_⟩
    have hfits : ¬ indexSpecialLen < pageHighKeyOff + h.highKey.length := by
      simp only [indexSpecialLen, pageHighKeyOff] at hhigh ⊢
      omega
    rw [if_neg hfits, fitting_of_required_le hreq]
    refine stateful_bind_eq_ok.2 ⟨(), _, rfl, ?_⟩
    rw [if_neg (lt_irrefl _)]
    rfl

end Rewrite
end Ok

/-! ### Operations in a row -/

inductive Op
  | insertTx (env : Env) (tx : Nat) (logicalKey : Bytes) (row : IndexRowRef)
  | deleteMark (env : Env) (view : Option View) (tx : Nat) (logicalKey : Bytes) (row : IndexRowRef)

def Op.logicalKey : Op → Bytes
  | .insertTx _ _ key _ => key
  | .deleteMark _ _ _ key _ => key

def Tree.create (capacity : Nat) (uniqueness : IndexUniqueness) (root : Nat) : Tree where
  capacity := capacity
  uniqueness := uniqueness
  root := root
  rootLevel := 0
  pages := Function.update (fun _ => .blank) root (.leaf ⟨0, none, none, []⟩ [])
  next := root + 1

def step (search : BinarySearch) (t : Tree) : Op → Except Fault Tree
  | .insertTx env tx key row => finalState (Btree.insertTx search env tx key row) t
  | .deleteMark env view tx key row => finalState (deleteMarkTx env view tx key row) t

end RedlineDb.Btree
