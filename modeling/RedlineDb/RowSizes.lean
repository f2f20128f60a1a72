import RedlineDb.VacuumReads

/-!
# Rows that can be inserted and not modified

An insert needs room on an empty page for its tuple. An update or a delete first wraps the version
it replaces in an undo record, and the header of that record takes further bytes of a page. No other
step of a modification can fail for its size.
-/

namespace RedlineDb
open Lib

theorem exists_bind_eq_ok {ε α β : Type} {x : Except ε α} {f : α → Except ε β} :
    (∃ b, x >>= f = .ok b) ↔ ∃ a, x = .ok a ∧ ∃ b, f a = .ok b := by
  simp only [bind_eq_ok]
  rw [exists_comm]
  simp only [exists_and_left]

theorem Store.exists_pin {s : Store} {pid : Nat} {p : Page} (hf : s.fetch pid = .ok p) :
    ∃ r, s.pin pid = .ok r := by
  unfold fetch at hf
  unfold pin
  split at hf
  · exact ⟨_, rfl⟩
  · exact exists_bind_eq_ok.2 ⟨p, hf, _, rfl⟩

namespace PageBackedHeap
variable {h h0 : PageBackedHeap} {lsn pid rel row tx : Nat} {kind : PageKind} {c : Cell}
    {wp : Option WalPayload}

/-- The log takes a payload of this length. Without an LSN nothing is logged. -/
def Loggable (w : WalCoordinator) (lsn len : Nat) : Prop :=
  lsn ≠ 0 → walHeaderLen + len ≤ w.walBufferBytes ∧ ¬ w.failure ∧
    walHeaderLen + len ≤ w.segmentBytes

theorem exists_logCell_iff {w : WalCoordinator} {payload : WalPayload} :
    (∃ r, logCell w tx lsn (some payload) = .ok r) ↔ Loggable w lsn payload.encodedLen := by
  by_cases hlsn : lsn = 0
  · simp [logCell, Loggable, hlsn]
  · simp only [logCell, Loggable, if_pos hlsn, WalCoordinator.append, reserveQueuedAppend]
    constructor
    · rintro ⟨r, hr⟩ -
      simp only [bind_eq_ok, require_eq_ok] at hr
      obtain ⟨_, ⟨_, hsegment, _, hbuffer, _, hfailure, -⟩, -⟩ := hr
      exact ⟨hbuffer, hfailure, hsegment⟩
    · intro hlog
      obtain ⟨hbuffer, hfailure, hsegment⟩ := hlog hlsn
      exact exists_bind_eq_ok.2
        ⟨_, bind_eq_ok.2 ⟨(), require_eq_ok.2 hsegment, bind_eq_ok.2 ⟨(), require_eq_ok.2 hbuffer,
        bind_eq_ok.2 ⟨(), require_eq_ok.2 hfailure,
          bind_eq_ok.2 ⟨_, if_neg (Nat.not_lt_of_le hsegment), rfl⟩⟩⟩⟩,
        _, rfl⟩

theorem exists_tryAppend (reinit : Bool) {p : Page} (hf : h.store.fetch pid = .ok p)
    (hlog : ∃ r, logCell h.wal tx lsn wp = .ok r) : ∃ r, h.tryAppend tx pid reinit kind c lsn wp =
    .ok r := by
  obtain ⟨⟨f, s⟩, hpin⟩ := Store.exists_pin hf
  obtain ⟨r, hlog⟩ := hlog
  refine exists_bind_eq_ok.2 ⟨(f, s), hpin, ?_⟩
  dsimp only
  split
  · exact exists_bind_eq_ok.2 ⟨r, hlog, _, rfl⟩
  · exact ⟨_, rfl⟩

theorem exists_nextAppendPage (hw : LaneWf h) (hframe : h0 = { h with store := h0.store })
    (hS : SameStore h.store h0.store) (hk : kind = .heap ∨ kind = .undo) :
    ∃ pid h1 p, h0.nextAppendPage kind = .ok (pid, h1) ∧ h1.store.fetch pid = .ok p := by
  -- the next page id has no frame
  have hfree : h0.store.frames.lookup h0.store.nextPageId = none := by
    by_contra hne
    obtain ⟨f, hf⟩ := Option.ne_none_iff_exists'.1 hne
    have hfetch := Store.fetch_eq_ok.2 (.inl ⟨f, hf, rfl⟩)
    rw [hS.fetch, hS.next] at hfetch
    exact lt_irrefl _ (hw.ids _ _ hfetch).2
  have hnext : ∃ r, h0.nextAppendPage kind = .ok r := by
    unfold nextAppendPage
    split
    · exact ⟨_, rfl⟩
    · exact exists_bind_eq_ok.2 ⟨_, by rw [Store.allocate, hfree], _, rfl⟩
  obtain ⟨⟨pid, h1⟩, hnext⟩ := hnext
  refine ⟨pid, h1, ?_⟩
  rcases nextAppendPage_cases (by rw [hframe]; exact hw.noUndo) hk hnext with ⟨rest, -, hrest,
    rfl⟩ | ⟨s, hal, rfl⟩
  · rw [hframe] at hrest
    obtain ⟨p, hp, -⟩ :=
      hw.reusable pid (by rw [show h.reusableHeapPages = rest ++ [pid] from hrest]; simp)
    exact ⟨p, hnext, (hS.fetch pid).trans hp⟩
  · obtain ⟨rfl, rfl⟩ := Store.allocate_ok hal
    exact ⟨_, hnext, Store.fetch_setFrame_self⟩

theorem exists_appendCell {cur : Option Nat} (hw : LaneWf h) (hk : kind = .heap ∨ kind = .undo)
    (hck : c.pageKind = kind) (hcur : ∀ q, cur = some q → ∃ p, h.store.fetch q = .ok p)
    (hsz : c.encodedLen ≤ h.store.pageSize.bytes - (pageHeaderLen + slotLen))
    (hlog : ∃ r, logCell h.wal tx lsn wp = .ok r) : ∃ r, h.appendCell tx cur kind c lsn wp =
    .ok r := by
  -- the round on a page that was taken ends the loop
  have hfresh : ∀ rounds h0, h0 = { h with store := h0.store } → SameStore h.store h0.store →
      ∃ r, (nextAppendPage h0 kind >>= fun next => appendLoop tx kind c lsn wp
        (rounds + 1) next.2 next.1 true) =
        .ok r := by
    intro rounds h0 hframe hS
    obtain ⟨pid, h1, p, hnext, hp⟩ := exists_nextAppendPage hw hframe hS hk
    have hwal : h1.wal = h.wal := by rw [(nextAppendPage_spec hw hframe hS hk hnext).1]
    obtain ⟨⟨out, h2⟩, ht⟩ : ∃ r, h1.tryAppend tx pid true kind c lsn wp = .ok r :=
      exists_tryAppend true hp (hwal.symm ▸ hlog)
    obtain ⟨gen, rfl, -⟩ := Put.of_next hw hframe hS hk hck hsz hnext ht
    exact exists_bind_eq_ok.2 ⟨_, hnext, exists_bind_eq_ok.2 ⟨_, ht, _, rfl⟩⟩
  refine exists_bind_eq_ok.2 ⟨(), require_eq_ok.2 hsz, ?_⟩
  cases cur with
  | none => exact hfresh 1 h rfl ⟨fun _ => rfl, rfl, rfl, ⟨rfl, rfl⟩, id⟩
  | some q =>
    obtain ⟨p, hp⟩ := hcur q rfl
    obtain ⟨⟨out, h1⟩, ht⟩ : ∃ r, h.tryAppend tx q false kind c lsn wp = .ok r :=
      exists_tryAppend false hp hlog
    refine exists_bind_eq_ok.2 ⟨_, ht, ?_⟩
    obtain ⟨f, s, p', hpin, rfl, ⟨_, _, _, rfl, _⟩ | ⟨_, rfl, rfl⟩⟩ := tryAppend_eq_ok ht
    · exact ⟨_, rfl⟩
    · exact hfresh 0 _ rfl (.of_pin hpin)

theorem exists_appendUndo (u : UndoRecord) (hw : LaneWf h) (hrow : u.rowId = row)
    (hsz : u.encodedSize ≤ h.store.pageSize.bytes - (pageHeaderLen + slotLen)) :
    ∃ ptr h', h.appendUndo tx row u lsn = .ok (ptr, h') ∧ LaneWf h' ∧ h'.wal = h.wal ∧
      h'.store.pageSize = h.store.pageSize := by
  obtain ⟨⟨⟨pid, slot, gen⟩, h1⟩, hcell⟩ :
      ∃ r, h.appendCell tx (h.appendLanes (h.laneForRow row)).undoPage .undo
      (.undo u) lsn none = .ok r :=
    exists_appendCell hw (.inr rfl) rfl (fun q hq => (hw.laneUndo _ q hq).imp fun _ => And.left) hsz
      ⟨_, rfl⟩
  obtain ⟨hP, hst, -⟩ :=
    appendCell_put hw (.inr rfl) rfl (fun q hq => hw.undoPage_not_reusable hq) hcell
  obtain ⟨_, hlog, -⟩ := hst.log
  have happend : h.appendUndo tx row u lsn = .ok (_, _) := bind_eq_ok.2 ⟨_, hcell, rfl⟩
  exact ⟨_, _, happend, (appendUndo_put hw hrow happend).1.1,
    (Prod.mk.inj (Except.ok.inj hlog)).2.symm, hP.size⟩

theorem exists_appendTuple (t : TupleVersion) (hw : LaneWf h)
    (hsz : t.encodedSize ≤ h.store.pageSize.bytes - (pageHeaderLen + slotLen))
    (hlog : ∃ r, logCell h.wal tx lsn wp = .ok r) : ∃ r, h.appendTuple tx row t lsn wp = .ok r := by
  obtain ⟨r, hcell⟩ : ∃ r, h.appendCell tx (h.appendLanes (h.laneForRow row)).heapPage .heap
      (.tuple t) lsn wp = .ok r :=
    exists_appendCell hw (.inl rfl) rfl (fun q hq => (hw.laneHeap _ q hq).2.imp fun _ => And.left)
      hsz hlog
  exact exists_bind_eq_ok.2 ⟨r, hcell, _, rfl⟩

theorem exists_appendVersion {kind : UndoKind} {next current : TupleVersion} (hw : LaneWf h)
    (hundo : undoHeaderLen + current.encodedSize ≤ h.store.pageSize.bytes -
      (pageHeaderLen + slotLen))
    (hnext : next.encodedSize ≤ h.store.pageSize.bytes - (pageHeaderLen + slotLen))
    (hlog : ∃ r, logCell h.wal tx lsn wp = .ok r) :
    ∃ r, h.appendVersion kind tx rel row next current lsn wp = .ok r := by
  obtain ⟨ptr, h1, hu, hw1, hwal, hsize⟩ := exists_appendUndo
    ⟨kind, tx, row, current.undoHead, { current with endTx := tx }⟩ hw rfl hundo
  obtain ⟨r, ht⟩ := exists_appendTuple { next with undoHead := ptr } hw1 (hsize ▸ hnext)
      (hwal.symm ▸ hlog)
  exact exists_bind_eq_ok.2 ⟨_, hu, exists_bind_eq_ok.2 ⟨r, ht, _, rfl⟩⟩

theorem logCell_ite {w : WalCoordinator} {payload : WalPayload} :
    logCell w tx lsn (if lsn ≠ 0 then some payload else none) = logCell w tx lsn
      (some payload) := by
  by_cases hlsn : lsn = 0 <;> simp [logCell, hlsn]

def Accepts (h : PageBackedHeap) (rel lsn : Nat) (payload : Bytes) : Prop :=
  ∃ tx row h', h.insertForRelation tx rel row payload lsn = .ok h'

theorem Accepts.sizes {payload : Bytes} (hw : LaneWf h) (ha : Accepts h rel lsn payload) :
    tupleHeaderLen + payload.length ≤ h.store.pageSize.bytes - (pageHeaderLen + slotLen) ∧
      Loggable h.wal lsn (29 + payload.length) := by
  obtain ⟨tx, row, h', hi⟩ := ha
  simp only [insertForRelation, insertRecoveredAt, appendTuple, bind_eq_ok, pure_eq_ok,
    Prod.exists] at hi
  obtain ⟨ptr, h1, ⟨pid, slot, gen, h2, hcell, -⟩, -⟩ := hi
  have hw0 : LaneWf { h with nextRow := advanceRowPast (advanceRowPast h.nextRow row) row } :=
    { hw with }
  obtain ⟨-, hst, -⟩ := appendCell_put hw0 (.inl rfl) rfl (fun q hq => hw0.laneHeap _ q hq) hcell
  obtain ⟨pageLsn, hlog, -⟩ := hst.log
  rw [logCell_ite] at hlog
  simp only [appendCell, bind_eq_ok, ensureCellSize, require_eq_ok] at hcell
  exact ⟨hcell.choose_spec.1, exists_logCell_iff.1 ⟨_, hlog⟩⟩

end PageBackedHeap

namespace Engine
open PageBackedHeap

/-- In every state that transactions and vacuums reach: a row whose payload an insert accepts, and
that the transaction sees, can be deleted, and updated to every payload that an insert accepts,
exactly if the undo record of its version fits an empty page. -/
theorem modifiable_iff {relId lanes segmentBytes walBufferBytes tx rel row lsn : Nat}
    {pageSize : PageSize}
    {ops : List VacuumOp} {e : Engine} {snapshot : Snapshot} {current : TupleVersion}
    (hrun : Run stepVacuum (fun _ _ => True)
      (create relId lanes pageSize segmentBytes walBufferBytes) ops e)
    (hsees : e.heap.visibleTupleForWriteInRelation tx snapshot e.txs rel row = .ok current)
    (hrow : Accepts e.heap rel lsn current.payload) :
    ((∃ heap, e.heap.deleteForRelation tx snapshot e.txs rel row lsn = .ok heap) ∧ ∀ payload,
      Accepts e.heap rel lsn payload →
        ∃ heap, e.heap.updateForRelation tx snapshot e.txs rel row payload lsn = .ok heap) ↔
      undoHeaderLen + current.encodedSize ≤ e.heap.store.pageSize.bytes -
        (pageHeaderLen + slotLen) := by
  have hreuse : ReuseWf e.heap :=
    hrun.invariant (I := fun _ e => ReuseWf e.heap) (reuseWf_create _ _ _ _ _)
    fun _ _ _ _ hw _ hs => reuseWf_stepVacuum hw hs
  have hw := hreuse.toLaneWf
  constructor
  · rintro ⟨⟨heap, hd⟩, -⟩
    simp only [PageBackedHeap.deleteForRelation, hsees, appendDeleteVersion, appendVersion,
      appendUndo, appendCell,
      ensureCellSize, bind_eq_ok, require_eq_ok, Prod.exists, Except.ok.injEq,
        exists_eq_left'] at hd
    obtain ⟨_, _, ⟨_, _, _, _, ⟨_, hsz, _⟩, _⟩, _⟩ := hd
    exact hsz
  · intro hfit
    refine ⟨exists_bind_eq_ok.2 ⟨current, hsees, ?_⟩, fun payload ha => exists_bind_eq_ok.2
      ⟨current, hsees, ?_⟩⟩
    · obtain ⟨-, hlog⟩ := hrow.sizes hw
      refine exists_appendVersion hw hfit ?_ (exists_logCell_iff.2 ?_)
      · simp only [TupleVersion.encodedSize, TupleVersion.tombstone, List.length_nil] at hfit ⊢
        omega
      · intro hlsn
        obtain ⟨hbuffer, hfailure, hsegment⟩ := hlog hlsn
        exact ⟨le_trans (by simp only [WalPayload.encodedLen]; omega) hbuffer, hfailure,
          le_trans (by simp only [WalPayload.encodedLen]; omega) hsegment⟩
    · obtain ⟨hsz, hlog⟩ := ha.sizes hw
      refine exists_bind_eq_ok.2 ⟨(), require_eq_ok.2 hsz, exists_appendVersion hw hfit hsz ?_⟩
      rw [logCell_ite]
      exact exists_logCell_iff.2 hlog

def traceInsert (n : Nat) : List VacuumOp :=
  [.call (.begin .snapshot), .call (.insertForRelation 1 7 1 (List.replicate n 0))]

def refusal {α : Type} : Except Error α → Option Error
  | .error e => some e
  | .ok _ => none

/-- The transaction cannot delete its row or make it empty: its undo record would take 492 of 444
bytes. -/
theorem large_row_stuck :
    ∃ e, Run stepVacuum (fun _ _ => True) (create 1 1 .small 4096 4096) (traceInsert 372) e ∧
    refusal (e.heap.deleteForRelation 1 e.txs.snapshot e.txs 7 1 1) =
      some (.recordTooLarge 492 444) ∧
    refusal (e.heap.updateForRelation 1 e.txs.snapshot e.txs 7 1 [] 1) =
      some (.recordTooLarge 492 444) := by
  decide +kernel

theorem modifiable_small :
    ∃ e heap, Run stepVacuum (fun _ _ => True) (create 1 1 .small 4096 4096) (traceInsert 3) e ∧
    e.heap.deleteForRelation 1 e.txs.snapshot e.txs 7 1 1 = .ok heap := by
  obtain ⟨e, hrun, hsees, hsize, hrow⟩ : ∃ e,
      Run stepVacuum (fun _ _ => True) (create 1 1 .small 4096 4096) (traceInsert 3) e ∧
      .new 1 7 1 [0, 0, 0] ∈
        (e.heap.visibleTupleForWriteInRelation 1 e.txs.snapshot e.txs 7 1).toOption ∧
      e.heap.store.pageSize.bytes = 512 ∧ refusal (e.heap.insertForRelation 1 7 2 [0, 0, 0] 1) =
        none := by decide +kernel
  cases hi : e.heap.insertForRelation 1 7 2 [0, 0, 0] 1 with
  | error err => simp [hi, refusal] at hrow
  | ok heap' =>
    have hiff := modifiable_iff hrun (mem_toOption.1 hsees) ⟨1, 2, heap', hi⟩
    obtain ⟨heap, hheap⟩ := (hiff.2 (by rw [hsize]; decide)).1
    exact ⟨e, heap, hrun, hheap⟩

end Engine
end RedlineDb
