import Mathlib.Data.Multiset.Filter
import RedlineDb.BtreeInsert
import RedlineDb.Lib.Run

/-!
# Point lookups

What the index is for: a multiset of entries, to which an insert adds one and of which a delete mark
marks one (`Spec`). On a well-formed tree a point lookup returns the rows of the matching visible
entries of all leaves.

The separators of a tree are not always what the split code takes them for. A leaf that begins in
the middle of a run of duplicates has a physical key as its separator; once it holds another key
too, `min_key_for_page` gives the logical key, and an internal split that uses it sends lookups past
the duplicates on its left.
-/

namespace RedlineDb.Btree
open Lib List
variable {K : Set Bytes} {t t' : Tree} {L A B : List InternalEntry}
    {ups : List (List InternalEntry)}
  {n : InternalEntry} {key : Bytes} {visible : LeafEntry → Bool}

/-! ### What the entries are -/

namespace Spec

def Shown (v : View) (e : LeafEntry) : Prop :=
  (e.createTx = 0 ∨ v.sees e.createTx = true) ∧
    (e.deleteTx = 0 ∨ e.deleteTx ≠ nonTransactionalDeleteTx ∧ v.sees e.deleteTx = false)

instance (v : View) (e : LeafEntry) : Decidable (Shown v e) := by
  unfold Shown
  infer_instance

/-- An insert adds its entry. A delete mark marks an entry of its key and row that has no visible
marker; it changes nothing when there is no entry or one has a visible marker. -/
def Step (s : Multiset LeafEntry) : Op → Multiset LeafEntry → Prop
  | .insertTx _ tx key row, s' => s' = newEntry tx key row ::ₘ s
  | .deleteMark _ view tx key row, s' =>
    (∃ e rest, s = e ::ₘ rest ∧ Matches key row e ∧ deleteMarkerVisible e.deleteTx view = false ∧
      s' = { e with deleteTx := tx } ::ₘ rest) ∨
    s' = s ∧ ((∀ e ∈ s, ¬ Matches key row e) ∨ ∃ e ∈ s, Matches key row e ∧
      deleteMarkerVisible e.deleteTx view = true)

def Run : Multiset LeafEntry → List Op → Multiset LeafEntry → Prop
  | s, [], s' => s' = s
  | s, op :: ops, s' => ∃ s₁, Step s op s₁ ∧ Run s₁ ops s'

theorem Run.snoc {s s' s'' : Multiset LeafEntry} {ops : List Op} {op : Op} (h : Run s ops s')
    (hop : Step s' op s'') :
    Run s (ops ++ [op]) s'' := by
  induction ops generalizing s with
  | nil =>
    obtain rfl : s' = s := h
    exact ⟨s'', hop, rfl⟩
  | cons o ops ih =>
    obtain ⟨s₁, ho, hrest⟩ := h
    exact ⟨s₁, ho, ih hrest⟩

theorem Run.mem_of_inserts {s s' : Multiset LeafEntry} {l : List (Bytes × IndexRowRef)} {env : Env}
    {tx : Nat}
    (h : Run s (l.map fun p => .insertTx env tx p.1 p.2) s') :
    (∀ e ∈ s, e ∈ s') ∧ ∀ p ∈ l, newEntry tx p.1 p.2 ∈ s' := by
  induction l generalizing s with
  | nil =>
    obtain rfl : s' = s := h
    exact ⟨fun _ => id, by simp⟩
  | cons q l ih =>
    obtain ⟨s₁, rfl, hrest⟩ := h
    obtain ⟨hkept, hnew⟩ := ih hrest
    refine ⟨fun e he => hkept e (Multiset.mem_cons_of_mem he), fun p hp => ?_⟩
    rcases mem_cons.1 hp with rfl | hp
    · exact hkept _ (Multiset.mem_cons_self _ _)
    · exact hnew p hp

end Spec

theorem entryVisible_iff (v : View) (e : LeafEntry) : entryVisible v e = true ↔ Spec.Shown v e := by
  unfold entryVisible Spec.Shown
  by_cases hcreate : e.createTx = 0 <;> by_cases hdelete : e.deleteTx = 0 <;>
    simp [hcreate, hdelete, nonTransactionalDeleteTx]

theorem collectRows_eq {es : List LeafEntry} {matched : Bool}
    (hsorted : es.Pairwise (·.logicalKey ≤ ·.logicalKey))
    (hmatched : matched = true → ∀ e ∈ es, key ≤ e.logicalKey) :
    Tree.collectRows key visible matched es =
      (es.filter fun e => decide (e.logicalKey = key) && visible e).map (·.row) := by
  induction es generalizing matched with
  | nil => rfl
  | cons e es ih =>
    obtain ⟨hle, hsorted⟩ := pairwise_cons.1 hsorted
    have htail : matched = true → ∀ e ∈ es, key ≤ e.logicalKey := fun hm a ha =>
      hmatched hm a (mem_cons_of_mem _ ha)
    unfold Tree.collectRows
    cases hv : visible e with
    | false => simp [hv, ih hsorted htail]
    | true =>
      by_cases hkey : e.logicalKey = key
      · have hrest : Tree.collectRows key visible true es =
            (es.filter fun e => decide (e.logicalKey = key) && visible e).map (·.row) :=
          ih hsorted fun _ a ha => hkey ▸ hle a ha
        simp [hkey, hv, hrest]
      · cases hm : matched with
        | false =>
          have hrest := ih hsorted htail
          rw [hm] at hrest
          simp [hkey, hrest]
        | true =>
          -- past the matches: the keys only grow
          have hlt : key < e.logicalKey := lt_of_le_of_ne (hmatched hm e (by simp)) (Ne.symm hkey)
          have hnil : es.filter (fun e => decide (e.logicalKey = key) && visible e) = [] := by
            refine filter_eq_nil_iff.2 fun a ha => ?_
            simp [(hlt.trans_le (hle a ha)).ne']
          simp [hkey, hnil]

def matchingRows (t : Tree) (L : List InternalEntry) (key : Bytes) (visible : LeafEntry → Bool) :
    List IndexRowRef :=
  ((contents t L).filter fun e => decide (e.logicalKey = key) && visible e).map (·.row)

theorem matchingRows_append (t : Tree) (A B : List InternalEntry) (key : Bytes)
    (visible : LeafEntry → Bool) :
    matchingRows t (A ++ B) key visible = matchingRows t A key visible ++
      matchingRows t B key visible := by
  simp [matchingRows, contents_append]

theorem matchingRows_eq_nil (h : ∀ e ∈ contents t L, e.logicalKey ≠ key) :
    matchingRows t L key visible = [] := by
  rw [matchingRows, filter_eq_nil_iff.2 fun e he => by simp [h e he], map_nil]

theorem Inv.logicalKey_le (hK : PrefixFree K) (h : Inv K t L ups) :
    (contents t L).Pairwise (·.logicalKey ≤ ·.logicalKey) := by
  refine h.contents_sorted.imp_of_mem fun {a b} ha hb hab => ?_
  rw [(h.mem_contents ha).2, (h.mem_contents hb).2] at hab
  exact hK.le_of_append_le_append (h.mem_contents ha).1 (h.mem_contents hb).1 hab

theorem Inv.lookupFrom (hK : PrefixFree K) (h : Inv K t (A ++ n :: B) ups) {fuel : Nat}
    (hfuel : B.length < fuel) :
    t.lookupFrom key visible fuel n.child = .ok (matchingRows t (n :: B) key visible) := by
  induction fuel generalizing A n B with
  | zero => omega
  | succ fuel ih =>
    obtain ⟨left, es, hpage, hes⟩ := h.leaf
    have hsorted := h.logicalKey_le hK
    rw [contents_append, contents_cons hpage, pairwise_append] at hsorted
    obtain ⟨-, hsorted, -⟩ := hsorted
    have hhere : Tree.collectRows key visible false es =
        (es.filter fun e => decide (e.logicalKey = key) && visible e).map (·.row) :=
      collectRows_eq (pairwise_append.1 hsorted).1 (by simp)
    have hrows : matchingRows t (n :: B) key visible =
        Tree.collectRows key visible false es ++ matchingRows t B key visible := by
      rw [matchingRows, contents_cons hpage, filter_append, map_append, hhere]
      rfl
    simp only [Tree.lookupFrom, hpage, BtreePage.readPageHeader, BtreePage.leafEntries, bind,
      Except.bind]
    split
    case isTrue hpast =>
      -- the first entry is past the key, and so is everything behind it
      have hnil : matchingRows t B key visible = [] := by
        obtain ⟨e, he, hlt⟩ := (Option.any_eq_true _ _).1 hpast
        obtain ⟨l, rfl⟩ := head?_eq_some_iff.1 he
        refine matchingRows_eq_nil fun a ha => ?_
        have hle := (pairwise_append.1 hsorted).2.2 e (by simp) a ha
        exact ((of_decide_eq_true hlt).trans_le hle).ne'
      rw [hrows, hnil, append_nil]
      rfl
    case isFalse hpast =>
      cases B with
      | nil =>
        simp only [headerOf, head?_nil, Option.map_none]
        rw [hrows]
        simp [matchingRows, contents, pure, Except.pure]
      | cons m B =>
        simp only [headerOf, head?_cons, Option.map_some]
        have hnext := ih (A := A ++ [n]) (n := m) (B := B) (by simpa using h)
            (by simp at hfuel; omega)
        rw [hnext, hrows]
        rfl

theorem Inv.length_le (h : Inv K t L ups) : L.length ≤ t.next := by
  have hsub : L.map (·.child) ⊆ range t.next := by
    intro c hc
    obtain ⟨k, hk, rfl⟩ := mem_map.1 hc
    exact mem_range.2 (h.allocated k (mem_append_left _ hk))
  simpa using (subperm_of_subset h.nodup.1 hsub).length_le

theorem Inv.pointLookupFilter (hK : PrefixFree K) (h : Inv K t L ups) (key : Bytes)
    (visible : LeafEntry → Bool) :
    t.pointLookupFilter key visible = .ok (matchingRows t L key visible) := by
  obtain ⟨A, n, B, path, hat, -, hfind⟩ := h.findLeafPath key
  obtain rfl := hat.eq
  have hfuel : B.length < t.next + 1 := by
    have := h.length_le
    simp only [length_append, length_cons] at this
    omega
  -- an entry left of the leaf is below its fence, which is not above the key
  have hnil : matchingRows t A key visible = [] := by
    refine matchingRows_eq_nil fun e he heq => ?_
    obtain ⟨k, hk, hmem⟩ := mem_flatMap.1 he
    have hlt := (pairwise_append.1 h.pairwise_lt).2.2 k hk n (by simp) e hmem
    have hphysical := (h.mem_contents (contents_append t A (n :: B) ▸ mem_append_left _ he)).2
    have hgt : key < e.physical := by
      rw [hphysical, physicalKey, heq]
      exact lt_append_of_ne_nil (by simp [rowRefSuffix, beBytes, leBytes])
    exact absurd (hlt.trans_le hat.le) (lt_asymm hgt)
  simp only [Tree.pointLookupFilter, Tree.findLeaf, hfind, Except.map, bind, Except.bind,
    h.lookupFrom hK hfuel]
  rw [matchingRows_append, hnil, nil_append]

def Op.Safe (t : Tree) : Op → Prop
  | .insertTx _ tx key row => InsertSafe t (newEntry tx key row)
  | .deleteMark .. => True

instance (t : Tree) (op : Op) : Decidable (op.Safe t) := by
  unfold Op.Safe
  split <;> infer_instance

theorem LeafStep.contents {L' : List InternalEntry} {es es' : List LeafEntry}
    (h : LeafStep t t' L L' es es') :
    ∃ P Q, contents t L = P ++ es ++ Q ∧ contents t' L' = P ++ es' ++ Q := by
  cases h with
  | @rewrite A B n left es es' page page' same =>
    refine ⟨Btree.contents t A, Btree.contents t B, ?_, ?_⟩
    · rw [contents_append, contents_cons page, append_assoc]
    · rw [contents_append, contents_cons page', contents_congr fun k hk => same k (.inl hk),
        contents_congr fun k hk => same k (.inr hk), append_assoc]
  | @split A B n x left es lefts rights page page' right same =>
    refine ⟨Btree.contents t A, Btree.contents t B, ?_, ?_⟩
    · rw [contents_append, contents_cons page, append_assoc]
    · rw [contents_append, contents_cons page', contents_cons right,
        contents_congr fun k hk => same k (.inl hk),
        contents_congr fun k hk => same k (.inr hk)]
      simp

theorem Inv.step (search : BinarySearch) (hK : PrefixFree K) (h : Inv K t L ups) {op : Op}
    (hkey : op.logicalKey ∈ K)
    (hsafe : op.Safe t) (hok : step search t op = .ok t') :
    ∃ L' ups', Inv K t' L' ups' ∧ Spec.Step (contents t L) op (contents t' L') := by
  cases op with
  | insertTx env tx key row =>
    obtain ⟨u, hok⟩ := finalState_eq_ok.1 hok
    have hkey : key ∈ K := hkey
    obtain ⟨_, _, _, _, _, es, L', ups', es', -, -, -, -, hinv, hstep, hperm⟩ :=
      h.insertTx hK hkey hsafe hok
    obtain ⟨P, Q, hc, hc'⟩ := hstep.contents
    refine ⟨L', ups', hinv, ?_⟩
    show (↑(contents t' L') : Multiset LeafEntry) = newEntry tx key row ::ₘ ↑(contents t L)
    rw [hc, hc', Multiset.cons_coe, Multiset.coe_eq_coe]
    refine ((hperm.append_left P).append_right Q).trans ?_
    simp
  | deleteMark env view tx key row =>
    obtain ⟨u, hok⟩ := finalState_eq_ok.1 hok
    rcases h.deleteMarkTx hok with ⟨before, after, e, hinv, hstep, hmatch, hvis⟩ | ⟨rfl, hnone⟩
    · obtain ⟨P, Q, hc, hc'⟩ := hstep.contents
      have hmiddle : ∀ a : LeafEntry, (↑(P ++ (before ++ a :: after) ++ Q) : Multiset LeafEntry) =
          a ::ₘ ↑(P ++ before ++ (after ++ Q)) := by
        intro a
        simpa using @perm_middle _ a (P ++ before) (after ++ Q)
      exact ⟨L, ups, hinv, .inl ⟨e, _, by rw [hc, hmiddle], hmatch, hvis, by rw [hc', hmiddle]⟩⟩
    · exact ⟨L, ups, h, .inr ⟨rfl, by simpa using hnone⟩⟩

def LooksUp (t : Tree) (s : Multiset LeafEntry) : Prop :=
  ∀ view key, ∃ rows, t.pointLookupVisible view key = .ok rows ∧
    (↑rows : Multiset IndexRowRef) = (s.filter fun e => e.logicalKey = key ∧ Spec.Shown view e).map
    (·.row)

theorem Inv.looksUp (hK : PrefixFree K) (h : Inv K t L ups) : LooksUp t (contents t L) := by
  intro view key
  refine ⟨_, h.pointLookupFilter hK key (entryVisible view), ?_⟩
  have hsame : ∀ e ∈ contents t L, (decide (e.logicalKey = key) && entryVisible view e) =
      decide (e.logicalKey = key ∧ Spec.Shown view e) := by
    intro e _
    rw [Bool.eq_iff_iff]
    simp only [Bool.and_eq_true, decide_eq_true_eq, entryVisible_iff]
  rw [Multiset.filter_coe, Multiset.map_coe, matchingRows, filter_congr hsame]

theorem Inv.of_run (search : BinarySearch) {dirs : List Indexed.SortDir} {capacity root : Nat}
    {uniqueness : IndexUniqueness}
    {ops : List Op} (hkeys : ∀ op ∈ ops, op.logicalKey ∈ Indexed.keysOf dirs)
    (hrun : Run (Btree.step search) Op.Safe (.create capacity uniqueness root) ops t) :
    ∃ L ups, Inv (Indexed.keysOf dirs) t L ups ∧ Spec.Run 0 ops (contents t L) := by
  refine hrun.invariant (I := fun ops t => (∀ op ∈ ops, op.logicalKey ∈ Indexed.keysOf dirs) →
    ∃ L ups, Inv (Indexed.keysOf dirs) t L ups ∧ Spec.Run 0 ops (contents t L)) ?_ ?_ hkeys
  · intro _
    exact ⟨_, _, inv_create .., by simp [Spec.Run, contents, Tree.create, BtreePage.leafEntries]⟩
  · intro ops t op t' ih hsafe hok hkeys
    obtain ⟨L, ups, hinv, hspec⟩ := ih fun o ho => hkeys o (mem_append_left _ ho)
    obtain ⟨L', ups', hinv', hstep⟩ :=
      hinv.step search (Indexed.prefixFree_keysOf dirs) (hkeys op (by simp)) hsafe hok
    exact ⟨L', ups', hinv', hspec.snoc hstep⟩

/-- After every run of operations that returned `Ok` and divided leaves only as `SplitSafe` allows,
every point lookup returns exactly the rows of the entries the operations ask for. -/
theorem point_lookup_exact (search : BinarySearch) (dirs : List Indexed.SortDir)
    (capacity root : Nat)
    (uniqueness : IndexUniqueness) {ops : List Op} {t : Tree}
    (hkeys : ∀ op ∈ ops, op.logicalKey ∈ Indexed.keysOf dirs)
    (hrun : Run (Btree.step search) Op.Safe (.create capacity uniqueness root) ops t) :
    ∃ s, Spec.Run 0 ops s ∧ LooksUp t s := by
  obtain ⟨L, ups, hinv, hspec⟩ := Inv.of_run search hkeys hrun
  exact ⟨_, hspec, hinv.looksUp (Indexed.prefixFree_keysOf dirs)⟩

/-! ### A lookup that misses a duplicate -/

def textKey (bytes : Bytes) : Bytes := (Indexed.encodeIndexKey [.text bytes] [.asc]).bytes

theorem textKey_mem (bytes : Bytes) : textKey bytes ∈ Indexed.keysOf [.asc] :=
  ⟨⟨[.text bytes], rfl⟩, rfl⟩

def rowRef (rowId : Nat) : IndexRowRef := ⟨rowId, ⟨0, 0, 1⟩⟩

def insertTexts (l : List (Bytes × Nat)) : List Op :=
  (l.map fun p => (textKey p.1, rowRef p.2)).map fun p => .insertTx (fun _ => none) 1 p.1 p.2

theorem insertTexts_key {l : List (Bytes × Nat)} {op : Op} (h : op ∈ insertTexts l) :
    op.logicalKey ∈ Indexed.keysOf [.asc] := by
  simp only [insertTexts, map_map, mem_map] at h
  obtain ⟨p, -, rfl⟩ := h
  exact textKey_mem p.1

def ownView : View := ⟨.new, ⟨0, 0, 0⟩, some 1⟩

def duplicatesTrace : List (Bytes × Nat) :=
  ((List.range 11).map fun i => ([UInt8.ofNat (0x63 + i), 0x61], i + 1)) ++
    [([0x68, 0x61], 12), ([0x68, 0x61], 13), ([0x69], 14), ([0x6e, 0x61], 15)]

/-- The last insert divides the root before the leaf of the rows 12 and 13 and takes their logical
key as the separator. The row 6 of this key stays on the left of it and is not found any more. -/
theorem point_lookup_misses_duplicate :
    ∃ t, (∀ op ∈ insertTexts duplicatesTrace, op.logicalKey ∈ Indexed.keysOf [.asc]) ∧
      Run (Btree.step .linear) (fun _ _ => True) (.create 238 .nonUnique 1)
        (insertTexts duplicatesTrace) t ∧
      ¬ ∃ s, Spec.Run 0 (insertTexts duplicatesTrace) s ∧ LooksUp t s := by
  obtain ⟨t, hrun, hq⟩ : ∃ t, Run (Btree.step .linear) (fun _ _ => True) (.create 238 .nonUnique 1)
      (insertTexts duplicatesTrace) t ∧
      (t.pointLookupVisible ownView (textKey [0x68, 0x61])).toOption =
        some [rowRef 12, rowRef 13] := by decide +kernel
  refine ⟨t, fun op => insertTexts_key, hrun, ?_⟩
  rintro ⟨s, hspec, hlooks⟩
  obtain ⟨rows, hrows, heq⟩ := hlooks ownView (textKey [0x68, 0x61])
  have hfound : rows = [rowRef 12, rowRef 13] := by
    rw [hrows] at hq
    exact Option.some.inj hq
  have hsix : newEntry 1 (textKey [0x68, 0x61]) (rowRef 6) ∈ s :=
    hspec.mem_of_inserts.2 (textKey [0x68, 0x61], rowRef 6) (by decide +kernel)
  have hmem : rowRef 6 ∈ (↑rows : Multiset IndexRowRef) := by
    rw [heq]
    exact Multiset.mem_map.2 ⟨_, Multiset.mem_filter.2 ⟨hsix, rfl, by decide⟩, rfl⟩
  rw [hfound, Multiset.mem_coe] at hmem
  exact absurd hmem (by decide)

/-- With a root that has room for its separators the lookup finds all rows of the sixth text. -/
theorem point_lookup_exact_duplicates :
    ∃ t, Run (Btree.step .linear) Op.Safe (.create 300 .nonUnique 1)
      (insertTexts duplicatesTrace) t ∧
      ∃ s, Spec.Run 0 (insertTexts duplicatesTrace) s ∧ LooksUp t s := by
  obtain ⟨t, hrun, -⟩ : ∃ t, Run (Btree.step .linear) Op.Safe (.create 300 .nonUnique 1)
      (insertTexts duplicatesTrace) t ∧ True := by decide +kernel
  exact ⟨t, hrun, point_lookup_exact .linear [.asc] 300 1 .nonUnique
    (fun op => insertTexts_key) hrun⟩

end RedlineDb.Btree
