import RedlineDb.BtreeLookup

/-!
# The links of the leaves

The tree with its levels (`Inv`), and with left links that lead back (`LeftLinked`): the structure
the index is meant to have. A division writes the left link of the new page. It does not write the
one of the page behind it, which still leads to the page that was divided; so the links agree only
as long as no leaf in the middle is divided.
-/

namespace RedlineDb.Btree
open Lib List
variable {K : Set Bytes} {t t' : Tree} {L L' A B : List InternalEntry}
    {ups : List (List InternalEntry)}
  {n m x : InternalEntry} {es es' : List LeafEntry}

def LeftOk (t : Tree) (n : InternalEntry) (front : Option InternalEntry) : Prop :=
  ∃ h es, t.pages n.child = .leaf h es ∧ h.left = front.map (·.child)

abbrev LeftLinked (t : Tree) (L : List InternalEntry) : Prop := Linked (LeftOk t) L.reverse none

def Structured (t : Tree) : Prop := ∃ L ups, Inv Set.univ t L ups ∧ LeftLinked t L

theorem LeftLinked.left (h : LeftLinked t (A ++ n :: m :: B)) : LeftOk t m (some n) := by
  have hrev : (A ++ n :: m :: B).reverse = B.reverse ++ m :: n :: A.reverse := by simp
  rw [LeftLinked, hrev, linked_append_none, linked_cons_none] at h
  exact h.2.1

theorem Inv.structured (h : Inv K t L ups) (hleft : LeftLinked t L) : Structured t := by
  refine ⟨L, ups, ⟨h.toOwnPages, h.leaves.mono ?_, h.increasing, h.above⟩, hleft⟩
  rintro n - y ⟨left, es, hpage, hes⟩
  exact ⟨left, es, hpage, hes.sorted, fun e he => ⟨Set.mem_univ _, (hes.formed e he).2⟩, hes.low,
    hes.high⟩

theorem leftLinked_create (capacity : Nat) (uniqueness : IndexUniqueness) (root : Nat) :
    LeftLinked (.create capacity uniqueness root) [⟨[], root⟩] :=
  ⟨⟨⟨0, none, none, []⟩, [], by simp [Tree.create], rfl⟩, trivial⟩

def DividesLast (t : Tree) (e : LeafEntry) : Prop :=
  match t.findLeafPath e.physical with
  | .error _ => True
  | .ok (leaf, _) =>
    match t.pages leaf with
    | .leaf h es => t.capacity < required leafLen (withEntry es e) → h.right = none
    | _ => True

instance (t : Tree) (e : LeafEntry) : Decidable (DividesLast t e) := by
  unfold DividesLast
  exact match t.findLeafPath e.physical with
    | .error _ => inferInstanceAs (Decidable True)
    | .ok (leaf, _) => by
      dsimp only
      exact match t.pages leaf with
        | .leaf .. => inferInstanceAs (Decidable (_ → _))
        | .internal .. | .blank | .torn => inferInstanceAs (Decidable True)

def Op.LinkSafe (t : Tree) : Op → Prop
  | .insertTx _ tx key row => InsertSafe t (newEntry tx key row) ∧
      DividesLast t (newEntry tx key row)
  | .deleteMark .. => True

instance (t : Tree) (op : Op) : Decidable (op.LinkSafe t) :=
  match op with
  | .insertTx .. => inferInstanceAs (Decidable (_ ∧ _))
  | .deleteMark .. => inferInstanceAs (Decidable True)

theorem LeafStep.leftOk (h : LeafStep t t' L L' es es') {k : InternalEntry} (hk : k ∈ L)
    {front : Option InternalEntry}
    (hfront : LeftOk t k front) : LeftOk t' k front := by
  obtain ⟨hd, es₀, hpage₀, hleft⟩ := hfront
  have hkeep : ∀ {A B : List InternalEntry} {n : InternalEntry} {y y' : Option InternalEntry}
      {left : Option Nat}
      {es es' : List LeafEntry}, k ∈ A ++ n :: B → t.pages n.child = .leaf (headerOf 0 left y) es →
      t'.pages n.child = .leaf (headerOf 0 left y') es' →
      (∀ k, k ∈ A ∨ k ∈ B → t'.pages k.child = t.pages k.child) → LeftOk t' k front := by
    intro A B n y y' left es es' hk page page' same
    have hcases : k = n ∨ k ∈ A ∨ k ∈ B := by
      simp only [mem_append, mem_cons] at hk
      tauto
    rcases hcases with rfl | hk
    · obtain ⟨rfl, -⟩ := BtreePage.leaf.inj (hpage₀.symm.trans page)
      exact ⟨_, es', page', hleft⟩
    · exact ⟨hd, es₀, (same k hk).trans hpage₀, hleft⟩
  cases h with
  | rewrite page page' same => exact hkeep hk page page' same
  | split page page' right same => exact hkeep hk page page' same

theorem LeafStep.leftOk_new (h : LeafStep t t' (A ++ [n]) (A ++ [n, x]) es es') (hne : x ≠ n) :
    LeftOk t' x (some n) := by
  generalize hL : A ++ [n] = L at h
  generalize hL' : A ++ [n, x] = L' at h
  cases h with
  | rewrite page page' same =>
    have hlen := congrArg length (hL.trans hL'.symm)
    simp at hlen
  | @split A' B n' x' left es lefts rights page page' right same =>
    rcases eq_nil_or_concat' B with rfl | ⟨B, b, rfl⟩
    · obtain ⟨rfl, hn⟩ := append_inj' hL rfl
      obtain ⟨-, hx⟩ := append_inj' hL' rfl
      obtain rfl : n = n' := head_eq_of_cons_eq hn
      obtain rfl : x = x' := by simpa using hx
      exact ⟨_, rights, right, rfl⟩
    · -- then the last leaf would still be the last one
      have hlast : some n = some b := by
        simpa only [getLast?_concat, ← cons_append, ← append_assoc] using congrArg getLast? hL
      have hlast' : some x = some b := by
        rw [append_cons] at hL'
        simpa only [getLast?_concat, ← cons_append, ← append_assoc] using congrArg getLast? hL'
      exact absurd (Option.some.inj (hlast'.trans hlast.symm)) hne

theorem LeafStep.leftLinked (h : LeafStep t t' L L' es es') (hleft : LeftLinked t L)
    (hlast : L' = L ∨ ∃ A n x, L = A ++ [n] ∧ L' = A ++ [n, x] ∧ x ≠ n) : LeftLinked t' L' := by
  have hold : LeftLinked t' L := hleft.mono fun _ hk _ hx => h.leftOk (mem_reverse.1 hk) hx
  rcases hlast with rfl | ⟨A, n, x, rfl, rfl, hne⟩
  · exact hold
  · have hrev : (A ++ [n, x]).reverse = x :: (A ++ [n]).reverse := by simp
    rw [LeftLinked, hrev, linked_cons_none]
    refine ⟨?_, hold⟩
    rw [reverse_append]
    exact h.leftOk_new hne

theorem Inv.step_leftLinked (search : BinarySearch) (hK : PrefixFree K) (h : Inv K t L ups)
    (hleft : LeftLinked t L)
    {op : Op} (hkey : op.logicalKey ∈ K) (hsafe : op.LinkSafe t)
    (hok : Btree.step search t op = .ok t') :
    ∃ L' ups', Inv K t' L' ups' ∧ LeftLinked t' L' := by
  rcases op with ⟨env, tx, key, row⟩ | ⟨env, view, tx, key, row⟩
  · obtain ⟨u, hok⟩ := finalState_eq_ok.1 hok
    obtain ⟨hsafe, hlast⟩ := hsafe
    have hkey : key ∈ K := hkey
    obtain ⟨A, n, B, path, left, es, L', ups', es', hL, hfind, hpage, hcase, hinv, hstep, -⟩ :=
      h.insertTx hK hkey hsafe hok
    refine ⟨L', ups', hinv, hstep.leftLinked hleft (hcase.imp_right fun ⟨hfull, x, hL'⟩ => ?_)⟩
    simp only [DividesLast, hfind, hpage] at hlast
    obtain rfl : B = [] := head?_eq_none_iff.1 (Option.map_eq_none_iff.1 (hlast hfull))
    refine ⟨A, n, x, hL, hL', ?_⟩
    rintro rfl
    have hdistinct := hinv.distinct
    rw [hL', flatten_cons, map_append, nodup_append, map_append, nodup_append] at hdistinct
    simpa using hdistinct.1.2.1
  · obtain ⟨u, hok⟩ := finalState_eq_ok.1 hok
    rcases h.deleteMarkTx hok with ⟨before, after, e, hinv, hstep, -⟩ | ⟨rfl, -⟩
    · exact ⟨L, ups, hinv, hstep.leftLinked hleft (.inl rfl)⟩
    · exact ⟨L, ups, h, hleft⟩

/-- After every run of operations that returned `Ok` and divided only the last leaf, as `SplitSafe`
allows, the tree has its structure. -/
theorem structured_of_run (search : BinarySearch) (dirs : List Indexed.SortDir)
    (capacity root : Nat)
    (uniqueness : IndexUniqueness) {ops : List Op} {t : Tree}
    (hkeys : ∀ op ∈ ops, op.logicalKey ∈ Indexed.keysOf dirs)
    (hrun : Run (Btree.step search) Op.LinkSafe (.create capacity uniqueness root) ops t) :
    Structured t := by
  have hinv := hrun.invariant (I := fun ops t => (∀ op ∈ ops, op.logicalKey ∈ Indexed.keysOf dirs) →
    ∃ L ups, Inv (Indexed.keysOf dirs) t L ups ∧ LeftLinked t L)
      (fun _ => ⟨_, _, inv_create .., leftLinked_create ..⟩) ?_ hkeys
  · obtain ⟨L, ups, hinv, hleft⟩ := hinv
    exact hinv.structured hleft
  · intro ops t op t' ih hsafe hok hkeys
    obtain ⟨L, ups, hinv, hleft⟩ := ih fun o ho => hkeys o (mem_append_left _ ho)
    exact hinv.step_leftLinked search (Indexed.prefixFree_keysOf dirs) hleft
      (hkeys op (by simp)) hsafe hok

def ascendingTrace : List (Bytes × Nat) :=
  (List.range 6).map fun i => ([UInt8.ofNat (0x63 + 2 * i), 0x61], i + 1)

theorem structured_of_ascending :
    ∃ t, Run (Btree.step .linear) Op.LinkSafe (.create 300 .nonUnique 1)
      (insertTexts ascendingTrace) t ∧ Structured t := by
  obtain ⟨t, hrun, -⟩ : ∃ t, Run (Btree.step .linear) Op.LinkSafe (.create 300 .nonUnique 1)
      (insertTexts ascendingTrace) t ∧ t.next = 5 := by decide +kernel
  exact ⟨t, hrun, structured_of_run .linear [.asc] 300 1 .nonUnique
    (fun op => insertTexts_key) hrun⟩

def frontTrace : List (Bytes × Nat) := ascendingTrace ++ [([0x63, 0x62], 7), ([0x63, 0x63], 8)]

/-- The page behind the new one still has the first leaf as its left sibling. -/
theorem left_link_stale :
    ∃ t, (∀ op ∈ insertTexts frontTrace, op.logicalKey ∈ Indexed.keysOf [.asc]) ∧
    Run (Btree.step .linear) (fun _ _ => True) (.create 300 .nonUnique 1)
      (insertTexts frontTrace) t ∧
      ¬ Structured t := by
  obtain ⟨t, hrun, hfive, hright, hback⟩ :
      ∃ t, Run (Btree.step .linear) (fun _ _ => True) (.create 300 .nonUnique 1)
      (insertTexts frontTrace) t ∧ (t.findLeafPath (textKey [0x63, 0x63])).toOption.map
      (·.1) = some 5 ∧
      (t.pages 5).readPageHeader.toOption.map (·.right) = some (some 2) ∧
      (t.pages 2).readPageHeader.toOption.map (·.left) = some (some 1) := by decide +kernel
  refine ⟨t, fun op => insertTexts_key, hrun, ?_⟩
  rintro ⟨L, ups, hinv, hleft⟩
  obtain ⟨A, n, B, path, hat, -, hfind⟩ := hinv.findLeafPath (textKey [0x63, 0x63])
  obtain rfl := hat.eq
  rw [hfind] at hfive
  obtain ⟨left, es, hpage, -⟩ := hinv.leaf
  rw [← Option.some.inj hfive, hpage] at hright
  obtain ⟨m, hm, hmtwo⟩ := Option.map_eq_some_iff.1 (Option.some.inj hright)
  obtain ⟨B, rfl⟩ := head?_eq_some_iff.1 hm
  obtain ⟨hd, es', hpage', hlink⟩ := hleft.left
  rw [← hmtwo, hpage'] at hback
  have hone : some n.child = some 1 := hlink.symm.trans (Option.some.inj hback)
  exact absurd (hfive.symm.trans hone) (by decide)

end RedlineDb.Btree
