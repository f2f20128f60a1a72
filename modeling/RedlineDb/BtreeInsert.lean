import RedlineDb.BtreeSplit
import Mathlib.Data.List.Count
import Mathlib.Data.List.TakeWhile

/-!
# What an operation does to the leaves

An operation that returned `Ok` changed the entries of one leaf, or divided one leaf into two
neighbours (`LeafStep`), and the tree is well formed again. For a division this takes a condition
(`SplitSafe`): it does not separate two entries with the same physical key, and, when the parent has
no room for the new separator, the separators of the tree are the keys `min_key_for_page` finds and
stay so.
-/

namespace RedlineDb.Btree
open Lib List
variable {K : Set Bytes} {t t₁ t' : Tree} {L A B : List InternalEntry}
    {ups : List (List InternalEntry)}
  {n x : InternalEntry}

/-! ### Where a leaf is divided -/

section Boundary
variable {es : List LeafEntry}

theorem chooseLeafSplit_mem (h : 2 ≤ es.length) :
    1 ≤ chooseLeafSplit es ∧ chooseLeafSplit es < es.length := by
  unfold chooseLeafSplit
  rw [if_neg (by omega)]
  dsimp only
  cases hfind : ((range es.length).flatMap fun o => [es.length / 2 + o, es.length / 2 - o]).find?
    (distinctAt es) with
  | none => simp only [Option.getD_none]; omega
  | some i =>
    have hi := find?_some hfind
    simp only [distinctAt, Bool.and_eq_true, decide_eq_true_eq] at hi
    rw [Option.getD_some]
    omega

theorem distinctAt_chooseLeafSplit (h : 2 ≤ es.length) :
    distinctAt es (chooseLeafSplit es) = true ∨ ∀ i, distinctAt es i = false := by
  unfold chooseLeafSplit
  rw [if_neg (by omega)]
  dsimp only
  cases hfind : ((range es.length).flatMap fun o => [es.length / 2 + o, es.length / 2 - o]).find?
    (distinctAt es) with
  | some i => exact .inl (find?_some hfind)
  | none =>
    right
    intro i
    by_contra hi
    rw [Bool.not_eq_false] at hi
    have hrange : i < es.length := by
      simp only [distinctAt, Bool.and_eq_true, decide_eq_true_eq] at hi
      omega
    -- every position is the midpoint with some offset
    refine find?_eq_none.1 hfind i (mem_flatMap.2 ?_) hi
    rcases le_total (es.length / 2) i with hle | hle
    · exact ⟨i - es.length / 2, mem_range.2 (by omega), by simp; omega⟩
    · exact ⟨es.length / 2 - i, mem_range.2 (by omega), by simp; omega⟩

theorem logicalKey_eq_of_not_distinctAt (h : ∀ i, distinctAt es i = false) {e : LeafEntry}
    (he : es[0]? = some e)
    {i : Nat} {e' : LeafEntry} (hi : es[i]? = some e') : e'.logicalKey = e.logicalKey := by
  induction i generalizing e' with
  | zero => rw [he] at hi; rw [Option.some.inj hi]
  | succ i ih =>
    have hlt : i + 1 < es.length := (List.getElem?_eq_some_iff.1 hi).1
    have hprev : es[i]? = some es[i] := getElem?_eq_getElem (by omega)
    have hsame := h (i + 1)
    simp only [distinctAt, hi, Nat.add_sub_cancel, hprev, Option.map_some, hlt] at hsame
    have heq : es[i].logicalKey = e'.logicalKey := by simpa using hsame
    rw [← heq]
    exact ih hprev

def Mixed (es : List LeafEntry) : Prop :=
  es.head?.map (·.logicalKey) ≠ es.getLast?.map (·.logicalKey)

instance (es : List LeafEntry) : Decidable (Mixed es) := by unfold Mixed; infer_instance

theorem not_mixed_take (h : ∀ i, distinctAt es i = false) (i : Nat) : ¬ Mixed (es.take i) := by
  unfold Mixed
  rw [not_ne_iff]
  cases hhead : (es.take i).head? with
  | none =>
    rw [head?_eq_none_iff] at hhead
    rw [hhead]
    rfl
  | some e =>
    obtain ⟨l, hl⟩ := head?_eq_some_iff.1 hhead
    have hfirst : es[0]? = some e := by
      have htake : (es.take i)[0]? = some e := by rw [hl]; rfl
      rw [getElem?_take] at htake
      split at htake
      · exact htake
      · cases htake
    cases hlast : (es.take i).getLast? with
    | none =>
      rw [getLast?_eq_none_iff] at hlast
      rw [hlast] at hl
      cases hl
    | some e' =>
      obtain ⟨j, hj⟩ := mem_iff_getElem?.1 (mem_of_mem_take (mem_of_getLast? hlast))
      rw [Option.map_some, Option.map_some, logicalKey_eq_of_not_distinctAt h hfirst hj]

theorem logicalKey_ne_of_mixed (h : 2 ≤ es.length) (hmixed : Mixed (es.take (chooseLeafSplit es))) :
    (es.take (chooseLeafSplit es)).getLast?.map (·.logicalKey) ≠
    (es.drop (chooseLeafSplit es)).head?.map (·.logicalKey) := by
  obtain ⟨h₁, h₂⟩ := chooseLeafSplit_mem h
  have hdistinct : distinctAt es (chooseLeafSplit es) = true :=
    (distinctAt_chooseLeafSplit h).resolve_right fun hd => not_mixed_take hd _ hmixed
  have hprev : es[chooseLeafSplit es - 1]? = some es[chooseLeafSplit es - 1] :=
    getElem?_eq_getElem (by omega)
  simp only [distinctAt, Bool.and_eq_true, decide_eq_true_eq] at hdistinct
  rw [head?_drop, getLast?_take, if_neg (by omega), hprev, Option.some_or, ← hprev]
  exact hdistinct.2

theorem logicalKey_ne_of_distinctAt (hsorted : es.Pairwise (·.logicalKey ≤ ·.logicalKey)) {i : Nat}
    (hi : distinctAt es i = true) {a b : LeafEntry} (ha : a ∈ es.take i) (hb : b ∈ es.drop i) :
    a.logicalKey ≠ b.logicalKey := by
  simp only [distinctAt, Bool.and_eq_true, decide_eq_true_eq] at hi
  obtain ⟨⟨hpos, hlt⟩, hne⟩ := hi
  have hmono : ∀ {j k : Nat} (hjk : j ≤ k) (hk : k < es.length),
      es[j].logicalKey ≤ es[k].logicalKey := by
    intro j k hjk hk
    rcases hjk.eq_or_lt with rfl | hjk
    · exact le_rfl
    · exact pairwise_iff_getElem.1 hsorted j k (by omega) hk hjk
  obtain ⟨j, hj, rfl⟩ := mem_take_iff_getElem.1 ha
  obtain ⟨k, hk, rfl⟩ := mem_drop_iff_getElem.1 hb
  rw [getElem?_eq_getElem (by omega), getElem?_eq_getElem hlt] at hne
  have hstep : es[i - 1].logicalKey < es[i].logicalKey :=
    lt_of_le_of_ne (hmono (by omega) hlt) fun he => hne (congrArg some he)
  have hleft : es[j].logicalKey ≤ es[i - 1].logicalKey := hmono (by omega) (by omega)
  have hright : es[i].logicalKey ≤ es[i + k].logicalKey := hmono (by omega) (by omega)
  exact (hleft.trans_lt (hstep.trans_le hright)).ne

/-- A leaf is divided inside, and between two different logical keys unless it holds only one. The
entries next to the boundary differ in any case; in a leaf sorted by its keys so do all entries on
its two sides. -/
theorem chooseLeafSplit_separates (h : 2 ≤ es.length) :
    0 < chooseLeafSplit es ∧ chooseLeafSplit es < es.length ∧
      ((es[chooseLeafSplit es - 1]?.map (·.logicalKey) ≠ es[chooseLeafSplit es]?.map
        (·.logicalKey) ∧
          (es.Pairwise (·.logicalKey ≤ ·.logicalKey) → ∀ a ∈ es.take (chooseLeafSplit es),
            ∀ b ∈ es.drop (chooseLeafSplit es), a.logicalKey ≠ b.logicalKey)) ∨
        ∀ a ∈ es, ∀ b ∈ es, a.logicalKey = b.logicalKey) := by
  obtain ⟨h₁, h₂⟩ := chooseLeafSplit_mem h
  refine ⟨h₁, h₂, ?_⟩
  rcases distinctAt_chooseLeafSplit h with hd | hd
  · left
    refine ⟨?_, fun hsorted a ha b hb => logicalKey_ne_of_distinctAt hsorted hd ha hb⟩
    simp only [distinctAt, Bool.and_eq_true, decide_eq_true_eq] at hd
    exact hd.2
  · right
    have hfirst : es[0]? = some es[0] := getElem?_eq_getElem (by omega)
    have hall : ∀ a ∈ es, a.logicalKey = es[0].logicalKey := by
      intro a ha
      obtain ⟨i, hi⟩ := mem_iff_getElem?.1 ha
      exact logicalKey_eq_of_not_distinctAt hd hfirst hi
    intro a ha b hb
    rw [hall a ha, hall b hb]

theorem chooseLeafSplit_separates_run :
    let es := [([1], 0), ([1], 1), ([1], 2), ([2], 3)].map fun (key, n) =>
      newEntry 1 key ⟨n, ⟨1, n, 1⟩⟩
    chooseLeafSplit es = 3 ∧ 2 ≤ es.length ∧ 0 < chooseLeafSplit es ∧
      chooseLeafSplit es < es.length :=
  ⟨by decide, by decide, (chooseLeafSplit_separates (by decide)).1,
    (chooseLeafSplit_separates (by decide)).2.1⟩

end Boundary

/-! ### The fences of the halves -/

section Halves
variable {lefts rights es : List LeafEntry} {e : LeafEntry} {y : Option InternalEntry}

theorem leftHigh_fence (hK : PrefixFree K)
    (hsorted : (lefts ++ rights).Pairwise (·.physical ≤ ·.physical))
    (hformed : ∀ e ∈ lefts ++ rights, e.logicalKey ∈ K ∧
      e.physical = physicalKey e.logicalKey e.row)
    (hlefts : lefts ≠ []) (hrights : rights ≠ [])
    (hne : lefts.getLast?.map (·.physical) ≠ rights.head?.map (·.physical)) :
    (∀ e ∈ lefts, e.physical < leftHigh lefts rights) ∧ ∀ e ∈ rights,
    leftHigh lefts rights ≤ e.physical := by
  obtain ⟨l, a, rfl⟩ := eq_nil_or_concat' lefts |>.resolve_left hlefts
  obtain ⟨b, r, rfl⟩ := exists_cons_of_ne_nil hrights
  have hne' : a.physical ≠ b.physical := by simpa using hne
  obtain ⟨haK, ha⟩ := hformed a (by simp)
  obtain ⟨hbK, hb⟩ := hformed b (by simp)
  obtain ⟨hl, hr, hlr⟩ := pairwise_append.1 hsorted
  have hle : a.physical ≤ b.physical := hlr a (by simp) b (by simp)
  have hfence : a.physical < leftHigh (l ++ [a]) (b :: r) ∧
      leftHigh (l ++ [a]) (b :: r) ≤ b.physical := by
    simp only [leftHigh, getLast?_concat, head?_cons]
    split
    case isTrue => exact ⟨lt_of_le_of_ne hle hne', le_rfl⟩
    case isFalse hkey =>
      rw [ha, hb] at hle
      have hlt : a.logicalKey < b.logicalKey :=
        lt_of_le_of_ne (hK.le_of_append_le_append haK hbK hle) hkey
      refine ⟨?_, ?_⟩
      · rw [ha]
        exact hK.append_lt_of_lt haK hbK hlt _
      · rw [hb]
        exact (lt_append_of_ne_nil (by simp [rowRefSuffix, beBytes, leBytes])).le
  refine ⟨fun e he => ?_, fun e he => ?_⟩
  · have hea : e.physical ≤ a.physical := by
      rcases mem_append.1 he with he | he
      · exact (pairwise_append.1 hl).2.2 e he a (by simp)
      · rw [mem_singleton.1 he]
    exact hea.trans_lt hfence.1
  · rcases mem_cons.1 he with rfl | he
    · exact hfence.2
    · exact hfence.2.trans ((pairwise_cons.1 hr).1 e he)

theorem EntriesOk.split (hK : PrefixFree K) (h : EntriesOk K n y (lefts ++ rights))
    (hlefts : lefts ≠ [])
    (hrights : rights ≠ []) (hne : lefts.getLast?.map (·.physical) ≠ rights.head?.map (·.physical))
    (id : Nat) :
    EntriesOk K n (some ⟨leftHigh lefts rights, id⟩) lefts ∧
      EntriesOk K ⟨leftHigh lefts rights, id⟩ y rights ∧
      n.separator < leftHigh lefts rights ∧ ∀ m ∈ y, leftHigh lefts rights < m.separator := by
  obtain ⟨hl, hr⟩ := leftHigh_fence hK h.sorted h.formed hlefts hrights hne
  obtain ⟨a, ha⟩ := exists_mem_of_ne_nil lefts hlefts
  obtain ⟨b, hb⟩ := exists_mem_of_ne_nil rights hrights
  refine ⟨⟨?_, ?_, ?_, ?_⟩, ⟨?_, ?_, hr, ?_⟩, ?_, ?_⟩
  · exact (pairwise_append.1 h.sorted).1
  · exact fun e he => h.formed e (mem_append_left _ he)
  · exact fun e he => h.low e (mem_append_left _ he)
  · rintro e he m ⟨⟩
    exact hl e he
  · exact (pairwise_append.1 h.sorted).2.1
  · exact fun e he => h.formed e (mem_append_right _ he)
  · exact fun e he => h.high e (mem_append_right _ he)
  · exact (h.low a (mem_append_left _ ha)).trans_lt (hl a ha)
  · exact fun m hm => (hr b hb).trans_lt (h.high b (mem_append_right _ hb) m hm)

structure EntryOk (K : Set Bytes) (n : InternalEntry) (y : Option InternalEntry) (e : LeafEntry) :
    Prop where
  key : e.logicalKey ∈ K
  physical : e.physical = physicalKey e.logicalKey e.row
  low : n.separator ≤ e.physical
  high : ∀ m ∈ y, e.physical < m.separator

theorem EntriesOk.of_perm (h : EntriesOk K n y es) {es' : List LeafEntry}
    (hperm : es'.Perm (e :: es))
    (hsorted : es'.Pairwise (·.physical ≤ ·.physical)) (he : EntryOk K n y e) :
    EntriesOk K n y es' where
  sorted := hsorted
  formed a ha := by
    rcases mem_cons.1 (hperm.mem_iff.1 ha) with rfl | ha
    · exact ⟨he.key, he.physical⟩
    · exact h.formed a ha
  low a ha := by
    rcases mem_cons.1 (hperm.mem_iff.1 ha) with rfl | ha
    · exact he.low
    · exact h.low a ha
  high a ha := by
    rcases mem_cons.1 (hperm.mem_iff.1 ha) with rfl | ha
    · exact he.high
    · exact h.high a ha

theorem withEntry_perm (es : List LeafEntry) (e : LeafEntry) : (withEntry es e).Perm (e :: es) :=
  (perm_insertionSort _ _).trans (perm_append_singleton e es)

theorem withEntry_sorted (es : List LeafEntry) (e : LeafEntry) :
    (withEntry es e).Pairwise (·.physical ≤ ·.physical) := by
  exact pairwise_insertionSort _ _

theorem insertIdx_sorted (search : BinarySearch) (h : es.Pairwise (·.physical ≤ ·.physical))
    {found : Bool} {pos : Nat}
    (hfind : search.find es e.physical = (found, pos)) :
    (es.insertIdx pos e).Pairwise (·.physical ≤ ·.physical) ∧ (es.insertIdx pos e).Perm
    (e :: es) := by
  have hpos : pos ≤ es.length ∧ (∀ a ∈ es.take pos, a.physical ≤ e.physical) ∧
      ∀ a ∈ es.drop pos, e.physical ≤ a.physical := by
    cases found with
    | true =>
      obtain ⟨b, hb, hkey⟩ := search.found es _ pos h hfind
      obtain ⟨hlt, hget⟩ := List.getElem?_eq_some_iff.1 hb
      have hdrop : es.drop pos = b :: es.drop (pos + 1) := by rw [drop_eq_getElem_cons hlt, hget]
      have hparts : (es.take pos ++ es.drop pos).Pairwise (·.physical ≤ ·.physical) := by
        rwa [take_append_drop]
      rw [hdrop] at hparts ⊢
      obtain ⟨-, hbs, hab⟩ := pairwise_append.1 hparts
      refine ⟨hlt.le, fun a ha => hkey ▸ hab a ha b (by simp), fun a ha => ?_⟩
      rcases mem_cons.1 ha with rfl | ha
      · exact hkey.ge
      · exact hkey ▸ (pairwise_cons.1 hbs).1 a ha
    | false =>
      obtain ⟨hle, hbefore, hafter⟩ := search.missing es _ pos h hfind
      exact ⟨hle, fun a ha => (hbefore a ha).le, fun a ha => (hafter a ha).le⟩
  obtain ⟨hle, hbefore, hafter⟩ := hpos
  refine ⟨?_, perm_insertIdx e es hle⟩
  have hparts : (es.take pos ++ es.drop pos).Pairwise (·.physical ≤ ·.physical) := by
    rwa [take_append_drop]
  obtain ⟨ht, hd, htd⟩ := pairwise_append.1 hparts
  rw [insertIdx_eq_append hle]
  refine pairwise_append.2 ⟨ht, pairwise_cons.2 ⟨hafter, hd⟩, fun a ha b hb => ?_⟩
  rcases mem_cons.1 hb with rfl | hb
  · exact hbefore a ha
  · exact htd a ha b hb

end Halves

/-! ### The smallest key of a half -/

section MinKeys
variable {lefts rights es : List LeafEntry} {a e : LeafEntry} {y : Option InternalEntry}

theorem exists_getLast (h : es.head? = some a) : ∃ b ∈ es, es.getLast? = some b := by
  obtain ⟨l, rfl⟩ := head?_eq_some_iff.1 h
  exact ⟨_, getLast_mem _, getLast?_eq_some_getLast (cons_ne_nil a l)⟩

theorem leafMinKey_of_mixed (h : es.head? = some a) (hmixed : Mixed es) :
    Tree.leafMinKey es = a.logicalKey := by
  obtain ⟨b, -, hb⟩ := exists_getLast h
  have hne : a.logicalKey ≠ b.logicalKey := by simpa [Mixed, h, hb] using hmixed
  simp only [Tree.leafMinKey, h, hb, if_neg hne]

theorem leafMinKey_of_not_mixed (h : es.head? = some a) (hmixed : ¬ Mixed es) :
    Tree.leafMinKey es = a.physical := by
  obtain ⟨b, -, hb⟩ := exists_getLast h
  have heq : a.logicalKey = b.logicalKey := by simpa [Mixed, h, hb] using hmixed
  simp only [Tree.leafMinKey, h, hb, if_pos heq]

theorem Mixed.exists_ne (h : Mixed es) (key : Bytes) : ∃ a ∈ es, a.logicalKey ≠ key := by
  cases hhead : es.head? with
  | none =>
    rw [head?_eq_none_iff] at hhead
    exact absurd rfl (hhead ▸ h)
  | some a =>
    obtain ⟨b, hb, hlast⟩ := exists_getLast hhead
    have hne : a.logicalKey ≠ b.logicalKey := by simpa [Mixed, hhead, hlast] using h
    by_cases hak : a.logicalKey = key
    · exact ⟨b, hb, fun hbk => hne (hak.trans hbk.symm)⟩
    · exact ⟨a, mem_of_mem_head? hhead, hak⟩

theorem EntriesOk.logicalKey_le (hK : PrefixFree K) (h : EntriesOk K n y es) :
    es.Pairwise (·.logicalKey ≤ ·.logicalKey) := by
  refine h.sorted.imp_of_mem fun {a b} ha hb hab => ?_
  rw [(h.formed a ha).2, (h.formed b hb).2] at hab
  exact hK.le_of_append_le_append (h.formed a ha).1 (h.formed b hb).1 hab

theorem EntriesOk.physical_head_le (h : EntriesOk K n y es) (ha : es.head? = some a) :
    ∀ b ∈ es, a.physical ≤ b.physical := by
  obtain ⟨l, rfl⟩ := head?_eq_some_iff.1 ha
  intro b hb
  rcases mem_cons.1 hb with rfl | hb
  · exact le_rfl
  · exact (pairwise_cons.1 h.sorted).1 b hb

theorem EntriesOk.logicalKey_eq (hK : PrefixFree K) (h : EntriesOk K n y es) (hmixed : ¬ Mixed es)
    (ha : es.head? = some a) : ∀ b ∈ es, b.logicalKey = a.logicalKey := by
  have hle := h.logicalKey_le hK
  obtain ⟨c, -, hlast⟩ := exists_getLast ha
  have heq : a.logicalKey = c.logicalKey := by simpa [Mixed, ha, hlast] using hmixed
  intro b hb
  have hab : a.logicalKey ≤ b.logicalKey := by
    obtain ⟨l, rfl⟩ := head?_eq_some_iff.1 ha
    rcases mem_cons.1 hb with rfl | hb
    · exact le_rfl
    · exact (pairwise_cons.1 hle).1 b hb
  have hbc : b.logicalKey ≤ c.logicalKey := by
    obtain ⟨l, rfl⟩ := getLast?_eq_some_iff.1 hlast
    rcases mem_append.1 hb with hb | hb
    · exact (pairwise_append.1 hle).2.2 b hb c (by simp)
    · rw [mem_singleton.1 hb]
  exact le_antisymm (hbc.trans heq.ge) hab

theorem not_mixed_of_logicalKey_eq {key : Bytes} (h : ∀ b ∈ es, b.logicalKey = key) : ¬ Mixed es :=
  fun hmixed => let ⟨a, ha, hne⟩ := hmixed.exists_ne key; hne (h a ha)

theorem mixed_of_halves {key : Bytes} (hperm : (lefts ++ rights).Perm (e :: es))
    (hlefts : Mixed lefts)
    (hrights : Mixed rights) : ¬ ∀ b ∈ es, b.logicalKey = key := by
  intro hes
  have hcount := hperm.countP_eq fun a => decide (a.logicalKey ≠ key)
  have hzero : es.countP (fun a => decide (a.logicalKey ≠ key)) = 0 :=
    countP_eq_zero.2 fun b hb => by simp [hes b hb]
  have hpos : ∀ l : List LeafEntry, Mixed l → 0 < l.countP fun a => decide (a.logicalKey ≠ key) :=
    fun l hl =>
    let ⟨a, ha, hne⟩ := hl.exists_ne key
    countP_pos_iff.2 ⟨a, ha, by simpa using hne⟩
  have h₁ := hpos lefts hlefts
  have h₂ := hpos rights hrights
  rw [countP_append, countP_cons, hzero] at hcount
  split at hcount <;> omega

theorem leafMinKey_halves (hK : PrefixFree K) (hes : EntriesOk K n y es)
    (hall : EntriesOk K n y (lefts ++ rights))
    (hperm : (lefts ++ rights).Perm (e :: es)) (hlefts : lefts ≠ []) (hrights : rights ≠ [])
    (hmin : n.separator ≠ [] → Tree.leafMinKey es = n.separator)
    (hmixed : ¬ Mixed (lefts ++ rights) ∨ Mixed lefts ∧ Mixed rights)
    (hboundary : Mixed lefts → lefts.getLast?.map (·.logicalKey) ≠ rights.head?.map
      (·.logicalKey)) :
    (n.separator ≠ [] → Tree.leafMinKey lefts = n.separator) ∧
    Tree.leafMinKey rights = leftHigh lefts rights := by
  obtain ⟨a, l, rfl⟩ := exists_cons_of_ne_nil hlefts
  obtain ⟨b, r, rfl⟩ := exists_cons_of_ne_nil hrights
  obtain ⟨z, hz, hlast⟩ := exists_getLast (head?_cons (a := a) (l := l))
  have hhead : (a :: l ++ b :: r).head? = some a := rfl
  have hsub : ∀ c ∈ es, c ∈ a :: l ++ b :: r := fun c hc => hperm.mem_iff.2 (mem_cons_of_mem _ hc)
  have hfirst : n.separator ≠ [] → ∃ c, es.head? = some c := by
    intro hlo
    cases hc : es.head? with
    | none => exact absurd ((hmin hlo).symm.trans (by rw [Tree.leafMinKey, hc])) hlo
    | some c => exact ⟨c, rfl⟩
  rcases hmixed with hone | ⟨hml, hmr⟩
  · have hkey := hall.logicalKey_eq hK hone hhead
    have hl : ¬ Mixed (a :: l) := not_mixed_of_logicalKey_eq fun c hc =>
        hkey c (mem_append_left _ hc)
    have hr : ¬ Mixed (b :: r) := not_mixed_of_logicalKey_eq fun c hc =>
        hkey c (mem_append_right _ hc)
    refine ⟨fun hlo => ?_, ?_⟩
    · obtain ⟨c, hc⟩ := hfirst hlo
      have hcmem := hsub c (mem_of_mem_head? hc)
      have hes' : ¬ Mixed es := not_mixed_of_logicalKey_eq fun d hd => hkey d (hsub d hd)
      have hsep := hmin hlo
      rw [leafMinKey_of_not_mixed hc hes'] at hsep
      rw [leafMinKey_of_not_mixed rfl hl]
      exact le_antisymm (hsep ▸ hall.physical_head_le hhead c hcmem) (hall.low a (by simp))
    · have heq : z.logicalKey = b.logicalKey := by
        rw [hkey z (mem_append_left _ hz), hkey b (by simp)]
      rw [leafMinKey_of_not_mixed rfl hr]
      simp only [leftHigh, hlast, head?_cons, if_pos heq]
  · refine ⟨fun hlo => ?_, ?_⟩
    · obtain ⟨c, hc⟩ := hfirst hlo
      have hcmem := hsub c (mem_of_mem_head? hc)
      have hes' : Mixed es := by
        by_contra hes'
        exact mixed_of_halves hperm hml hmr (hes.logicalKey_eq hK hes' hc)
      have hsep := hmin hlo
      rw [leafMinKey_of_mixed hc hes'] at hsep
      rw [leafMinKey_of_mixed rfl hml]
      have haf := hall.formed a (by simp)
      have hcf := hall.formed c hcmem
      have hac : a.logicalKey ≤ c.logicalKey := by
        have hle := hall.physical_head_le hhead c hcmem
        rw [haf.2, hcf.2] at hle
        exact hK.le_of_append_le_append haf.1 hcf.1 hle
      have hca : c.logicalKey ≤ a.logicalKey := by
        have hlow := hall.low a (by simp)
        rw [← hsep, haf.2] at hlow
        exact hK.le_of_le_append hcf.1 haf.1 hlow
      rw [← hsep]
      exact le_antisymm hac hca
    · have hne : z.logicalKey ≠ b.logicalKey := by simpa [hlast] using hboundary hml
      rw [leafMinKey_of_mixed rfl hmr]
      simp only [leftHigh, hlast, head?_cons, if_neg hne]

end MinKeys

variable {y : Option InternalEntry}

theorem LeafOk.congr (h : LeafOk K t n y) (hsame : t'.pages n.child = t.pages n.child) :
    LeafOk K t' n y := by
  obtain ⟨left, es, hpage, hes⟩ := h
  exact ⟨left, es, hsame.trans hpage, hes⟩

/-- What an operation does to the pages of the leaves `L`: the entries `es` of one leaf become
`es'`, on that leaf or on it and a new right neighbour. -/
inductive LeafStep (t t' : Tree) : List InternalEntry → List InternalEntry → List LeafEntry →
    List LeafEntry → Prop
  | rewrite {A B : List InternalEntry} {n : InternalEntry} {left : Option Nat}
      {es es' : List LeafEntry}
      (page : t.pages n.child = .leaf (headerOf 0 left B.head?) es)
      (page' : t'.pages n.child = .leaf (headerOf 0 left B.head?) es')
      (same : ∀ k, k ∈ A ∨ k ∈ B → t'.pages k.child = t.pages k.child) :
      LeafStep t t' (A ++ n :: B) (A ++ n :: B) es es'
  | split {A B : List InternalEntry} {n x : InternalEntry} {left : Option Nat}
      {es lefts rights : List LeafEntry}
      (page : t.pages n.child = .leaf (headerOf 0 left B.head?) es)
      (page' : t'.pages n.child = .leaf (headerOf 0 left (some x)) lefts)
      (right : t'.pages x.child = .leaf (headerOf 0 (some n.child) B.head?) rights)
      (same : ∀ k, k ∈ A ∨ k ∈ B → t'.pages k.child = t.pages k.child) :
      LeafStep t t' (A ++ n :: B) (A ++ n :: x :: B) es (lefts ++ rights)

theorem Inv.leaf (h : Inv K t (A ++ n :: B) ups) :
    ∃ left es, t.pages n.child = .leaf (headerOf 0 left B.head?) es ∧ EntriesOk K n B.head? es := by
  have hleaves := h.leaves
  rw [linked_append_none, linked_cons_none] at hleaves
  exact hleaves.2.1

variable {k : InternalEntry}

theorem Inv.leaf_ne (h : Inv K t (A ++ n :: B) ups) (hk : k ∈ A ∨ k ∈ B) : k.child ≠ n.child := by
  exact child_ne_of_nodup h.nodup.1 hk

variable {left : Option Nat}

theorem Inv.rewrite (h : Inv K t (A ++ n :: B) ups) {es es' : List LeafEntry}
    (hpage : t.pages n.child = .leaf (headerOf 0 left B.head?) es)
    (hes' : EntriesOk K n B.head? es') :
    Inv K (t.setPage n.child (.leaf (headerOf 0 left B.head?) es')) (A ++ n :: B) ups ∧
      LeafStep t (t.setPage n.child (.leaf (headerOf 0 left B.head?) es')) (A ++ n :: B)
        (A ++ n :: B) es es' := by
  have hsame : ∀ k, k ∈ A ∨ k ∈ B →
      (t.setPage n.child (.leaf (headerOf 0 left B.head?) es')).pages k.child =
      t.pages k.child := fun k hk => Tree.pages_setPage_ne _ (h.leaf_ne hk)
  refine ⟨⟨⟨h.distinct, h.allocated⟩, ?_, h.increasing, ?_⟩,
    .rewrite hpage (Tree.pages_setPage_self ..) hsame⟩
  · have hleaves := h.leaves
    rw [linked_append_none, linked_cons_none] at hleaves ⊢
    exact ⟨hleaves.1.mono fun k hk y hy => hy.congr (hsame k (.inl hk)),
      ⟨left, es', Tree.pages_setPage_self .., hes'⟩,
      hleaves.2.2.mono fun k hk y hy => hy.congr (hsame k (.inr hk))⟩
  · exact h.above.congr rfl fun m hm => Tree.pages_setPage_ne _ (h.nodup.2.2 n (by simp) m hm)

/-- Every separator of the tree is `min_key_for_page` of its child. -/
def SeparatorsMin (t : Tree) : Prop :=
  ∀ id < t.next,
    match t.pages id with
    | .internal _ es => ∀ e ∈ es, (t.minKeyForPage e.child).toOption = some e.separator
    | _ => True

instance (t : Tree) : Decidable (SeparatorsMin t) :=
  @Nat.decidableBallLT t.next _ fun id _ =>
    match t.pages id with
    | .internal .. => inferInstanceAs (Decidable (∀ e ∈ _, _))
    | .leaf .. | .blank | .torn => inferInstanceAs (Decidable True)

theorem minKeyFrom_succ {fuel id : Nat} {key : Bytes} (h : t.minKeyFrom fuel id = .ok key) :
    t.minKeyFrom (fuel + 1) id = .ok key := by
  induction fuel generalizing id with
  | zero => cases h
  | succ fuel ih =>
    rw [Tree.minKeyFrom] at h ⊢
    cases hpage : t.pages id with
    | internal hd es =>
      simp only [hpage] at h ⊢
      cases hleft : hd.left with
      | none => simp only [hleft] at h; cases h
      | some child => simp only [hleft] at h ⊢; exact ih h
    | leaf hd es => simpa only [hpage] using h
    | blank => simpa only [hpage] using h
    | torn => simpa only [hpage] using h

theorem minKeyForPage_left {id left : Nat} {h : PageHeader} {es : List InternalEntry} {key : Bytes}
    (hpage : t.pages id = .internal h es) (hleft : h.left = some left)
    (hkey : t.minKeyForPage id = .ok key) :
    t.minKeyForPage left = .ok key := by
  rw [Tree.minKeyForPage, Tree.minKeyFrom] at hkey
  simp only [hpage, hleft] at hkey
  exact minKeyFrom_succ hkey

/-- The induction goes down from the root: a node is the leftmost child of its parent or stands
behind a separator. -/
theorem Above.minKeyForPage (h : Above t L ups) (hsep : SeparatorsMin t)
    (halloc : ∀ m ∈ ups.flatten, m.child < t.next) :
    ∀ k ∈ L, k.separator ≠ [] → t.minKeyForPage k.child = .ok k.separator := by
  induction h with
  | @root n root low =>
    intro k hk hlo
    rw [mem_singleton.1 hk] at hlo
    exact absurd low hlo
  | @level L M ups linked increasing hkids above ih =>
    intro k hk hlo
    rw [← hkids] at hk
    obtain ⟨m, hm, hkm⟩ := mem_flatMap.1 hk
    obtain ⟨y, lvl, left, es, hpage⟩ := linked.of_mem hm
    rw [children_eq hpage] at hkm
    have hcase : k = ⟨m.separator, left⟩ ∨ k ∈ es := by
      unfold kids at hkm
      split at hkm
      · exact .inr hkm
      · exact mem_cons.1 hkm
    rcases hcase with rfl | hmem
    · exact minKeyForPage_left hpage rfl
        (ih (fun j hj => halloc j (mem_append_right _ hj)) m hm hlo)
    · have hmin := hsep m.child (halloc m (mem_append_left _ hm))
      simp only [hpage] at hmin
      have hkey := hmin k hmem
      cases hok : t.minKeyForPage k.child with
      | error f => rw [hok] at hkey; cases hkey
      | ok key =>
        rw [hok] at hkey
        rw [Option.some.inj hkey]

theorem Inv.leafMinKey (h : Inv K t L ups) (hsep : SeparatorsMin t) (hk : k ∈ L)
    (hlo : k.separator ≠ []) {hd : PageHeader} {es : List LeafEntry}
    (hpage : t.pages k.child = .leaf hd es) :
    Tree.leafMinKey es = k.separator := by
  have hkey := h.above.minKeyForPage hsep (fun m hm => h.allocated m (mem_append_right _ hm))
      k hk hlo
  rw [Tree.minKeyForPage, Tree.minKeyFrom] at hkey
  simp only [hpage] at hkey
  exact Except.ok.inj hkey

theorem TightBelow.of_leaves
    (h : ∀ k ∈ L, k.separator ≠ [] → ∃ hd es, t.pages k.child = .leaf hd es ∧
      Tree.leafMinKey es = k.separator)
    (hups : ∀ k ∈ L, ∀ m ∈ ups.flatten, m.child ≠ k.child) (halloc : ∀ k ∈ L, k.child < t.next)
    (hlen : ups.length ≤ t.next) : TightBelow t L ups := by
  refine ⟨fun id => id ∈ L.map (·.child), 1, ?_, by omega, ?_, ?_⟩
  · intro k hk hlo
    obtain ⟨hd, es, hpage, hmin⟩ := h k hk hlo
    exact hmin ▸ .leaf (mem_map_of_mem hk) hpage
  · intro m hm hmem
    obtain ⟨k, hk, heq⟩ := mem_map.1 hmem
    exact hups k hk m hm heq.symm
  · intro id hid hmem
    obtain ⟨k, hk, rfl⟩ := mem_map.1 hmem
    exact absurd (halloc k hk) (by omega)

/-- What a division of the leaf with the entries `es` for the entry `e` has to keep. -/
def SplitSafe (t : Tree) (path : List Nat) (es : List LeafEntry) (e : LeafEntry) : Prop :=
  let all := withEntry es e
  let left := all.take (chooseLeafSplit all)
  let right := all.drop (chooseLeafSplit all)
  left.getLast?.map (·.physical) ≠ right.head?.map (·.physical) ∧
    (ParentRoom t path ⟨leftHigh left right, t.next⟩ ∨ SeparatorsMin t ∧
      (¬ Mixed all ∨ Mixed left ∧ Mixed right))

instance (t : Tree) (path : List Nat) (es : List LeafEntry) (e : LeafEntry) :
    Decidable (SplitSafe t path es e) := by
  unfold SplitSafe
  infer_instance

variable {env : Env} {emitWal : Bool} {path : List Nat} {u : Unit}
variable {es lefts rights : List LeafEntry} {e : LeafEntry}

theorem EntriesOk.withEntry (h : EntriesOk K n y es) (he : EntryOk K n y e) :
    EntriesOk K n y (withEntry es e) :=
  h.of_perm (withEntry_perm es e) (withEntry_sorted es e) he

/-- The levels above the leaves after the leaf `n` was divided, given those after `propagate_split`.
-/
theorem Inv.of_propagated {ups' : List (List InternalEntry)}
    (h : Inv K t (A ++ n :: B) ups) (hpage : t.pages n.child = .leaf (headerOf 0 left B.head?) es)
    (hdiv : Divided t t₁ n x (.leaf (headerOf 0 left (some x)) lefts)
      (.leaf (headerOf 0 (some n.child) B.head?) rights))
    (hincr : Increasing (A ++ n :: x :: B)) (hlefts : EntriesOk K n (some x) lefts)
    (hrights : EntriesOk K x B.head? rights) (hup : Propagated t₁ t' (A ++ n :: x :: B) ups ups') :
    Inv K t' (A ++ n :: x :: B) ups' ∧ LeafStep t t' (A ++ n :: B) (A ++ n :: x :: B) es
      (lefts ++ rights) := by
  have hpages : ∀ k ∈ A ++ n :: x :: B, t'.pages k.child = t₁.pages k.child := fun k hk =>
    hup.same _ (child_lt_of_insert hdiv h.toOwnPages hk) fun m hm =>
      up_ne_of_insert hdiv h.toOwnPages hk hm
  have hother : ∀ k, k ∈ A ∨ k ∈ B → t'.pages k.child = t.pages k.child := by
    intro k hk
    rw [hpages k (by rcases hk with hk | hk <;> simp [hk])]
    exact hdiv.same_level h.toOwnPages k hk
  have hleft := (hpages n (by simp)).trans hdiv.left
  have hright := (hpages x (by simp)).trans hdiv.right
  refine ⟨⟨⟨hup.distinct_cons hdiv h.toOwnPages, ?_⟩, ?_, hincr, hup.above⟩,
    .split hpage hleft hright hother⟩
  · intro k hk
    have hle := hup.next_le
    have hnext := hdiv.next
    rcases mem_append.1 hk with hk | hk
    · exact (child_lt_of_insert hdiv h.toOwnPages hk).trans_le hle
    · rcases hup.ids k hk with hold | hnew
      · obtain ⟨j, hj, hjk⟩ := mem_map.1 hold
        have := h.allocated j (mem_append_right _ hj)
        omega
      · exact hnew.2
  · have hleaves := h.leaves
    rw [linked_append_none, linked_cons_none] at hleaves
    rw [linked_append_none, linked_cons_none, linked_cons_none]
    exact ⟨hleaves.1.mono fun k hk y hy => hy.congr (hother k (.inl hk)),
      ⟨left, lefts, hleft, hlefts⟩, ⟨some n.child, rights, hright, hrights⟩,
      hleaves.2.2.mono fun k hk y hy => hy.congr (hother k (.inr hk))⟩

theorem increasing_insert (h : Increasing (A ++ n :: B)) (hn : n.separator < x.separator)
    (hB : ∀ m ∈ B.head?, x.separator < m.separator) : Increasing (A ++ n :: x :: B) := by
  rw [Increasing, pairwise_append, pairwise_cons] at h ⊢
  obtain ⟨hA, ⟨hnB, hBB⟩, hAB⟩ := h
  have hxB : ∀ b ∈ B, x.separator < b.separator := by
    cases B with
    | nil => simp
    | cons m B =>
      intro b hb
      rcases mem_cons.1 hb with rfl | hb
      · exact hB _ rfl
      · exact (hB _ rfl).trans ((pairwise_cons.1 hBB).1 b hb)
  refine ⟨hA, ⟨fun b hb => ?_, pairwise_cons.2 ⟨hxB, hBB⟩⟩, fun a ha b hb => ?_⟩
  · rcases mem_cons.1 hb with rfl | hb
    · exact hn
    · exact hnB b hb
  · have hab := hAB a ha
    rcases mem_cons.1 hb with rfl | hb
    · exact hab _ (by simp)
    · rcases mem_cons.1 hb with rfl | hb
      · exact (hab n (by simp)).trans hn
      · exact hab b (by simp [hb])

theorem ParentRoom.congr (h : ParentRoom t path x) (hpath : Path t n ups path)
    (hcapacity : t₁.capacity = t.capacity)
    (hsame : ∀ m ∈ ups.flatten, t₁.pages m.child = t.pages m.child) : ParentRoom t₁ path x := by
  cases hpath with
  | root => trivial
  | parent mem child above =>
    have hpage := hsame _ (mem_append_left _ mem)
    simp only [ParentRoom, hpage, hcapacity] at h ⊢
    exact h

theorem Inv.tightBelow_of_split (h : Inv K t (A ++ n :: B) ups) (hsep : SeparatorsMin t)
    {hd hd' : PageHeader}
    (hdiv : Divided t t₁ n x (.leaf hd lefts) (.leaf hd' rights))
    (hminLeft : n.separator ≠ [] → Tree.leafMinKey lefts = n.separator)
    (hminRight : Tree.leafMinKey rights = x.separator) : TightBelow t₁ (A ++ n :: x :: B) ups := by
  have hups := h.length_ups_lt
  have hnext := hdiv.next
  refine .of_leaves ?_ (fun k hk m hm => up_ne_of_insert hdiv h.toOwnPages hk hm)
    (fun k hk => child_lt_of_insert hdiv h.toOwnPages hk) (by omega)
  · intro k hk hlo
    have hcases : (k ∈ A ∨ k ∈ B) ∨ k = n ∨ k = x := by
      simp only [mem_append, mem_cons] at hk
      tauto
    rcases hcases with hk | rfl | rfl
    · have hmem : k ∈ A ++ n :: B := by rcases hk with hk | hk <;> simp [hk]
      obtain ⟨y, left, es, hpage, -⟩ := h.leaves.of_mem hmem
      exact ⟨_, es, (hdiv.same_level h.toOwnPages k hk).trans hpage,
        h.leafMinKey hsep hmem hlo hpage⟩
    · exact ⟨_, lefts, hdiv.left, hminLeft hlo⟩
    · exact ⟨_, rights, hdiv.right, hminRight⟩

theorem Inv.splitLeaf (hK : PrefixFree K) (h : Inv K t (A ++ n :: B) ups)
    (hpath : Path t n ups path) (hpage : t.pages n.child = .leaf (headerOf 0 left B.head?) es)
    (hes : EntriesOk K n B.head? es) (he : EntryOk K n B.head? e)
    (hfull : t.capacity < required leafLen (withEntry es e))
    (hsafe : SplitSafe t path es e)
    (hok : splitLeafAndInsert env emitWal path n.child (headerOf 0 left B.head?) es e t =
      .ok u t') :
    ∃ x ups', Inv K t' (A ++ n :: x :: B) ups' ∧ LeafStep t t' (A ++ n :: B) (A ++ n :: x :: B) es
      (withEntry es e) := by
  simp only [splitLeafAndInsert, stateful_bind_eq_ok, allocate_eq_ok, rewriteLeaf, rewrite_eq_ok,
    recordPageImage_eq_ok] at hok
  obtain ⟨_, _, ⟨-, rfl, rfl⟩, _, _, ⟨-, hfit, rfl⟩, _, _, ⟨-, -, rfl⟩, _, _, ⟨-, rfl⟩, _, _,
      ⟨-, rfl⟩, hok⟩ := hok
  have hlen : 2 ≤ (withEntry es e).length := by
    by_contra hlt
    rw [chooseLeafSplit, if_pos (by omega), take_length] at hfit
    exact absurd hfit (not_le.2 hfull)
  obtain ⟨hs₁, hs₂⟩ := chooseLeafSplit_mem hlen
  have hall := hes.withEntry he
  have hperm := withEntry_perm es e
  have hboundary := logicalKey_ne_of_mixed hlen
  obtain ⟨hne, hcond⟩ := hsafe
  have htake := take_append_drop (chooseLeafSplit (withEntry es e)) (withEntry es e)
  have hlefts : (withEntry es e).take (chooseLeafSplit (withEntry es e)) ≠ [] := by
    rw [ne_eq, take_eq_nil_iff, ← length_eq_zero_iff]
    omega
  have hrights : (withEntry es e).drop (chooseLeafSplit (withEntry es e)) ≠ [] := by
    rw [ne_eq, drop_eq_nil_iff]
    omega
  generalize (withEntry es e).take (chooseLeafSplit (withEntry es e)) = lefts at *
  generalize (withEntry es e).drop (chooseLeafSplit (withEntry es e)) = rights at *
  rw [← htake] at hall hperm hcond ⊢
  obtain ⟨hL, hR, hlt, hgt⟩ := hall.split hK hlefts hrights hne t.next
  have hincr : Increasing (A ++ n :: ⟨leftHigh lefts rights, t.next⟩ :: B) :=
    increasing_insert h.increasing hlt hgt
  have hdiv := divided (h.allocated n (by simp)) (leftHigh lefts rights)
    (.leaf (headerOf 0 left (some ⟨leftHigh lefts rights, t.next⟩)) lefts)
    (.leaf (headerOf 0 (some n.child) B.head?) rights)
  have hkeep : ∀ m ∈ ups.flatten, _ := fun m hm => hdiv.same_up h.toOwnPages hm
  have hmin (hsep : SeparatorsMin t) (hmixed : ¬ Mixed (lefts ++ rights) ∨ Mixed lefts ∧
      Mixed rights) :=
    leafMinKey_halves hK hes hall hperm hlefts hrights
      (fun hlo => h.leafMinKey hsep (k := n) (by simp) hlo hpage) hmixed
      hboundary
  obtain ⟨ups', hup⟩ := propagateSplit_ok ups (x := ⟨leftHigh lefts rights, t.next⟩) hok
      (h.above.congr hdiv.root hkeep)
    (hpath.congr hkeep) rfl hincr (hdiv.ownPages h.toOwnPages)
    (hcond.imp (fun hroom => hroom.congr hpath hdiv.capacity hkeep)
      fun ⟨hsep, hmixed⟩ => h.tightBelow_of_split hsep hdiv (hmin hsep hmixed).1
        (hmin hsep hmixed).2)
  obtain ⟨hinv, hstep⟩ := h.of_propagated hpage hdiv hincr hL hR hup
  exact ⟨_, ups', hinv, hstep⟩

theorem required_perm {α : Type} {len : α → Nat} {l l' : List α} (h : l.Perm l') :
    required len l = required len l' := by
  unfold required
  rw [(h.map len).sum_nat, h.length_eq]

def InsertSafe (t : Tree) (e : LeafEntry) : Prop :=
  match t.findLeafPath e.physical with
  | .error _ => True
  | .ok (leaf, path) =>
    match t.pages leaf with
    | .leaf _ es => t.capacity < required leafLen (withEntry es e) → SplitSafe t path es e
    | _ => True

instance (t : Tree) (e : LeafEntry) : Decidable (InsertSafe t e) := by
  unfold InsertSafe
  exact match t.findLeafPath e.physical with
    | .error _ => inferInstanceAs (Decidable True)
    | .ok (leaf, _) => by
      dsimp only
      exact match t.pages leaf with
        | .leaf .. => inferInstanceAs (Decidable (_ → _))
        | .internal .. | .blank | .torn => inferInstanceAs (Decidable True)

variable {search : BinarySearch} {view : Option View} {tx : Nat} {key : Bytes} {row : IndexRowRef}

/-- An insert that returned `Ok`. The leaf that covers the entry was divided if it had no room. -/
theorem Inv.insertTx (hK : PrefixFree K) (h : Inv K t L ups) (hkey : key ∈ K)
    (hsafe : InsertSafe t (newEntry tx key row))
    (hok : insertTx search env tx key row t = .ok u t') :
    ∃ A n B path left es L' ups' es', L = A ++ n :: B ∧
      t.findLeafPath (newEntry tx key row).physical = .ok (n.child, path) ∧
      t.pages n.child = .leaf (headerOf 0 left B.head?) es ∧
      (L' = L ∨ t.capacity < required leafLen (withEntry es (newEntry tx key row)) ∧
        ∃ x, L' = A ++ n :: x :: B) ∧
      Inv K t' L' ups' ∧ LeafStep t t' L L' es es' ∧ es'.Perm (newEntry tx key row :: es) := by
  obtain ⟨A, n, B, path, hat, hpath, hfind⟩ := h.findLeafPath (newEntry tx key row).physical
  obtain rfl := hat.eq
  obtain ⟨left, es, hpage, hes⟩ := h.leaf
  have hhigh : ∀ m ∈ B.head?, (newEntry tx key row).physical < m.separator := fun m hm =>
    hat.lt m (mem_of_mem_head? hm)
  have he : EntryOk K n B.head? (newEntry tx key row) := ⟨hkey, rfl, hat.le, hhigh⟩
  simp only [Btree.insertTx, stateful_bind_eq_ok, get_eq_ok, reading_eq_ok] at hok
  obtain ⟨_, _, ⟨rfl, rfl⟩, _, _, ⟨hpath', rfl⟩, hok⟩ := hok
  obtain rfl := Except.ok.inj (hfind.symm.trans hpath')
  simp only [InsertSafe, hfind, hpage] at hsafe
  simp only [hpage, pastHigh_headerOf hhigh, Bool.false_eq_true, if_false] at hok
  obtain ⟨hsorted, hperm⟩ := insertIdx_sorted search hes.sorted (e := newEntry tx key row) rfl
  have hrequired : required leafLen (es.insertIdx _ (newEntry tx key row)) =
      required leafLen (withEntry es (newEntry tx key row)) :=
        required_perm (hperm.trans (withEntry_perm es _).symm)
  split at hok
  · exact absurd hok throw_eq_ok
  · split at hok
    case isTrue hfull =>
      rw [hrequired] at hfull
      obtain ⟨x, ups', hinv, hstep⟩ := h.splitLeaf hK hpath hpage hes he hfull (hsafe hfull) hok
      exact ⟨A, n, B, path, left, es, _, ups', _, rfl, hfind, hpage, .inr ⟨hfull, x, rfl⟩, hinv,
        hstep, withEntry_perm _ _⟩
    case isFalse hroom =>
      simp only [stateful_bind_eq_ok, rewriteLeaf, rewrite_eq_ok, recordPageImage_eq_ok] at hok
      obtain ⟨_, _, ⟨-, -, rfl⟩, -, rfl⟩ := hok
      obtain ⟨hinv, hstep⟩ := h.rewrite hpage (hes.of_perm hperm hsorted he)
      exact ⟨A, n, B, path, left, es, _, ups, _, rfl, hfind, hpage, .inl rfl, hinv, hstep, hperm⟩

def Matches (key : Bytes) (row : IndexRowRef) (e : LeafEntry) : Prop :=
  e.logicalKey = key ∧ e.row = row

instance (key : Bytes) (row : IndexRowRef) (e : LeafEntry) : Decidable (Matches key row e) := by
  unfold Matches
  infer_instance

theorem EntriesOk.mark {before after : List LeafEntry} (h : EntriesOk K n y (before ++ e :: after))
    (tx : Nat) :
    EntriesOk K n y (before ++ { e with deleteTx := tx } :: after) := by
  have hsorted := h.sorted
  have hformed := h.formed
  have hlow := h.low
  have hhigh := h.high
  rw [pairwise_append, pairwise_cons] at hsorted
  rw [forall_mem_append, forall_mem_cons] at hformed hlow hhigh
  -- nothing that is said of an entry reads its marker
  refine ⟨pairwise_append.2 ⟨hsorted.1, pairwise_cons.2 hsorted.2.1, fun a ha => ?_⟩,
    forall_mem_append.2 ⟨hformed.1, ?_⟩,
    forall_mem_append.2 ⟨hlow.1, ?_⟩, forall_mem_append.2 ⟨hhigh.1, ?_⟩⟩
  · exact forall_mem_cons.2 (forall_mem_cons.1 (hsorted.2.2 a ha))
  · exact forall_mem_cons.2 hformed.2
  · exact forall_mem_cons.2 hlow.2
  · exact forall_mem_cons.2 hhigh.2

theorem Inv.deleteMarkFrom_missing (h : Inv K t L ups)
    (hnone : ∀ e ∈ contents t L, ¬ Matches key row e)
    {k : InternalEntry} (hk : k ∈ L) {fuel : Nat}
    (hok : deleteMarkFrom env view tx key row fuel k.child t = .ok u t') : t' = t := by
  induction fuel generalizing k with
  | zero => exact absurd hok throw_eq_ok
  | succ fuel ih =>
    obtain ⟨y, ⟨left, es, hpage, hes⟩, hy⟩ := h.leaves.of_mem_none hk
    have hright : ∀ r, (headerOf 0 left y).right = some r → ∃ m ∈ L, m.child = r := by
      intro r hr
      obtain ⟨m, hm, rfl⟩ := Option.map_eq_some_iff.1 hr
      exact ⟨m, hy m hm, rfl⟩
    have hall : es.takeWhile (fun e => ¬ (e.logicalKey = key ∧ e.row = row)) = es := by
      refine takeWhile_eq_self_iff.2 fun e he => ?_
      have hmem : e ∈ contents t L := mem_flatMap.2 ⟨k, hk, by rw [hpage]; exact he⟩
      exact decide_eq_true (hnone e hmem)
    simp only [deleteMarkFrom, stateful_bind_eq_ok, get_eq_ok] at hok
    obtain ⟨_, _, ⟨rfl, rfl⟩, hok⟩ := hok
    simp only [hpage, hall, drop_length] at hok
    cases hr : (headerOf 0 left y).right with
    | none =>
      simp only [hr] at hok
      split at hok
      · exact absurd hok throw_eq_ok
      · split at hok <;> exact (stateful_pure_eq_ok.1 hok).2.symm
    | some r =>
      obtain ⟨m, hm, rfl⟩ := hright r hr
      simp only [hr] at hok
      split at hok
      · exact ih hm hok
      · split at hok
        · exact ih hm hok
        · exact (stateful_pure_eq_ok.1 hok).2.symm

theorem Inv.mem_leaf (h : Inv K t L ups) (hat : At (·.separator) L key A n B)
    (he : e ∈ contents t L) (hkey : e.physical = key) : e ∈ (t.pages n.child).leafEntries := by
  obtain rfl := hat.eq
  obtain ⟨k, hk, hmem⟩ := mem_flatMap.1 he
  rcases mem_append.1 hk with hk | hk
  · have hlt := (pairwise_append.1 h.pairwise_lt).2.2 k hk n (by simp) e hmem
    exact absurd hat.le (not_le.2 (hkey ▸ hlt))
  · rcases mem_cons.1 hk with rfl | hk
    · exact hmem
    · obtain ⟨y, hy⟩ := h.leaves.of_mem (n := k) (by simp [hk])
      exact absurd (hy.mem hmem).2.2.1 (not_le.2 (hkey ▸ hat.lt k hk))

theorem Inv.deleteMarkTx (h : Inv K t L ups) (hok : deleteMarkTx env view tx key row t = .ok u t') :
    (∃ before after e, Inv K t' L ups ∧
      LeafStep t t' L L (before ++ e :: after) (before ++ { e with deleteTx := tx } :: after) ∧
        Matches key row e ∧
        deleteMarkerVisible e.deleteTx view = false) ∨
    t' = t ∧ ((∀ e ∈ contents t L, ¬ Matches key row e) ∨
      ∃ e ∈ contents t L, Matches key row e ∧ deleteMarkerVisible e.deleteTx view = true) := by
  obtain ⟨A, n, B, path, hat, -, hfind⟩ := h.findLeafPath (physicalKey key row)
  have hL := hat.eq
  have hn : n ∈ L := by simp [hL]
  simp only [Btree.deleteMarkTx, stateful_bind_eq_ok, get_eq_ok, reading_eq_ok] at hok
  obtain ⟨_, _, ⟨rfl, rfl⟩, _, _, ⟨hpath', rfl⟩, hok⟩ := hok
  obtain rfl := Except.ok.inj (hfind.symm.trans hpath')
  by_cases hex : ∃ e ∈ contents t L, Matches key row e
  · obtain ⟨e₀, he₀, hmatch₀⟩ := hex
    have hphysical : e₀.physical = physicalKey key row := by
      rw [(h.mem_contents he₀).2, hmatch₀.1, hmatch₀.2]
    have hleaf := h.mem_leaf hat he₀ hphysical
    subst hL
    obtain ⟨left, es, hpage, hes⟩ := h.leaf
    rw [hpage] at hleaf
    have hhigh : ∀ m ∈ B.head?, physicalKey key row < m.separator := fun m hm =>
      hat.lt m (mem_of_mem_head? hm)
    -- the first match on the leaf
    set p : LeafEntry → Bool := fun e => decide (¬ (e.logicalKey = key ∧ e.row = row)) with hp
    have hsplit := takeWhile_append_dropWhile (p := p) (l := es)
    simp only [deleteMarkFrom, stateful_bind_eq_ok, get_eq_ok] at hok
    obtain ⟨_, _, ⟨rfl, rfl⟩, hok⟩ := hok
    simp only [hpage, pastHigh_headerOf hhigh, Bool.false_eq_true, if_false] at hok
    rw [← hp, drop_length_takeWhile] at hok
    rcases hrest : es.dropWhile p with _ | ⟨e, after⟩
    · exact absurd hmatch₀ (of_decide_eq_true (dropWhile_eq_nil_iff.1 hrest e₀ hleaf))
    · have hmatch : Matches key row e := by
        have hno : p ((es.dropWhile p).head (by simp [hrest])) = false := head_dropWhile_not p _
        simp only [hrest, head_cons] at hno
        exact not_not.1 (of_decide_eq_false hno)
      rw [hrest] at hsplit hok
      generalize es.takeWhile p = before at hsplit hok
      subst hsplit
      simp only at hok
      split at hok
      case isTrue hvis =>
        have hmem : e ∈ contents t (A ++ n :: B) := by
          rw [contents_append, contents_cons hpage]
          simp
        exact .inr ⟨(stateful_pure_eq_ok.1 hok).2.symm, .inr ⟨e, hmem, hmatch, hvis⟩⟩
      case isFalse hvis =>
        simp only [stateful_bind_eq_ok, rewriteLeaf, rewrite_eq_ok, recordPageImage_eq_ok] at hok
        obtain ⟨_, _, ⟨-, -, rfl⟩, -, rfl⟩ := hok
        obtain ⟨hinv, hstep⟩ := h.rewrite hpage (hes.mark tx)
        exact .inl ⟨before, after, e, hinv, hstep, hmatch, by simpa using hvis⟩
  · have hnone : ∀ e ∈ contents t L, ¬ Matches key row e := fun e he hm => hex ⟨e, he, hm⟩
    exact .inr ⟨h.deleteMarkFrom_missing hnone hn hok, .inl hnone⟩

end RedlineDb.Btree
