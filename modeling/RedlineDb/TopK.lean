import Mathlib.Data.List.Induction
import RedlineDb.IndexKeys

/-!
# The top-K heap

`exec/vec/topk.rs`: of the rows pushed into it, the heap keeps `k`, and a new row takes the place of
the worst kept one if it is before it. Rows with equal keys are told apart by the order they came
in, so what is kept is the beginning of the stable sort (`into_sorted_rows_eq`).
-/

namespace RedlineDb.TopK
open Indexed List

inductive SortDirection
  | asc | desc | ascNullsLast | descNullsFirst
deriving DecidableEq

abbrev Key := { v : OwnedValue // ∀ bits, v ≠ .real bits }

namespace SortDirection

def isDesc (d : SortDirection) : Bool := d = .desc ∨ d = .descNullsFirst

def nullsFirst (d : SortDirection) : Bool := d = .asc ∨ d = .descNullsFirst

def compareValues (d : SortDirection) (left right : Key) : Ordering :=
  if left.1 = .null then
    if right.1 = .null then .eq else if d.nullsFirst then .lt else .gt
  else if right.1 = .null then if d.nullsFirst then .gt else .lt
  else if d.isDesc then (Indexed.compareValues left.1 right.1).swap
    else Indexed.compareValues left.1 right.1

end SortDirection

/-- The loop over the keys in `HeapEntry::cmp`. -/
def compareKeys : List SortDirection → List Key → List Key → Ordering
  | d :: dirs, l :: left, r :: right => (d.compareValues l r).then (compareKeys dirs left right)
  | _, _, _ => .eq

/-- NULL comes first under ASC and DESC NULLS FIRST and last under the others; DESC turns the order
of the values around. -/
theorem compareValues_lt_iff (d : SortDirection) (l r : Key) : d.compareValues l r = .lt ↔
    l.1 = .null ∧ r.1 ≠ .null ∧ (d = .asc ∨ d = .descNullsFirst) ∨
    l.1 ≠ .null ∧ r.1 = .null ∧ (d = .desc ∨ d = .ascNullsLast) ∨
    l.1 ≠ .null ∧ r.1 ≠ .null ∧
      Indexed.compareValues l.1 r.1 = if d = .asc ∨ d = .ascNullsLast then .lt else .gt := by
  by_cases hl : l.1 = .null <;> by_cases hr : r.1 = .null <;> cases d <;>
    simp [SortDirection.compareValues, SortDirection.nullsFirst, SortDirection.isDesc, hl, hr,
      Ordering.swap_eq_lt]

/-- The first column that is not equal decides. -/
theorem compareKeys_lt_iff {dirs : List SortDirection} {a b : List Key} :
    compareKeys dirs a b = .lt ↔
    ∃ equal d l r rest, dirs.zip (a.zip b) = equal ++ (d, l, r) :: rest ∧
      (∀ c ∈ equal, c.1.compareValues c.2.1 c.2.2 = .eq) ∧ d.compareValues l r = .lt := by
  fun_induction compareKeys dirs a b with
  | case1 d dirs l left r right ih =>
    rw [Ordering.then_eq_lt, ih]
    constructor
    · rintro (hlt | ⟨heq, equal, d', l', r', rest, hzip, hall, hlt⟩)
      · exact ⟨[], d, l, r, dirs.zip (left.zip right), rfl, by simp, hlt⟩
      · exact ⟨(d, l, r) :: equal, d', l', r', rest, congrArg _ hzip,
          forall_mem_cons.2 ⟨heq, hall⟩, hlt⟩
    · rintro ⟨_ | ⟨c, equal⟩, d', l', r', rest, hzip, hall, hlt⟩
      · cases hzip
        exact .inl hlt
      · obtain ⟨rfl, htail⟩ := cons.inj hzip
        rw [forall_mem_cons] at hall
        exact .inr ⟨hall.1, equal, d', l', r', rest, htail, hall.2, hlt⟩
  | case2 dirs a b hshort =>
    refine iff_of_false (by decide) ?_
    rintro ⟨equal, d, l, r, rest, hzip, -⟩
    match dirs, a, b, hshort, hzip with
    | [], _, _, _, hzip | _ :: _, [], _, _, hzip | _ :: _, _ :: _, [], _, hzip => simp at hzip
    | _ :: _, _ :: _, _ :: _, hshort, _ => exact hshort _ _ _ _ _ _ rfl rfl rfl

def sortPart : OwnedValue → Nat × Int × Bytes
  | .null => (0, 0, [])
  | .integer v => (1, v, [])
  | .real _ => (2, 0, [])
  | .text v => (3, 0, v)
  | .blob v => (4, 0, v)

instance transCmp_values : Std.TransCmp fun l r : Key => Indexed.compareValues l.1 r.1 := by
  have heq : (fun l r : Key => Indexed.compareValues l.1 r.1) =
      compareLex (compareOn fun v => (sortPart v.1).1)
      (compareLex (compareOn fun v => (sortPart v.1).2.1)
        (compareOn fun v => (sortPart v.1).2.2)) := by
    funext ⟨l, hl⟩ ⟨r, hr⟩
    cases l with
    | real bits => exact absurd rfl (hl bits)
    | null | integer | text | blob =>
      cases r with
      | real bits => exact absurd rfl (hr bits)
      | null | integer | text
      | blob => simp [Indexed.compareValues, compareLex, compareOn, sortPart] <;> rfl
  rw [heq]
  infer_instance

instance transCmp_direction (d : SortDirection) : Std.TransCmp d.compareValues := by
  have heq : d.compareValues = compareLex
      (compareOn fun v => if v.1 = .null then bif d.nullsFirst then 0 else 2 else 1)
      (bif d.isDesc then fun l r => Indexed.compareValues r.1 l.1 else fun l r =>
        Indexed.compareValues l.1 r.1) := by
    funext l r
    have hswap : Indexed.compareValues r.1 l.1 = (Indexed.compareValues l.1 r.1).swap :=
      transCmp_values.eq_swap
    have hnull : Indexed.compareValues .null .null = .eq := rfl
    by_cases hl : l.1 = .null <;> by_cases hr : r.1 = .null <;> cases hn : d.nullsFirst <;>
      cases hd : d.isDesc <;>
      simp [SortDirection.compareValues, compareLex, compareOn, hl, hr, hn, hd, hswap, hnull] <;>
        rfl
  rw [heq]
  cases d.isDesc with
  | false =>
    exact inferInstanceAs
      (Std.TransCmp (compareLex _ fun l r : Key => Indexed.compareValues l.1 r.1))
  | true =>
    have := transCmp_values.opposite
    exact inferInstanceAs
      (Std.TransCmp (compareLex _ fun l r : Key => Indexed.compareValues r.1 l.1))

abbrev Keys (dirs : List SortDirection) := { ks : List Key // ks.length = dirs.length }

theorem compareKeys_swap (dirs : List SortDirection) (a b : List Key) :
    compareKeys dirs a b = (compareKeys dirs b a).swap := by
  fun_induction compareKeys dirs a b with
  | case1 d dirs l left r right ih =>
    rw [compareKeys, Ordering.swap_then, ← ih, ← (transCmp_direction d).eq_swap]
  | case2 dirs a b h =>
    rcases dirs with _ | ⟨d, dirs⟩
    · rfl
    · rcases a with _ | ⟨l, a⟩
      · cases b <;> rfl
      · rcases b with _ | ⟨r, b⟩
        · rfl
        · exact (h d dirs l a r b rfl rfl rfl).elim

theorem compareKeys_trans {dirs : List SortDirection} {a b c : List Key}
    (ha : a.length = dirs.length)
    (hb : b.length = dirs.length) (hc : c.length = dirs.length) (hab : (compareKeys dirs a b).isLE)
    (hbc : (compareKeys dirs b c).isLE) : (compareKeys dirs a c).isLE := by
  induction dirs generalizing a b c with
  | nil => rfl
  | cons d dirs ih =>
    obtain ⟨x, a, rfl⟩ := exists_cons_of_length_eq_add_one ha
    obtain ⟨y, b, rfl⟩ := exists_cons_of_length_eq_add_one hb
    obtain ⟨z, c, rfl⟩ := exists_cons_of_length_eq_add_one hc
    simp only [compareKeys, Ordering.isLE_then_iff_and] at hab hbc ⊢
    refine ⟨Std.TransCmp.isLE_trans hab.1 hbc.1, ?_⟩
    rcases hab.2 with hlt | hrest
    · exact .inl (Std.TransCmp.lt_of_lt_of_isLE hlt hbc.1)
    · rcases hbc.2 with hlt' | hrest'
      · exact .inl (Std.TransCmp.lt_of_isLE_of_lt hab.1 hlt')
      · exact .inr (ih (Nat.succ.inj ha) (Nat.succ.inj hb) (Nat.succ.inj hc) hrest hrest')

variable {dirs : List SortDirection}

structure HeapEntry (dirs : List SortDirection) where
  keys : Keys dirs
  row : Row
  seq : Nat

def HeapEntry.cmp (a b : HeapEntry dirs) : Ordering :=
  (compareKeys dirs a.keys.1 b.keys.1).then (compare a.seq b.seq)

instance transCmp_keys :
    Std.TransCmp fun a b : HeapEntry dirs => compareKeys dirs a.keys.1 b.keys.1 where
  eq_swap := compareKeys_swap dirs _ _
  isLE_trans {a b c} hab hbc := compareKeys_trans a.keys.2 b.keys.2 c.keys.2 hab hbc

instance transCmp_entry : Std.TransCmp (@HeapEntry.cmp dirs) :=
  inferInstanceAs
    (Std.TransCmp (compareLex (fun a b : HeapEntry dirs => compareKeys dirs a.keys.1 b.keys.1)
    (compareOn (·.seq))))

/-- `BinaryHeap::push`, on the elements of the heap in ascending order. -/
def pushHeap (e : HeapEntry dirs) : List (HeapEntry dirs) → List (HeapEntry dirs)
  | [] => [e]
  | a :: heap => if e.cmp a = .lt then e :: a :: heap else a :: pushHeap e heap

structure TopKHeap (dirs : List SortDirection) where
  k : Nat
  heap : List (HeapEntry dirs)
  seen : Nat

namespace TopKHeap

def new (dirs : List SortDirection) (k : Nat) : TopKHeap dirs := ⟨k, [], 0⟩

/-- What `push` makes of the heap: `peek` is its last element, and `pop` removes it. -/
def kept (k : Nat) (heap : List (HeapEntry dirs)) (entry : HeapEntry dirs) :
    List (HeapEntry dirs) :=
  if heap.length < k then pushHeap entry heap
  else
    match heap.getLast? with
    | some top => if entry.cmp top = .lt then pushHeap entry heap.dropLast else heap
    | none => heap

/-- `seen` saturates. -/
def push (h : TopKHeap dirs) (keys : Keys dirs) (row : Row) : TopKHeap dirs :=
  if h.k = 0 then h
  else { h with heap := kept h.k h.heap ⟨keys, row, h.seen⟩, seen := min (h.seen + 1) (2 ^ 64 - 1) }

def intoSortedRows (h : TopKHeap dirs) : List Row := h.heap.map (·.row)

end TopKHeap

variable {e : HeapEntry dirs} {heap : List (HeapEntry dirs)} {k : Nat}

theorem isLE_of_not_lt {a b : HeapEntry dirs} (h : a.cmp b ≠ .lt) : (b.cmp a).isLE :=
  Ordering.isLE_iff_ne_gt.2 fun hgt => h (Std.OrientedCmp.gt_iff_lt.1 hgt)

theorem perm_pushHeap (e : HeapEntry dirs) (heap : List (HeapEntry dirs)) :
    pushHeap e heap ~ e :: heap := by
  induction heap with
  | nil => exact .refl _
  | cons a heap ih =>
    unfold pushHeap
    split
    · exact .refl _
    · exact (ih.cons a).trans (.swap e a heap)

theorem pairwise_pushHeap (h : heap.Pairwise fun a b => (a.cmp b).isLE) :
    (pushHeap e heap).Pairwise fun a b => (a.cmp b).isLE := by
  induction heap with
  | nil => exact pairwise_singleton _ _
  | cons a heap ih =>
    obtain ⟨ha, hrest⟩ := pairwise_cons.1 h
    unfold pushHeap
    split
    · next hlt =>
      have hea := Ordering.isLE_of_eq_lt hlt
      refine pairwise_cons.2 ⟨fun b hb => ?_, h⟩
      rcases mem_cons.1 hb with rfl | hb
      · exact hea
      · exact Std.TransCmp.isLE_trans hea (ha b hb)
    · next hge =>
      refine pairwise_cons.2 ⟨fun b hb => ?_, ih hrest⟩
      rcases mem_cons.1 ((perm_pushHeap e heap).subset hb) with rfl | hb
      · exact isLE_of_not_lt hge
      · exact ha b hb

theorem take_pushHeap (k : Nat) : (pushHeap e heap).take k = (pushHeap e (heap.take k)).take k := by
  induction heap generalizing k with
  | nil => rw [take_nil]
  | cons a heap ih =>
    cases k with
    | zero => rfl
    | succ k =>
      rw [take_succ_cons, pushHeap, pushHeap]
      split
      · cases k <;> simp [take_take]
      · rw [take_succ_cons, take_succ_cons, ih k]

theorem pushHeap_concat {top : HeapEntry dirs} (h : e.cmp top = .lt) :
    pushHeap e (heap ++ [top]) = pushHeap e heap ++ [top] := by
  induction heap with
  | nil => exact if_pos h
  | cons a heap ih =>
    rw [cons_append, pushHeap, pushHeap, ih]
    split <;> rfl

theorem pushHeap_last (h : ∀ a ∈ heap, e.cmp a ≠ .lt) : pushHeap e heap = heap ++ [e] := by
  induction heap with
  | nil => rfl
  | cons a heap ih =>
    rw [pushHeap, if_neg (h a mem_cons_self), ih fun b hb => h b (mem_cons_of_mem _ hb),
      cons_append]

theorem kept_eq (hk : k ≠ 0) (hlen : heap.length ≤ k)
    (h : heap.Pairwise fun a b => (a.cmp b).isLE) :
    TopKHeap.kept k heap e = (pushHeap e heap).take k := by
  have hsize (l : List (HeapEntry dirs)) : (pushHeap e l).length = l.length + 1 :=
    (perm_pushHeap e l).length_eq
  unfold TopKHeap.kept
  split
  · exact (take_of_length_le (by rw [hsize]; omega)).symm
  · next hfull =>
    rcases eq_nil_or_concat' heap with rfl | ⟨init, top, rfl⟩
    · exact absurd (by simpa using hfull) hk
    · rw [length_append, length_singleton] at hfull hlen
      rw [getLast?_concat, dropLast_concat]
      dsimp only
      split
      · next hlt => rw [pushHeap_concat hlt, take_left' (by rw [hsize]; omega)]
      · next hge =>
        -- nothing in the heap is above its last element
        have hlast : ∀ a ∈ init ++ [top], e.cmp a ≠ .lt := fun a ha hlt => by
          rcases mem_append.1 ha with ha | ha
          · exact hge (Std.TransCmp.lt_of_lt_of_isLE hlt
              ((pairwise_append.1 h).2.2 a ha top mem_cons_self))
          · exact hge (mem_singleton.1 ha ▸ hlt)
        rw [pushHeap_last hlast, take_left' (by rw [length_append, length_singleton]; omega)]

/-- The entry of a row, by its place among the rows pushed. -/
def entryOf (p : (Keys dirs × Row) × Nat) : HeapEntry dirs := ⟨p.1.1, p.1.2, p.2⟩

theorem foldl_push (hk : k ≠ 0) {rows : List (Keys dirs × Row)} (hlen : rows.length < 2 ^ 64) :
    ∃ es, rows.foldl (fun h r => h.push r.1 r.2) (TopKHeap.new dirs k) =
      ⟨k, es.take k, rows.length⟩ ∧
      es ~ rows.zipIdx.map entryOf ∧ es.Pairwise fun a b => (a.cmp b).isLE := by
  induction rows using reverseRecOn with
  | nil => exact ⟨[], by simp [TopKHeap.new], .refl _, .nil⟩
  | append_singleton rows r ih =>
    rw [length_append, length_singleton] at hlen ⊢
    obtain ⟨es, hfold, hperm, hsorted⟩ := ih (by omega)
    refine ⟨pushHeap ⟨r.1, r.2, rows.length⟩ es, ?_, ?_, pairwise_pushHeap hsorted⟩
    · rw [foldl_append, hfold, foldl_cons, foldl_nil, TopKHeap.push, if_neg hk,
        min_eq_left (show rows.length + 1 ≤ 2 ^ 64 - 1 by omega), take_pushHeap,
        kept_eq hk (length_take_le _ _) (hsorted.sublist (take_sublist k es))]
    · rw [zipIdx_append, map_append, Nat.zero_add]
      exact (perm_pushHeap _ es).trans ((hperm.cons _).trans (perm_append_singleton _ _).symm)

/-- Whatever is pushed, the heap returns the first `k` rows of the stable sort by the keys. -/
theorem into_sorted_rows_eq (dirs : List SortDirection) (k : Nat)
    (rows : { rows : List (Keys dirs × Row) // rows.length < 2 ^ 64 }) :
    (rows.1.foldl (fun h r => h.push r.1 r.2) (TopKHeap.new dirs k)).intoSortedRows =
      ((rows.1.mergeSort fun a b => (compareKeys dirs a.1.1 b.1.1).isLE).take k).map (·.2) := by
  obtain ⟨rows, hlen⟩ := rows
  by_cases hk : k = 0
  · subst hk
    have hnone : rows.foldl (fun h r => h.push r.1 r.2) (TopKHeap.new dirs 0) = .new dirs 0 := by
      clear hlen
      induction rows with
      | nil => rfl
      | cons r rows ih => exact ih
    rw [hnone, take_zero]
    rfl
  · obtain ⟨es, hfold, hperm, hsorted⟩ := foldl_push hk hlen
    have hanti : ∀ a b, a ∈ es →
        b ∈ (rows.zipIdx.map entryOf).mergeSort (fun a b => (a.cmp b).isLE) →
        (a.cmp b).isLE → (b.cmp a).isLE → a = b := by
      intro a b ha hb hab hba
      obtain ⟨⟨r, i⟩, hr, rfl⟩ := mem_map.1 (hperm.subset ha)
      obtain ⟨⟨q, j⟩, hq, rfl⟩ := mem_map.1 ((mergeSort_perm _ _).subset hb)
      have heq := Std.OrientedCmp.isLE_antisymm hab hba
      have hij : i = j := by simpa [entryOf] using (Ordering.then_eq_eq.1 heq).2
      subst hij
      rw [Option.some.inj
        ((mk_mem_zipIdx_iff_getElem?.1 hr).symm.trans (mk_mem_zipIdx_iff_getElem?.1 hq))]
    have hes : es = (rows.zipIdx.map entryOf).mergeSort fun a b => (a.cmp b).isLE := by
      refine Perm.eq_of_pairwise hanti hsorted
        (pairwise_mergeSort (fun _ _ _ => Std.TransCmp.isLE_trans)
        (fun a b => ?_) _) (hperm.trans (mergeSort_perm _ _).symm)
      rw [Bool.or_eq_true]
      exact (em (a.cmp b = .lt)).imp Ordering.isLE_of_eq_lt isLE_of_not_lt
    -- sorting by the keys and the places is the stable sort by the keys
    have hsort : (rows.zipIdx.map entryOf).mergeSort (fun a b => (a.cmp b).isLE) =
        (rows.zipIdx.mergeSort (zipIdxLE fun a b => (compareKeys dirs a.1.1 b.1.1).isLE)).map
        entryOf := by
      refine (map_mergeSort fun a _ b _ => ?_).symm
      have hswap := compareKeys_swap dirs b.1.1.1 a.1.1.1
      rw [Bool.eq_iff_iff]
      simp only [zipIdxLE, entryOf, HeapEntry.cmp]
      cases hc : compareKeys dirs a.1.1.1 b.1.1.1 <;> simp [hswap, hc, Nat.isLE_compare]
    have hrows : rows.mergeSort (fun a b => (compareKeys dirs a.1.1 b.1.1).isLE) =
        (rows.zipIdx.mergeSort (zipIdxLE fun a b => (compareKeys dirs a.1.1 b.1.1).isLE)).map
        (·.1) :=
      mergeSort_zipIdx.symm
    rw [hfold, TopKHeap.intoSortedRows, hes, hsort, hrows, ← map_take, ← map_take, map_map, map_map]
    rfl

end RedlineDb.TopK
