import RedlineDb.BtreeInv

/-!
# A split goes up the tree

`propagate_split` makes a new page known on the level above, which may split in turn. The step is: a
parent that has room takes the separator; a parent that has none is divided, and the page on its
right covers the keys from its first separator on, provided that `min_key_for_page` gives this
separator (`Tight`). From it `propagateSplit_ok` follows by induction on the levels.
-/

namespace RedlineDb.Btree
open Lib List
variable {t t₁ t' : Tree} {L M A B C D : List InternalEntry} {ups : List (List InternalEntry)}
    {n x : InternalEntry}
section Kids
variable {lo : Bytes} {left : Nat} {es : List InternalEntry}

theorem withSeparator_eq (h : Increasing (C ++ x :: D)) :
    withSeparator (C ++ D) x = C ++ x :: D := by
  rw [Increasing, pairwise_append, pairwise_cons] at h
  obtain ⟨hC, ⟨hxD, hD⟩, hCD⟩ := h
  refine insertionSort_push ?_ (fun a ha => (hCD a ha x (by simp)).le) fun b hb =>
    not_le.2 (hxD b hb)
  refine pairwise_append.2 ⟨hC.imp le_of_lt, hD.imp le_of_lt, fun a ha b hb => ?_⟩
  exact (hCD a ha b (mem_cons_of_mem _ hb)).le

theorem kids_withSeparator (h : kids lo left es = C ++ n :: D)
    (hincr : Increasing (C ++ n :: x :: D)) :
    kids lo left (withSeparator es x) = C ++ n :: x :: D := by
  have hsort : ∀ P : List InternalEntry, Increasing (P ++ n :: x :: D) →
      withSeparator (P ++ n :: D) x = P ++ n :: x :: D := by
    intro P hP
    have := withSeparator_eq (C := P ++ [n]) (D := D) (x := x) (by simpa using hP)
    simpa using this
  unfold kids at h ⊢
  split at h
  case isTrue hhead =>
    have hall : withSeparator es x = C ++ n :: x :: D := by rw [h, hsort C hincr]
    have hsame : (C ++ n :: x :: D).head? = es.head? := by
      rw [h]
      cases C <;> rfl
    rw [hall, if_pos (hsame.trans hhead)]
  case isFalse hhead =>
    cases C with
    | nil =>
      obtain ⟨rfl, rfl⟩ := cons.inj h
      have hall : withSeparator es x = x :: es :=
        withSeparator_eq (C := []) (pairwise_cons.1 hincr).2
      have hne : (x :: es).head? ≠ some ⟨lo, left⟩ := by
        intro heq
        obtain rfl := Option.some.inj heq
        exact lt_irrefl _ ((pairwise_cons.1 hincr).1 _ (by simp))
      rw [hall, if_neg hne]
      rfl
    | cons c C =>
      rw [cons_append] at h
      obtain ⟨rfl, rfl⟩ := cons.inj h
      have hall : withSeparator (C ++ n :: D) x = C ++ n :: x :: D :=
        hsort C (pairwise_cons.1 hincr).2
      have hsame : (C ++ n :: x :: D).head? = (C ++ n :: D).head? := by cases C <;> rfl
      rw [hall, hsame, if_neg hhead]
      rfl

theorem kids_append {first : InternalEntry} {rest : List InternalEntry}
    (h : es = [] → first ≠ ⟨lo, left⟩) :
    kids lo left (es ++ first :: rest) = kids lo left es ++ first :: rest := by
  cases es with
  | nil => simp [kids, h rfl]
  | cons e es => by_cases he : e = ⟨lo, left⟩ <;> simp [kids, he]

theorem kids_self (first : InternalEntry) (rest : List InternalEntry) :
    kids first.separator first.child (first :: rest) = first :: rest := if_pos rfl

end Kids

/-! ### Pages that stay as they are -/

theorem InternalOk.congr {y : Option InternalEntry} (h : InternalOk t n y)
    (hsame : t'.pages n.child = t.pages n.child) :
    InternalOk t' n y := by
  obtain ⟨level, left, es, hpage⟩ := h
  exact ⟨level, left, es, hsame.trans hpage⟩

theorem children_congr (hsame : t'.pages n.child = t.pages n.child) :
    children t' n = children t n := by
  unfold children
  rw [hsame]

theorem Above.congr (h : Above t L ups) (hroot : t'.root = t.root)
    (hsame : ∀ m ∈ ups.flatten, t'.pages m.child = t.pages m.child) : Above t' L ups := by
  induction h with
  | root root low => exact .root (root.trans hroot.symm) low
  | @level L M ups linked increasing kids above ih =>
    have hM : ∀ m ∈ M, t'.pages m.child = t.pages m.child :=
      fun m hm => hsame m (mem_append_left _ hm)
    refine .level (linked.mono fun m hm y hy => hy.congr (hM m hm)) increasing ?_
      (ih fun m hm => hsame m (mem_append_right _ hm))
    rw [← kids]
    exact flatMap_congr fun m hm => children_congr (hM m hm)

theorem Path.congr {path : List Nat} (h : Path t n ups path)
    (hsame : ∀ m ∈ ups.flatten, t'.pages m.child = t.pages m.child) : Path t' n ups path := by
  induction h with
  | root => exact .root
  | parent mem child above ih =>
    refine .parent mem ?_ (ih fun m hm => hsame m (mem_append_right _ hm))
    rwa [children_congr (hsame _ (mem_append_left _ mem))]

/-! ### The separator of a page -/

/-- `min_key_for_page` along pages of `S`, at depth `d`. -/
inductive MinKey (t : Tree) (S : Nat → Prop) : Nat → Nat → Bytes → Prop
  | leaf {id : Nat} {h : PageHeader} {es : List LeafEntry} (mem : S id)
      (page : t.pages id = .leaf h es) :
      MinKey t S 1 id (Tree.leafMinKey es)
  | internal {d id child : Nat} {h : PageHeader} {es : List InternalEntry} {key : Bytes}
      (mem : S id)
      (page : t.pages id = .internal h es) (left : h.left = some child)
      (below : MinKey t S d child key) :
      MinKey t S (d + 1) id key

theorem MinKey.eval {S : Nat → Prop} {d id : Nat} {key : Bytes} (h : MinKey t S d id key)
    (fuel : Nat) (hd : d ≤ fuel) :
    t.minKeyFrom fuel id = .ok key := by
  induction h generalizing fuel with
  | leaf mem page =>
    obtain ⟨fuel, rfl⟩ := Nat.exists_eq_add_of_le' hd
    simp only [Tree.minKeyFrom, page]
  | internal mem page left below ih =>
    obtain ⟨fuel, rfl⟩ := Nat.exists_eq_add_of_le' ((Nat.le_add_left 1 _).trans hd)
    simp only [Tree.minKeyFrom, page, left]
    exact ih _ (by omega)

theorem MinKey.congr {S S' : Nat → Prop} {d id : Nat} {key : Bytes} (h : MinKey t S d id key)
    (hS : ∀ id, S id → S' id)
    (hsame : ∀ id, S id → t'.pages id = t.pages id) : MinKey t' S' d id key := by
  induction h with
  | leaf mem page => exact .leaf (hS _ mem) ((hsame _ mem).trans page)
  | internal mem page left below ih => exact .internal (hS _ mem) ((hsame _ mem).trans page) left ih

def Tight (t : Tree) (S : Nat → Prop) (d : Nat) (L : List InternalEntry) : Prop :=
  ∀ n ∈ L, n.separator ≠ [] → MinKey t S d n.child n.separator

theorem Tight.parents {S : Nat → Prop} {d : Nat} (h : Tight t S d L)
    (hlinked : Linked (InternalOk t) M none)
    (hkids : M.flatMap (children t) = L) :
    Tight t (fun id => S id ∨ id ∈ M.map (·.child)) (d + 1) M := by
  intro m hm hlo
  obtain ⟨y, level, left, es, hpage⟩ := hlinked.of_mem hm
  obtain ⟨l, hl⟩ := kids_ne_nil m.separator left es
  have hmem : ⟨m.separator, left⟩ ∈ L := by
    rw [← hkids]
    refine mem_flatMap.2 ⟨m, hm, ?_⟩
    rw [children_eq hpage, hl]
    simp
  have hchild := h _ hmem hlo
  exact .internal (.inr (mem_map_of_mem hm)) hpage rfl (hchild.congr (fun _ => .inl) fun _ _ => rfl)

def TightBelow (t : Tree) (L : List InternalEntry) (ups : List (List InternalEntry)) : Prop :=
  ∃ S d, Tight t S d L ∧ d + ups.length ≤ t.next + 1 ∧ (∀ m ∈ ups.flatten, ¬ S m.child) ∧
    ∀ id, t.next ≤ id → ¬ S id

theorem TightBelow.minKeyForPage (h : TightBelow t L ups) (hn : n ∈ L) (hlo : n.separator ≠ []) :
    Tree.minKeyForPage { t with next := t.next + 1 } n.child = .ok n.separator := by
  obtain ⟨S, d, htight, hdepth, -, -⟩ := h
  have hkey : MinKey { t with next := t.next + 1 } S d n.child n.separator :=
    (htight n hn hlo).congr (fun _ => id) fun _ _ => rfl
  exact hkey.eval _ (by show d ≤ t.next + 1 + 1; omega)

theorem mem_of_mem_insert {k : InternalEntry} (h : k ∈ A ++ n :: x :: B) :
    k ∈ A ++ n :: B ∨ k = x := by
  simp only [mem_append, mem_cons] at h ⊢
  tauto

/-- A page was divided: that of `n` was rewritten and the new one of `x` written. -/
structure Divided (t t₁ : Tree) (n x : InternalEntry) (left right : BtreePage) : Prop where
  new : x.child = t.next
  next : t₁.next = t.next + 1
  root : t₁.root = t.root
  capacity : t₁.capacity = t.capacity
  left : t₁.pages n.child = left
  right : t₁.pages x.child = right
  same : ∀ id, id ≠ n.child → id ≠ x.child → t₁.pages id = t.pages id

variable {left right : BtreePage}

theorem divided (hn : n.child < t.next) (separator : Bytes) (left right : BtreePage) :
    Divided t (Tree.setPage (Tree.setPage { t with next := t.next + 1 } n.child left) t.next right)
      n ⟨separator, t.next⟩
      left right where
  new := rfl
  next := rfl
  root := rfl
  capacity := rfl
  left := by rw [Tree.pages_setPage_ne _ hn.ne, Tree.pages_setPage_self]
  right := Tree.pages_setPage_self ..
  same id hid hid' := by rw [Tree.pages_setPage_ne _ hid', Tree.pages_setPage_ne _ hid]

section NewNode
variable (hdiv : Divided t t₁ n x left right) (hown : OwnPages t ((A ++ n :: B) :: ups))
include hdiv hown

theorem Divided.same_up {m : InternalEntry} (hm : m ∈ ups.flatten) :
    t₁.pages m.child = t.pages m.child :=
  hdiv.same _ (hown.nodup.2.2 n (by simp) m hm)
    (hdiv.new ▸ (hown.allocated m (mem_append_right _ hm)).ne)

theorem Divided.ownPages : OwnPages t₁ ups :=
  ⟨hown.nodup.2.1, fun m hm => by
    have := hown.allocated m (mem_append_right _ hm)
    have := hdiv.next
    omega⟩

theorem child_lt_of_insert {k : InternalEntry} (hk : k ∈ A ++ n :: x :: B) : k.child < t₁.next := by
  rw [hdiv.next]
  rcases mem_of_mem_insert hk with hk | rfl
  · exact (hown.allocated k (mem_append_left _ hk)).trans (Nat.lt_succ_self _)
  · exact Nat.lt_succ_of_le hdiv.new.le

theorem up_ne_of_insert {k m : InternalEntry} (hk : k ∈ A ++ n :: x :: B) (hm : m ∈ ups.flatten) :
    m.child ≠ k.child := by
  rcases mem_of_mem_insert hk with hk | rfl
  · exact hown.nodup.2.2 k hk m hm
  · exact fun heq => (hown.allocated m (mem_append_right _ hm)).ne (heq.trans hdiv.new)

theorem nodup_insert : ((A ++ n :: x :: B).map (·.child)).Nodup := by
  have hnew : t.next ∉ (A ++ n :: B).map (·.child) := by
    intro hmem
    obtain ⟨k, hk, heq⟩ := mem_map.1 hmem
    exact (hown.allocated k (mem_append_left _ hk)).ne heq
  have hperm : ((A ++ n :: x :: B).map (·.child)).Perm (t.next :: (A ++ n :: B).map (·.child)) := by
    simpa [hdiv.new] using (@perm_middle _ x (A ++ [n]) B).map (·.child)
  exact hperm.nodup_iff.2 (nodup_cons.2 ⟨hnew, hown.nodup.1⟩)

end NewNode

theorem TightBelow.parents (h : TightBelow t L ((A ++ n :: B) :: ups))
    (hlinked : Linked (InternalOk t₁) (A ++ n :: x :: B) none)
    (hkids : (A ++ n :: x :: B).flatMap (children t₁) = L) (hdiv : Divided t t₁ n x left right)
    (hown : OwnPages t ((A ++ n :: B) :: ups)) : TightBelow t₁ (A ++ n :: x :: B) ups := by
  obtain ⟨S, d, htight, hdepth, hups, hnew⟩ := h
  rw [length_cons] at hdepth
  have htight₁ : Tight t₁ S d L := fun k hk hlo => (htight k hk hlo).congr (fun _ => id)
      fun id hid =>
    hdiv.same id (fun heq => hups n (by simp) (heq ▸ hid)) fun heq =>
      hnew id (heq.trans hdiv.new).ge hid
  have hnext := hdiv.next
  refine ⟨_, d + 1, htight₁.parents hlinked hkids, by omega, ?_, ?_⟩
  · rintro k hk (hS | hmem)
    · exact hups k (mem_append_right _ hk) hS
    · obtain ⟨j, hj, hjk⟩ := mem_map.1 hmem
      exact up_ne_of_insert hdiv hown hj hk hjk.symm
  · rintro id hid (hS | hmem)
    · exact hnew id (by omega) hS
    · obtain ⟨j, hj, rfl⟩ := mem_map.1 hmem
      have := child_lt_of_insert hdiv hown hj
      omega

/-! ### The levels after a split -/

structure Propagated (t t' : Tree) (L : List InternalEntry) (ups ups' : List (List InternalEntry)) :
    Prop where
  above : Above t' L ups'
  same : ∀ id < t.next, (∀ m ∈ ups.flatten, m.child ≠ id) → t'.pages id = t.pages id
  distinct : (ups'.flatten.map (·.child)).Nodup
  ids : ∀ m ∈ ups'.flatten, m.child ∈ ups.flatten.map (·.child) ∨ t.next ≤ m.child ∧
    m.child < t'.next
  next_le : t.next ≤ t'.next

theorem Propagated.distinct_cons {ups' : List (List InternalEntry)}
    (h : Propagated t₁ t' L ups ups')
    (hdiv : Divided t t₁ n x left right) (hown : OwnPages t ((A ++ n :: B) :: ups)) :
    (((A ++ n :: x :: B) :: ups').flatten.map (·.child)).Nodup := by
  rw [flatten_cons, map_append, nodup_append]
  refine ⟨nodup_insert hdiv hown, h.distinct, fun a ha b hb heq => ?_⟩
  obtain ⟨k, hk, rfl⟩ := mem_map.1 ha
  obtain ⟨j, hj, rfl⟩ := mem_map.1 hb
  rcases h.ids j hj with hold | hnew
  · obtain ⟨i, hi, hij⟩ := mem_map.1 hold
    exact up_ne_of_insert hdiv hown hk hi (hij.trans heq.symm)
  · have := child_lt_of_insert hdiv hown hk
    omega

def ParentRoom (t : Tree) (path : List Nat) (x : InternalEntry) : Prop :=
  match path with
  | [] => True
  | parent :: _ =>
    match t.pages parent with
    | .internal _ es => required internalLen (withSeparator es x) ≤ t.capacity
    | _ => True

instance (t : Tree) (path : List Nat) (x : InternalEntry) : Decidable (ParentRoom t path x) := by
  unfold ParentRoom
  split
  · infer_instance
  · split <;> infer_instance

variable {env : Env} {emitWal : Bool} {path : List Nat} {level : Nat} {u : Unit}

theorem propagateSplit_root
    (h : propagateSplit env emitWal [] n.child x.child x.separator level t = .ok u t')
    (hlow : n.separator = []) (hlt : n.separator < x.separator) :
    ∃ ups', Propagated t t' [n, x] [] ups' := by
  simp only [propagateSplit, stateful_bind_eq_ok, allocate_eq_ok, rewriteInternal, rewrite_eq_ok,
    recordPageImage_eq_ok, modify_eq_ok] at h
  obtain ⟨_, _, ⟨-, rfl, rfl⟩, _, _, ⟨-, -, rfl⟩, _, _, ⟨-, rfl⟩, _, _, rfl, -, rfl⟩ := h
  have hpage : ∀ r l, Tree.pages { Tree.setPage { t with next := t.next + 1 } t.next (.internal
      ⟨level, some n.child, none, []⟩ [⟨x.separator, x.child⟩]) with root := r, rootLevel := l }
        t.next =
        .internal (headerOf level (some n.child) none) [x] := fun _ _ => Tree.pages_setPage_self ..
  have hne : [x].head? ≠ some ⟨[], n.child⟩ := by
    intro heq
    obtain rfl := Option.some.inj heq
    exact absurd (hlow ▸ hlt) (lt_irrefl _)
  refine ⟨[[⟨[], t.next⟩]], ?_, ?_, by simp, by simp, Nat.le_succ _⟩
  · refine .level ⟨⟨level, n.child, [x], hpage _ _⟩, trivial⟩ (pairwise_singleton _ _) ?_
      (.root rfl rfl)
    rw [flatMap_singleton, children_eq (hpage _ _), kids, if_neg hne, ← hlow]
  · intro id hid _
    exact Tree.pages_setPage_ne _ hid.ne

theorem exists_parent {m : InternalEntry} (hm : m ∈ M) (hn : n ∈ children t m)
    (hkids : M.flatMap (children t) = A ++ n :: B) (hincr : Increasing (A ++ n :: B)) :
    ∃ E F C D, M = E ++ m :: F ∧ children t m = C ++ n :: D ∧ A = E.flatMap (children t) ++ C ∧
      B = D ++ F.flatMap (children t) := by
  obtain ⟨E, F, rfl⟩ := append_of_mem hm
  obtain ⟨C, D, hCD⟩ := append_of_mem hn
  have hnot : n ∉ A ∧ n ∉ B := by
    rw [Increasing, pairwise_append, pairwise_cons] at hincr
    exact ⟨fun h => lt_irrefl _ (hincr.2.2 n h n (by simp)), fun h => lt_irrefl _ (hincr.2.1.1 n h)⟩
  have heq : A ++ n :: B = (E.flatMap (children t) ++ C) ++ n :: (D ++ F.flatMap (children t)) := by
    rw [← hkids, flatMap_append, flatMap_cons, hCD]
    simp
  obtain ⟨hA, -, hB⟩ := (append_cons_inj_of_notMem hnot.1 hnot.2).1 heq
  exact ⟨E, F, C, D, rfl, hCD, hA, hB⟩

theorem increasing_of_children (h : Linked (InternalOk t) M none)
    (hincr : Increasing (M.flatMap (children t))) :
    Increasing M := by
  refine (pairwise_flatMap.1 hincr).2.imp_of_mem fun {a b} ha hb hab => ?_
  obtain ⟨y, hy⟩ := h.of_mem ha
  obtain ⟨z, hz⟩ := h.of_mem hb
  obtain ⟨c, l, hc⟩ := hy.children_ne_nil
  obtain ⟨c', l', hc'⟩ := hz.children_ne_nil
  exact hab ⟨a.separator, c⟩ (by simp [hc]) ⟨b.separator, c'⟩ (by simp [hc'])

section Level
variable {m : InternalEntry} {E F : List InternalEntry} {left lvl : Nat} {es : List InternalEntry}

theorem child_ne_of_nodup (h : ((E ++ m :: F).map (·.child)).Nodup) {k : InternalEntry}
    (hk : k ∈ E ∨ k ∈ F) :
    k.child ≠ m.child := by
  rw [map_append, map_cons, nodup_append, nodup_cons] at h
  rcases hk with hk | hk
  · exact fun heq => h.2.2 _ (mem_map_of_mem hk) m.child (by simp) heq
  · exact fun heq => h.2.1.1 (heq ▸ mem_map_of_mem hk)

theorem Divided.same_level {x : InternalEntry} {leftPage rightPage : BtreePage}
    (hdiv : Divided t t₁ m x leftPage rightPage)
    (hown : OwnPages t ((E ++ m :: F) :: ups)) (k : InternalEntry) (hk : k ∈ E ∨ k ∈ F) :
    t₁.pages k.child = t.pages k.child := by
  refine hdiv.same _ (child_ne_of_nodup hown.nodup.1 hk)
    (hdiv.new ▸ (hown.allocated k (mem_append_left _ ?_)).ne)
  rcases hk with hk | hk <;> simp [hk]

theorem Propagated.of_room (hlinked : Linked (InternalOk t) (E ++ m :: F) none)
    (hincrM : Increasing (E ++ m :: F))
    (habove : Above t (E ++ m :: F) ups) (hown : OwnPages t ((E ++ m :: F) :: ups))
    (hkids : kids m.separator left es = C ++ n :: D) (hincr : Increasing (C ++ n :: x :: D)) :
    Propagated t
      (t.setPage m.child (.internal (headerOf lvl (some left) F.head?) (withSeparator es x)))
      (E.flatMap (children t) ++ C ++ n :: x :: (D ++ F.flatMap (children t)))
      ((E ++ m :: F) :: ups)
      ((E ++ m :: F) :: ups) := by
  set t' := t.setPage m.child
    (.internal (headerOf lvl (some left) F.head?) (withSeparator es x)) with ht'
  have hpage : t'.pages m.child = .internal (headerOf lvl (some left) (F.head?.or none))
      (withSeparator es x) := by
    rw [ht', Tree.pages_setPage_self, Option.or_none]
  have hother : ∀ id, id ≠ m.child → t'.pages id = t.pages id := fun id => Tree.pages_setPage_ne _
  refine ⟨?_, ?_, hown.distinct, fun k hk => .inl (mem_map_of_mem hk), le_rfl⟩
  have hne : ∀ k, k ∈ E ∨ k ∈ F → t'.pages k.child = t.pages k.child := fun k hk =>
    hother _ (child_ne_of_nodup hown.nodup.1 hk)
  · refine .level ?_ hincrM ?_ ?_
    · rw [linked_append, linked_cons] at hlinked ⊢
      exact ⟨hlinked.1.mono fun k hk y hy => hy.congr (hne k (.inl hk)), ⟨lvl, left, _, hpage⟩,
        hlinked.2.2.mono fun k hk y hy => hy.congr (hne k (.inr hk))⟩
    · rw [flatMap_append, flatMap_cons, children_eq hpage, kids_withSeparator hkids hincr,
        flatMap_congr fun k hk => children_congr (hne k (.inl hk)),
        flatMap_congr fun k hk => children_congr (hne k (.inr hk))]
      simp
    · exact habove.congr rfl fun k hk => hother _ (hown.nodup.2.2 m (by simp) k hk)
  · intro id _ hid
    exact hother _ fun heq => hid m (by simp) heq.symm

theorem split_level {first : InternalEntry} {lefts rest : List InternalEntry} {rightId : Nat}
    (hlinked : Linked (InternalOk t) (E ++ m :: F) none) (hown : OwnPages t ((E ++ m :: F) :: ups))
    (hdiv : Divided t t₁ m ⟨first.separator, rightId⟩
      (.internal (headerOf lvl (some left) (some ⟨first.separator, rightId⟩)) lefts)
      (.internal (headerOf lvl (some first.child) F.head?) (first :: rest))) :
    Linked (InternalOk t₁) (E ++ m :: ⟨first.separator, rightId⟩ :: F) none ∧
      (E ++ m :: ⟨first.separator, rightId⟩ :: F).flatMap (children t₁) =
        E.flatMap (children t) ++ (kids m.separator left lefts ++ first :: rest) ++
          F.flatMap (children t) := by
  have hright' : t₁.pages (⟨first.separator, rightId⟩ : InternalEntry).child =
      .internal (headerOf lvl (some first.child) (F.head?.or none)) (first :: rest) := by
    rw [Option.or_none]
    exact hdiv.right
  have hne : ∀ k, k ∈ E ∨ k ∈ F → t₁.pages k.child = t.pages k.child := hdiv.same_level hown
  rw [linked_append, linked_cons] at hlinked
  rw [linked_append, linked_cons, linked_cons]
  refine ⟨⟨hlinked.1.mono fun k hk y hy => hy.congr (hne k (.inl hk)),
    ⟨lvl, left, lefts, hdiv.left⟩,
    ⟨lvl, first.child, _, hright'⟩, hlinked.2.2.mono fun k hk y hy => hy.congr (hne k (.inr hk))⟩,
      ?_⟩
  have hkids : children t₁ ⟨first.separator, rightId⟩ = first :: rest :=
    (children_eq hright').trans (kids_self first rest)
  rw [flatMap_append, flatMap_cons, flatMap_cons, children_eq hdiv.left, hkids,
    flatMap_congr fun k hk => children_congr (hne k (.inl hk)),
    flatMap_congr fun k hk => children_congr (hne k (.inr hk))]
  simp

theorem Propagated.of_split {y : InternalEntry} {leftPage rightPage : BtreePage}
    {ups' : List (List InternalEntry)}
    (h : Propagated t₁ t' (E ++ m :: y :: F) ups ups')
    (hlinked : Linked (InternalOk t₁) (E ++ m :: y :: F) none)
    (hincr : Increasing (E ++ m :: y :: F)) (hkids : (E ++ m :: y :: F).flatMap (children t₁) = L)
    (hdiv : Divided t t₁ m y leftPage rightPage) (hown : OwnPages t ((E ++ m :: F) :: ups)) :
    Propagated t t' L ((E ++ m :: F) :: ups) ((E ++ m :: y :: F) :: ups') := by
  have hpages : ∀ k ∈ E ++ m :: y :: F, t'.pages k.child = t₁.pages k.child := fun k hk =>
    h.same _ (child_lt_of_insert hdiv hown hk) fun j hj => up_ne_of_insert hdiv hown hk hj
  have hle := h.next_le
  have hnext := hdiv.next
  have hy := hdiv.new
  refine ⟨.level (hlinked.mono fun k hk z hz => hz.congr (hpages k hk)) hincr ?_ h.above, ?_,
    h.distinct_cons hdiv hown, ?_, by omega⟩
  · rw [← hkids]
    exact flatMap_congr fun k hk => children_congr (hpages k hk)
  · intro id hid hnot
    simp only [flatten_cons, mem_append] at hnot
    rw [h.same id (by omega) fun k hk => hnot k (.inr hk)]
    exact hdiv.same id (fun heq => hnot m (.inl (by simp)) heq.symm) (by omega)
  · intro k hk
    rw [flatten_cons, map_append, mem_append]
    rcases mem_append.1 hk with hk | hk
    · rcases mem_of_mem_insert hk with hk | rfl
      · exact .inl (.inl (mem_map_of_mem hk))
      · exact .inr (by omega)
    · rcases h.ids k hk with hold | hnew
      · exact .inl (.inr hold)
      · exact .inr (by omega)

theorem kids_half {first : InternalEntry} {rest : List InternalEntry}
    (hkids : kids m.separator left es = C ++ n :: D)
    (hincr : Increasing (C ++ n :: x :: D))
    (hdrop : (withSeparator es x).drop ((withSeparator es x).length / 2) = first :: rest) :
    kids m.separator left ((withSeparator es x).take ((withSeparator es x).length / 2)) ++
      first :: rest =
      C ++ n :: x :: D ∧ m.separator < first.separator := by
  have hsplit := take_append_drop ((withSeparator es x).length / 2) (withSeparator es x)
  rw [hdrop] at hsplit
  have hmx : m.separator < x.separator := by
    have hincrKids : Increasing (kids m.separator left es) := by
      rw [hkids]
      exact hincr.sublist (List.Sublist.append_left ((sublist_cons_self x D).cons_cons n) C)
    have hn : m.separator ≤ n.separator := le_of_mem_kids hincrKids (by simp [hkids])
    exact hn.trans_lt ((pairwise_cons.1 (pairwise_append.1 hincr).2.1).1 x (by simp))
  generalize hlefts : (withSeparator es x).take ((withSeparator es x).length / 2) =
    lefts at hsplit ⊢
  have hfirst : lefts = [] → first ≠ ⟨m.separator, left⟩ := by
    -- then the new separator is the only one
    rintro rfl rfl
    have hx : x ∈ withSeparator es x := (mem_insertionSort _).2 (by simp)
    rw [take_eq_nil_iff, ← hsplit, nil_append, length_cons] at hlefts
    have hone : rest.length = 0 := by
      rcases hlefts with hlefts | hlefts
      · omega
      · cases hlefts
    rw [← hsplit, length_eq_zero_iff.1 hone, nil_append, mem_singleton] at hx
    exact hmx.ne (congrArg (·.separator) hx).symm
  have heq : kids m.separator left lefts ++ first :: rest = C ++ n :: x :: D := by
    rw [← kids_append hfirst, hsplit, kids_withSeparator hkids hincr]
  obtain ⟨l, hl⟩ := kids_ne_nil m.separator left lefts
  rw [← heq, hl] at hincr
  exact ⟨heq, (pairwise_append.1 hincr).2.2 ⟨m.separator, left⟩ (by simp) first (by simp)⟩

end Level

/-- The new page is made known on all levels. The induction is on the levels above it: a level that
has no room gets a new page of its own. -/
theorem propagateSplit_ok (ups : List (List InternalEntry)) :
    ∀ {t : Tree} {L A B : List InternalEntry} {n x : InternalEntry} {path : List Nat} {level : Nat},
      propagateSplit env emitWal path n.child x.child x.separator level t = .ok u t' →
      Above t L ups → Path t n ups path → L = A ++ n :: B → Increasing (A ++ n :: x :: B) →
      OwnPages t ups →
      (ParentRoom t path x ∨ TightBelow t (A ++ n :: x :: B) ups) →
      ∃ ups', Propagated t t' (A ++ n :: x :: B) ups ups' := by
  induction ups with
  | nil =>
    intro t L A B n x path level h habove hpath hL hincr _ _
    cases habove with
    | @root n₀ root low =>
      cases hpath
      have hone : A = [] ∧ n = n₀ ∧ B = [] := by
        cases A with
        | nil => simpa [eq_comm] using hL
        | cons a A => simp at hL
      obtain ⟨rfl, rfl, rfl⟩ := hone
      exact propagateSplit_root h low ((pairwise_cons.1 hincr).1 x (by simp))
  | cons M ups ih =>
    intro t L A B n x path level h habove hpath hL hincr hown hcond
    obtain _ | ⟨linked, increasing, hkids, above⟩ := habove
    cases hpath with
    | @parent _ m _ _ path mem child hpath =>
      have hincrL : Increasing (A ++ n :: B) := by
        refine hincr.sublist (List.Sublist.append_left ?_ A)
        exact (sublist_cons_self x B).cons_cons n
      obtain ⟨E, F, C, D, rfl, hchildren, rfl, rfl⟩ :=
        exists_parent mem child (hkids.trans hL) hincrL
      obtain ⟨lvl, left, es, hpage⟩ := (linked_cons.1 (linked_append.1 linked).2).1
      rw [Option.or_none] at hpage
      have hkidsm : kids m.separator left es = C ++ n :: D :=
        (children_eq hpage).symm.trans hchildren
      have hparts : Increasing (E.flatMap (children t) ++ (C ++ n :: x :: D) ++
          F.flatMap (children t)) := by
        simpa using hincr
      have hincrm : Increasing (C ++ n :: x :: D) :=
        (pairwise_append.1 (pairwise_append.1 hparts).1).2.1
      simp only [propagateSplit, stateful_bind_eq_ok, get_eq_ok] at h
      obtain ⟨_, _, ⟨rfl, rfl⟩, h⟩ := h
      simp only [hpage] at h
      split at h
      case isTrue hroom =>
        simp only [stateful_bind_eq_ok, rewriteInternal, rewrite_eq_ok, recordPageImage_eq_ok] at h
        obtain ⟨_, _, ⟨-, -, rfl⟩, -, rfl⟩ := h
        exact ⟨_, .of_room linked increasing above hown hkidsm hincrm⟩
      case isFalse hroom =>
        -- the parent is divided: its right half begins with the separator that `min_key_for_page`
        -- finds
        simp only [stateful_bind_eq_ok, allocate_eq_ok] at h
        obtain ⟨_, _, ⟨-, rfl, rfl⟩, h⟩ := h
        rcases hdrop : (withSeparator es x).drop ((withSeparator es x).length / 2) with _ |
          ⟨first, rest⟩
        · simp only [hdrop] at h
          exact absurd h throw_eq_ok
        · simp only [hdrop, stateful_bind_eq_ok, reading_eq_ok, rewriteInternal, rewrite_eq_ok,
            recordPageImage_eq_ok] at h
          obtain ⟨sep, _, ⟨hmin, rfl⟩, _, _, ⟨-, -, rfl⟩, _, _, ⟨-, -, rfl⟩, _, _, ⟨-, rfl⟩, _, _,
              ⟨-, rfl⟩, h⟩ := h
          obtain ⟨hhalf, hlt⟩ := kids_half hkidsm hincrm hdrop
          have htight : TightBelow t
              (E.flatMap (children t) ++ C ++ n :: x :: (D ++ F.flatMap (children t)))
              ((E ++ m :: F) :: ups) := by
            refine hcond.resolve_left fun hcond => hroom ?_
            simpa only [ParentRoom, hpage] using hcond
          have hfirst : first ∈ E.flatMap (children t) ++ C ++
              n :: x :: (D ++ F.flatMap (children t)) := by
            have hmem : first ∈ C ++ n :: x :: D := by
              rw [← hhalf]
              simp
            simp only [mem_append, mem_cons] at hmem ⊢
            tauto
          obtain rfl : sep = first.separator :=
            Except.ok.inj
              (hmin.symm.trans (htight.minKeyForPage hfirst ((Lib.nil_le _).trans_lt hlt).ne'))
          have hdiv := divided (hown.allocated m (by simp)) first.separator
            (.internal (headerOf lvl (some left) (some ⟨first.separator, t.next⟩))
              ((withSeparator es x).take ((withSeparator es x).length / 2)))
            (.internal (headerOf lvl (some first.child) F.head?) (first :: rest))
          obtain ⟨hlinked₁, hkids₁⟩ := split_level linked hown hdiv
          rw [hhalf] at hkids₁
          have hincr₁ := increasing_of_children hlinked₁ (hkids₁ ▸ hparts)
          have hL : E.flatMap (children t) ++ (C ++ n :: x :: D) ++ F.flatMap (children t) =
              E.flatMap (children t) ++ C ++ n :: x :: (D ++ F.flatMap (children t)) := by simp
          rw [hL] at hkids₁
          have hkeep : ∀ k ∈ ups.flatten, _ := fun k hk => hdiv.same_up hown hk
          obtain ⟨ups', hup⟩ := ih (x := ⟨first.separator, t.next⟩) h (above.congr hdiv.root hkeep)
              (hpath.congr hkeep) rfl
            hincr₁ (hdiv.ownPages hown) (.inr (htight.parents hlinked₁ hkids₁ hdiv hown))
          exact ⟨_, hup.of_split hlinked₁ hincr₁ hkids₁ hdiv hown⟩

end RedlineDb.Btree
