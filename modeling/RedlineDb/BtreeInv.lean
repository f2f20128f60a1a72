import RedlineDb.Btree

/-!
# The levels of the tree

The invariant of the tree is stated level by level, from the leaves up. A level is a list of nodes:
a node is a page with the lower fence of the keys it covers. Each page links to the page of the next
node and has that node's fence as its high key, and the level below an internal level is what its
pages list as their children.

An internal page that came out of a split lists its first child twice, as its leftmost child and
behind its first separator; `kids` counts it once. On a tree of this shape the descent never moves
to the right, and it ends in the leaf whose fences enclose the key.
-/

namespace RedlineDb.Btree
open Lib List

abbrev Increasing (L : List InternalEntry) : Prop := L.Pairwise (·.separator < ·.separator)

def highOf (x : Option InternalEntry) : Bytes := x.elim [] (·.separator)

def headerOf (level : Nat) (left : Option Nat) (x : Option InternalEntry) : PageHeader :=
  ⟨level, left, x.map (·.child), highOf x⟩

structure EntriesOk (K : Set Bytes) (n : InternalEntry) (x : Option InternalEntry)
    (es : List LeafEntry) : Prop where
  sorted : es.Pairwise (·.physical ≤ ·.physical)
  formed : ∀ e ∈ es, e.logicalKey ∈ K ∧ e.physical = physicalKey e.logicalKey e.row
  low : ∀ e ∈ es, n.separator ≤ e.physical
  high : ∀ e ∈ es, ∀ m ∈ x, e.physical < m.separator

def LeafOk (K : Set Bytes) (t : Tree) (n : InternalEntry) (x : Option InternalEntry) : Prop :=
  ∃ left es, t.pages n.child = .leaf (headerOf 0 left x) es ∧ EntriesOk K n x es

def InternalOk (t : Tree) (n : InternalEntry) (x : Option InternalEntry) : Prop :=
  ∃ level left es, t.pages n.child = .internal (headerOf level (some left) x) es

def kids (lo : Bytes) (left : Nat) (es : List InternalEntry) : List InternalEntry :=
  if es.head? = some ⟨lo, left⟩ then es else ⟨lo, left⟩ :: es

def children (t : Tree) (n : InternalEntry) : List InternalEntry :=
  match t.pages n.child with
  | .internal ⟨_, some left, _, _⟩ es => kids n.separator left es
  | _ => []

inductive Above (t : Tree) : List InternalEntry → List (List InternalEntry) → Prop
  | root {n : InternalEntry} (root : n.child = t.root) (low : n.separator = []) : Above t [n] []
  | level {L M : List InternalEntry} {ups : List (List InternalEntry)}
      (linked : Linked (InternalOk t) M none)
      (increasing : Increasing M) (kids : M.flatMap (children t) = L) (above : Above t M ups) :
      Above t L (M :: ups)

structure OwnPages (t : Tree) (levels : List (List InternalEntry)) : Prop where
  distinct : (levels.flatten.map (·.child)).Nodup
  allocated : ∀ n ∈ levels.flatten, n.child < t.next

theorem OwnPages.nodup (h : OwnPages t (L :: ups)) :
    (L.map (·.child)).Nodup ∧ (ups.flatten.map (·.child)).Nodup ∧
    ∀ k ∈ L, ∀ m ∈ ups.flatten, m.child ≠ k.child := by
  have hdistinct := h.distinct
  rw [flatten_cons, map_append, nodup_append] at hdistinct
  refine ⟨hdistinct.1, hdistinct.2.1, fun k hk m hm heq => ?_⟩
  exact hdistinct.2.2 _ (mem_map_of_mem hk) _ (mem_map_of_mem hm) heq.symm

structure Inv (K : Set Bytes) (t : Tree) (L : List InternalEntry)
    (ups : List (List InternalEntry)) : Prop
    extends OwnPages t (L :: ups) where
  leaves : Linked (LeafOk K t) L none
  increasing : Increasing L
  above : Above t L ups

theorem inv_create (K : Set Bytes) (capacity : Nat) (uniqueness : IndexUniqueness) (root : Nat) :
    Inv K (.create capacity uniqueness root) [⟨[], root⟩] [] where
  leaves := ⟨⟨none, [], by simp [Tree.create, headerOf, highOf], by simp, by simp, by simp, by
    simp⟩, trivial⟩
  increasing := pairwise_singleton _ _
  above := .root rfl rfl
  distinct := by simp
  allocated := by simp [Tree.create]

section Kids
variable {lo key : Bytes} {left : Nat} {es : List InternalEntry}

theorem kids_ne_nil (lo : Bytes) (left : Nat) (es : List InternalEntry) :
    ∃ l, kids lo left es = ⟨lo, left⟩ :: l := by
  unfold kids
  split
  case isTrue h =>
    obtain ⟨l, rfl⟩ := head?_eq_some_iff.1 h
    exact ⟨l, rfl⟩
  case isFalse => exact ⟨es, rfl⟩

theorem le_of_mem_kids {n : InternalEntry} (h : Increasing (kids lo left es))
    (hn : n ∈ kids lo left es) :
    lo ≤ n.separator := by
  obtain ⟨l, hl⟩ := kids_ne_nil lo left es
  rw [hl] at h hn
  rcases mem_cons.1 hn with rfl | hn
  · exact le_rfl
  · exact ((pairwise_cons.1 h).1 n hn).le

theorem chooseChild_at (h : Increasing (⟨lo, left⟩ :: es)) (hlo : lo ≤ key) :
    ∃ A n B, At (·.separator) (⟨lo, left⟩ :: es) key A n B ∧ chooseChild key left es = n.child := by
  induction es generalizing lo left with
  | nil => exact ⟨[], ⟨lo, left⟩, [], ⟨rfl, hlo, by simp⟩, rfl⟩
  | cons e es ih =>
    unfold chooseChild
    split
    case isTrue hlt =>
      refine ⟨[], ⟨lo, left⟩, e :: es, ⟨rfl, hlo, fun b hb => ?_⟩, rfl⟩
      rcases mem_cons.1 hb with rfl | hb
      · exact hlt
      · exact hlt.trans ((pairwise_cons.1 (pairwise_cons.1 h).2).1 b hb)
    case isFalse hge =>
      obtain ⟨A, n, B, ⟨heq, hle, hlt⟩, hc⟩ := ih (pairwise_cons.1 h).2 (not_lt.1 hge)
      exact ⟨⟨lo, left⟩ :: A, n, B, ⟨by rw [cons_append, ← heq], hle, hlt⟩, hc⟩

theorem chooseChild_kids (h : Increasing (kids lo left es)) (hlo : lo ≤ key) :
    ∃ A n B, At (·.separator) (kids lo left es) key A n B ∧ chooseChild key left es = n.child := by
  unfold kids at h ⊢
  split at h
  case isTrue hhead =>
    -- the first separator leads to the leftmost child again
    rw [if_pos hhead]
    obtain ⟨l, rfl⟩ := head?_eq_some_iff.1 hhead
    have hskip : chooseChild key left (⟨lo, left⟩ :: l) = chooseChild key left l := by
      rw [chooseChild, if_neg (not_lt.2 hlo)]
    rw [hskip]
    exact chooseChild_at h hlo
  case isFalse hhead =>
    rw [if_neg hhead]
    exact chooseChild_at h hlo

end Kids

variable {K : Set Bytes} {t : Tree} {L M : List InternalEntry} {ups : List (List InternalEntry)}
    {key : Bytes}
variable {n : InternalEntry} {x : Option InternalEntry} {path : List Nat}

theorem children_eq {level left : Nat} {es : List InternalEntry}
    (h : t.pages n.child = .internal (headerOf level (some left) x) es) :
    children t n = kids n.separator left es := by
  simp only [children, h, headerOf]

theorem InternalOk.children_ne_nil (h : InternalOk t n x) :
    ∃ c l, children t n = ⟨n.separator, c⟩ :: l := by
  obtain ⟨level, left, es, hpage⟩ := h
  obtain ⟨l, hl⟩ := kids_ne_nil n.separator left es
  exact ⟨left, l, by rw [children_eq hpage, hl]⟩

theorem Above.exists_first (h : Above t L ups) : ∃ c l, L = ⟨[], c⟩ :: l := by
  induction h with
  | @root n hroot hlow => exact ⟨n.child, [], by rw [← hlow]⟩
  | level linked increasing kids above ih =>
    obtain ⟨c, l, rfl⟩ := ih
    obtain ⟨c', l', hl⟩ := (linked_cons.1 linked).1.children_ne_nil
    exact ⟨c', l' ++ l.flatMap (children t), by rw [← kids, flatMap_cons, hl, cons_append]⟩

theorem Above.length_le (h : Above t L ups) : ups.length + 1 ≤ ((L :: ups).flatten).length := by
  induction h with
  | root => simp
  | @level L M ups linked increasing kids above ih =>
    obtain ⟨c, l, hl⟩ := (Above.level linked increasing kids above).exists_first
    rw [flatten_cons, length_append, hl]
    simp only [length_cons] at ih ⊢
    omega

/-- There are more page ids than levels, so the loops of the descent have room. -/
theorem Inv.length_ups_lt (h : Inv K t L ups) : ups.length < t.next := by
  have hlen := h.above.length_le
  have hsub : ((L :: ups).flatten.map (·.child)) ⊆ range t.next := by
    intro c hc
    obtain ⟨n, hn, rfl⟩ := mem_map.1 hc
    exact mem_range.2 (h.allocated n hn)
  have hle := (subperm_of_subset h.distinct hsub).length_le
  rw [length_map, length_range] at hle
  omega

inductive Reaches (t : Tree) (key : Bytes) : List Nat → Nat → Prop
  | root : Reaches t key [] t.root
  | step {path : List Nat} {page next : Nat} (reaches : Reaches t key path page)
      (goes : t.nextOnPath key page = .ok (some next)) (moves : next ≠ page) :
      Reaches t key (page :: path) next

theorem Reaches.findLeafPathFrom {page : Nat} (h : Reaches t key path page) (fuel : Nat) :
    t.findLeafPathFrom key (fuel + path.length) t.root [] =
      t.findLeafPathFrom key fuel page path := by
  induction h generalizing fuel with
  | root => rfl
  | @step path page next reaches goes moves ih =>
    rw [length_cons, ← Nat.add_assoc, Nat.add_right_comm, ih]
    simp only [Tree.findLeafPathFrom, goes, bind, Except.bind, if_neg moves]

theorem Reaches.findLeafPath {page : Nat} (h : Reaches t key path page)
    (hstop : t.nextOnPath key page = .ok none) (hroom : path.length ≤ t.next) :
    t.findLeafPath key = .ok (page, path) := by
  have hfuel : t.next + 1 = (t.next - path.length) + 1 + path.length := by omega
  rw [Tree.findLeafPath, hfuel, h.findLeafPathFrom]
  simp only [Tree.findLeafPathFrom, hstop, bind, Except.bind]
  rfl

inductive Path (t : Tree) : InternalEntry → List (List InternalEntry) → List Nat → Prop
  | root {n : InternalEntry} : Path t n [] []
  | parent {n m : InternalEntry} {M : List InternalEntry} {ups : List (List InternalEntry)}
      {path : List Nat}
      (mem : m ∈ M) (child : n ∈ children t m) (above : Path t m ups path) :
      Path t n (M :: ups) (m.child :: path)

theorem pastHigh_headerOf {level : Nat} {left : Option Nat} (h : ∀ m ∈ x, key < m.separator) :
    (headerOf level left x).pastHigh key = false := by
  cases x with
  | none => rfl
  | some m =>
    simp only [headerOf, PageHeader.pastHigh, highOf, Option.elim_some, Bool.and_eq_false_iff]
    exact .inr (decide_eq_false (not_le.2 (h m rfl)))

/-- The descent reaches, on every level, the node that covers the key. -/
theorem Above.descend (h : Above t L ups) (hincr : Increasing L)
    (hdistinct : ((L :: ups).flatten.map (·.child)).Nodup)
    (key : Bytes) : ∃ A n B path, At (·.separator) L key A n B ∧ Path t n ups path ∧
    Reaches t key path n.child := by
  induction h with
  | @root n hroot hlow =>
    exact ⟨[], n, [], [], ⟨rfl, by rw [hlow]; exact Lib.nil_le key, by simp⟩, .root, hroot ▸ .root⟩
  | @level L M ups linked increasing hkids above ih =>
    rw [flatten_cons, map_append, nodup_append] at hdistinct
    obtain ⟨E, m, F, path, hat, hpath, hreach⟩ := ih increasing hdistinct.2.1
    have hM := hat.eq
    subst hM
    obtain ⟨level, left, es, hpage⟩ := (linked_append.1 linked).2.1
    have hL : L = E.flatMap (children t) ++ kids m.separator left es ++ F.flatMap (children t) := by
      rw [← hkids, flatMap_append, flatMap_cons, children_eq hpage, append_assoc]
    have hparts := hL ▸ hincr
    have hincrKids : Increasing (kids m.separator left es) :=
      (pairwise_append.1 (pairwise_append.1 hparts).1).2.1
    obtain ⟨A, n, B, hatKids, hchoose⟩ := chooseChild_kids hincrKids hat.le
    have hbeyond : ∀ q ∈ F.flatMap (children t), key < q.separator := by
      intro q hq
      obtain ⟨f, hf, hqf⟩ := mem_flatMap.1 hq
      obtain ⟨y, levelF, leftF, esF, hpageF⟩ :=
        (linked_cons.1 (linked_append.1 linked).2).2.of_mem hf
      have hincrF : Increasing (children t f) :=
        (pairwise_flatMap.1 (pairwise_append.1 hparts).2.1).1 f hf
      rw [children_eq hpageF] at hqf hincrF
      exact (hat.lt f hf).trans_le (le_of_mem_kids hincrF hqf)
    have hn : n ∈ children t m := by
      rw [children_eq hpage, hatKids.eq]
      simp
    have hmem : n ∈ L := by
      rw [hL, ← children_eq hpage]
      exact mem_append_left _ (mem_append_right _ hn)
    refine ⟨_, n, _, m.child :: path, hL ▸ hatKids.append hbeyond, .parent (by simp) hn hpath,
      .step hreach ?_ ?_⟩
    · have hhigh : ∀ x ∈ F.head?, key < x.separator := fun x hx => hat.lt x (mem_of_mem_head? hx)
      rw [← Option.or_none (o := F.head?)] at hhigh
      simp only [Tree.nextOnPath, hpage, pastHigh_headerOf hhigh]
      simp [headerOf, hchoose]
    · exact fun heq => hdistinct.2.2 _ (mem_map_of_mem hmem) m.child
        (mem_map_of_mem (by simp)) heq

theorem Path.length_eq (h : Path t n ups path) : path.length = ups.length := by
  induction h with
  | root => rfl
  | parent mem child above ih => rw [length_cons, length_cons, ih]

theorem LeafOk.nextOnPath (h : LeafOk K t n x)
    (hhigh : ∀ m ∈ x, key < m.separator) : t.nextOnPath key n.child = .ok none := by
  obtain ⟨left, es, hpage, -⟩ := h
  simp [Tree.nextOnPath, hpage, pastHigh_headerOf hhigh]

theorem Inv.findLeafPath (h : Inv K t L ups) (key : Bytes) :
    ∃ A n B path, At (·.separator) L key A n B ∧ Path t n ups path ∧
      t.findLeafPath key = .ok (n.child, path) := by
  obtain ⟨A, n, B, path, hat, hpath, hreach⟩ := h.above.descend h.increasing h.distinct key
  have hleaves := h.leaves
  rw [hat.eq, linked_append, linked_cons] at hleaves
  have hstop : t.nextOnPath key n.child = .ok none := by
    refine hleaves.2.1.nextOnPath fun m hm => ?_
    rw [Option.or_none] at hm
    exact hat.lt m (mem_of_mem_head? hm)
  have hroom : path.length ≤ t.next := hpath.length_eq ▸ h.length_ups_lt.le
  exact ⟨A, n, B, path, hat, hpath, hreach.findLeafPath hstop hroom⟩

/-! ### The entries in order -/

def contents (t : Tree) (L : List InternalEntry) : List LeafEntry :=
  L.flatMap fun n => (t.pages n.child).leafEntries

theorem contents_append (t : Tree) (A B : List InternalEntry) :
    contents t (A ++ B) = contents t A ++ contents t B :=
  flatMap_append

theorem contents_cons {h : PageHeader} {es : List LeafEntry} (hpage : t.pages n.child = .leaf h es)
    (L : List InternalEntry) : contents t (n :: L) = es ++ contents t L := by
  rw [contents, flatMap_cons, hpage]
  rfl

theorem contents_congr {t' : Tree} (h : ∀ n ∈ L, t'.pages n.child = t.pages n.child) :
    contents t' L = contents t L :=
  flatMap_congr fun n hn => by rw [h n hn]

theorem LeafOk.mem (h : LeafOk K t n x) {e : LeafEntry} (he : e ∈ (t.pages n.child).leafEntries) :
    e.logicalKey ∈ K ∧ e.physical = physicalKey e.logicalKey e.row ∧ n.separator ≤ e.physical ∧
      ∀ m ∈ x, e.physical < m.separator := by
  obtain ⟨left, es, hpage, hes⟩ := h
  rw [hpage] at he
  exact ⟨(hes.formed e he).1, (hes.formed e he).2, hes.low e he, hes.high e he⟩

theorem Inv.pairwise_lt (h : Inv K t L ups) :
    L.Pairwise fun k k' => ∀ e ∈ (t.pages k.child).leafEntries, e.physical < k'.separator := by
  have hleaves := h.leaves
  have hincr := h.increasing
  clear h
  induction L with
  | nil => exact .nil
  | cons n L ih =>
    rw [linked_cons_none] at hleaves
    obtain ⟨hlt, hincr⟩ := pairwise_cons.1 hincr
    refine pairwise_cons.2 ⟨fun k' hk' e he => ?_, ih hleaves.2 hincr⟩
    obtain ⟨m, l, rfl⟩ := exists_cons_of_ne_nil (ne_nil_of_mem hk')
    have hm : e.physical < m.separator := (hleaves.1.mem he).2.2.2 m rfl
    rcases mem_cons.1 hk' with rfl | hk'
    · exact hm
    · exact hm.trans ((pairwise_cons.1 hincr).1 k' hk')

theorem Inv.mem_contents (h : Inv K t L ups) {e : LeafEntry} (he : e ∈ contents t L) :
    e.logicalKey ∈ K ∧ e.physical = physicalKey e.logicalKey e.row := by
  obtain ⟨n, hn, hmem⟩ := mem_flatMap.1 he
  obtain ⟨x, hx⟩ := h.leaves.of_mem hn
  exact ⟨(hx.mem hmem).1, (hx.mem hmem).2.1⟩

theorem Inv.contents_sorted (h : Inv K t L ups) :
    (contents t L).Pairwise (·.physical ≤ ·.physical) := by
  refine pairwise_flatMap.2 ⟨fun n hn => ?_, ?_⟩
  · obtain ⟨x, left, es, hpage, hes⟩ := h.leaves.of_mem hn
    rw [hpage]
    exact hes.sorted
  · refine h.pairwise_lt.imp_of_mem fun {k k'} hk hk' hlt e he e' he' => ?_
    obtain ⟨x, hx⟩ := h.leaves.of_mem hk'
    exact (hlt e he).le.trans (hx.mem he').2.2.1

end RedlineDb.Btree
