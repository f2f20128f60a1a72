import Mathlib.Data.List.Basic
import RedlineDb.IndexKeys

/-!
# Compound set operations

`exec/set_ops.rs`: UNION, INTERSECT and EXCEPT fold the rows of their operands from left to right
and tell rows apart by a key, the rendered columns with `|` behind each. A text may contain `|`, so
that two different rows have one key, and 1 and 1.0 have different keys though they are equal. The
result is right exactly where neither happens (`compound_set_iff`).
-/

namespace RedlineDb.SetOps
open Indexed List

inductive CompoundSetOp
  | unionDistinct | intersect | except
deriving DecidableEq

def ascii (s : String) : Bytes := s.toList.map fun c => UInt8.ofNat c.toNat

/-- `{:?}` of a slice. -/
def debugBytes (v : Bytes) : Bytes :=
  ascii "[" ++ (ascii ", ").intercalate (v.map fun b => ascii (toString b.toNat)) ++ ascii "]"

def renderValue : OwnedValue → Bytes
  | .null => ascii "N|"
  | .integer v => ascii "I" ++ ascii (toString v) ++ ascii "|"
  | .real bits => ascii "R" ++ ascii (toString bits.toNat) ++ ascii "|"
  | .text v => ascii "T" ++ v ++ ascii "|"
  | .blob v => ascii "B" ++ debugBytes v ++ ascii "|"

def rowKey (row : Row) : Bytes := row.flatMap renderValue

/-- The loop of `dedup_rows`, with the keys it has seen. -/
def dedupLoop (seen : List Bytes) : List Row → List Row
  | [] => []
  | row :: rows => if rowKey row ∈ seen then dedupLoop seen rows else row :: dedupLoop
      (rowKey row :: seen) rows

def dedupRows (rows : List Row) : List Row := dedupLoop [] rows

def checkArity (left right : List Row) : Except Error Unit :=
  match left.head?, right.head? with
  | some a, some b =>
    if a.length = b.length then .ok ()
    else
      .error (.unsupportedSql
        ("SELECTs to the left and right of a set operator do not have the same number of " ++
        s!"result columns ({a.length} vs {b.length})"))
  | _, _ => .ok ()

def combineTwo (op : CompoundSetOp) (left right : List Row) : List Row :=
  match op with
  | .unionDistinct => left ++ right
  | .intersect => (dedupRows left).filter fun row => rowKey row ∈ right.map rowKey
  | .except => (dedupRows left).filter fun row => rowKey row ∉ right.map rowKey

/-- The branches are given by their rows. -/
def collectCompoundSetRows (op : CompoundSetOp) : List (List Row) → Except Error (List Row)
  | [] => .ok []
  | first :: rest => do
    let accum ← rest.foldlM (fun accum next => do
      checkArity accum next
      return combineTwo op accum next) first
    return dedupRows accum

/-! ### What the operators are for -/

def Has (rows : List Row) (row : Row) : Prop := ∃ r ∈ rows, keyValuesEqual r row

def CompoundSetOp.holds : CompoundSetOp → Prop → Prop → Prop
  | .unionDistinct, p, q => p ∨ q
  | .intersect, p, q => p ∧ q
  | .except, p, q => p ∧ ¬ q

def Member (op : CompoundSetOp) (first : List Row) (rest : List (List Row)) (row : Row) : Prop :=
  rest.foldl (fun p rows => op.holds p (Has rows row)) (Has first row)

structure SetResult (op : CompoundSetOp) (first : List Row) (rest : List (List Row))
    (out : List Row) : Prop where
  distinct : out.Pairwise fun a b => ¬ keyValuesEqual a b
  subset : ∀ row ∈ out, row ∈ first ++ rest.flatten
  exact : ∀ row ∈ first ++ rest.flatten, Has out row ↔ Member op first rest row

/-- Rows of one arity. -/
abbrev Pool := { pool : Row → Prop // ∃ n, ∀ row, pool row → row.length = n }

abbrev bar : UInt8 := '|'.toUInt8

/-- A column with the letter of its kind. -/
def content : OwnedValue → Bytes
  | .null => ascii "N"
  | .integer v => ascii "I" ++ ascii (toString v)
  | .real bits => ascii "R" ++ ascii (toString bits.toNat)
  | .text v => ascii "T" ++ v
  | .blob v => ascii "B" ++ debugBytes v

/-- The columns of a row, each text cut at its bars. -/
def pieces (row : Row) : List Bytes := row.flatMap fun v => (content v).splitOn bar

def HasBar (row : Row) : Prop := ∃ t, .text t ∈ row ∧ bar ∈ t

/-- When the rows of a pool are told apart as SQL says. -/
structure ToldApart (pool : Row → Prop) : Prop where
  /-- No row is equal to another one: there is no 1 beside 1.0, and no 0.0 beside -0.0. -/
  same : ∀ a b, pool a → pool b → keyValuesEqual a b → a = b
  /-- No row falls into the pieces of another one where its texts have bars. -/
  bars : ∀ a b, pool a → pool b → HasBar a → pieces a = pieces b → a = b

/-- The keys tell the rows of the pool apart as `compare_values` does. -/
def KeysAgree (pool : Row → Prop) : Prop :=
  ∀ a b, pool a → pool b → (rowKey a = rowKey b ↔ keyValuesEqual a b)

variable {op : CompoundSetOp} {rows left right first : List Row} {rest : List (List Row)}
    {row : Row} {seen : List Bytes}
  {key : Bytes} {n : Nat} {a b : Row}

theorem sublist_dedupLoop : (dedupLoop seen rows).Sublist rows := by
  induction rows generalizing seen with
  | nil => exact .slnil
  | cons r rows ih =>
    unfold dedupLoop
    split
    · exact ih.cons r
    · exact ih.cons_cons r

theorem key_mem_dedupLoop : key ∈ (dedupLoop seen rows).map rowKey ↔ key ∈ rows.map rowKey ∧
    key ∉ seen := by
  induction rows generalizing seen with
  | nil => simp [dedupLoop]
  | cons r rows ih =>
    unfold dedupLoop
    split
    · next hr =>
      rw [ih, map_cons, mem_cons]
      exact and_congr_left fun hs => ⟨.inr, fun h => h.resolve_left fun he => hs (he ▸ hr)⟩
    · next hr =>
      rw [map_cons, map_cons, mem_cons, mem_cons, ih, mem_cons]
      by_cases he : key = rowKey r
      · simp [he, hr]
      · simp [he]

theorem pairwise_dedupLoop : (dedupLoop seen rows).Pairwise fun a b => rowKey a ≠ rowKey b := by
  induction rows generalizing seen with
  | nil => exact .nil
  | cons r rows ih =>
    unfold dedupLoop
    split
    · exact ih
    · exact pairwise_cons.2
        ⟨fun b hb he => (key_mem_dedupLoop.1 (mem_map_of_mem hb)).2 (he ▸ mem_cons_self), ih⟩

theorem mem_combineTwo (h : row ∈ combineTwo op left right) : row ∈ left ∨ row ∈ right := by
  cases op with
  | unionDistinct => exact mem_append.1 h
  | intersect | except => exact .inl (sublist_dedupLoop.mem (mem_filter.1 h).1)

theorem key_mem_combineTwo : key ∈ (combineTwo op left right).map rowKey ↔
    op.holds (key ∈ left.map rowKey) (key ∈ right.map rowKey) := by
  have hfilter : ∀ p : Bytes → Bool, key ∈ ((dedupRows left).filter (p ∘ rowKey)).map rowKey ↔
      key ∈ left.map rowKey ∧ p key := by
    intro p
    rw [← filter_map, mem_filter, dedupRows, key_mem_dedupLoop, and_iff_left not_mem_nil]
  cases op with
  | unionDistinct => rw [combineTwo, map_append, mem_append, CompoundSetOp.holds]
  | intersect =>
    refine (hfilter fun k => k ∈ right.map rowKey).trans ?_
    rw [decide_eq_true_iff, CompoundSetOp.holds]
  | except => exact (hfilter fun k => k ∉ right.map rowKey).trans (by
      rw [decide_eq_true_iff, CompoundSetOp.holds])

theorem checkArity_ok (hl : ∀ r ∈ left, r.length = n) (hr : ∀ r ∈ right, r.length = n) :
    checkArity left right = .ok () := by
  cases left with
  | nil => rfl
  | cons a left =>
    cases right with
    | nil => rfl
    | cons b right => exact if_pos ((hl a mem_cons_self).trans (hr b mem_cons_self).symm)

theorem foldlM_combineTwo (h : ∀ row ∈ first ++ rest.flatten, row.length = n) :
    ∃ accum, (rest.foldlM (fun accum next => do
      checkArity accum next
      return combineTwo op accum next) first : Except Error _) = .ok accum ∧
    (∀ row ∈ accum, row ∈ first ++ rest.flatten) ∧ ∀ key, key ∈ accum.map rowKey ↔
      rest.foldl (fun p rows => op.holds p (key ∈ rows.map rowKey)) (key ∈ first.map rowKey) := by
  induction rest generalizing first with
  | nil => exact ⟨first, rfl, by simp, fun _ => .rfl⟩
  | cons next rest ih =>
    have hin : ∀ row ∈ combineTwo op first next ++ rest.flatten, row ∈ first ++
        (next :: rest).flatten := by
      intro row hm
      rcases mem_append.1 hm with hm | hm
      · rcases mem_combineTwo hm with hm | hm <;> simp [hm]
      · simp only [flatten_cons, mem_append, hm, or_true]
    obtain ⟨accum, hfold, hsub, hkeys⟩ := ih fun row hm => h row (hin row hm)
    refine ⟨accum, ?_, fun row hm => hin row (hsub row hm), fun key => ?_⟩
    · rw [foldlM_cons, checkArity_ok (fun r hm => h r (by simp [hm])) fun r hm => h r
        (by simp [hm])]
      exact hfold
    · rw [hkeys, propext key_mem_combineTwo]
      rfl

theorem keyValuesEqual_self (row : Row) : keyValuesEqual row row := by
  have hself : ∀ v, compareValues v v = .eq := by
    intro v
    cases v with
    | real bits => cases h : doubleRank bits <;> simp [compareValues, compareRanks, h]
    | _ => simp [compareValues]
  simp [keyValuesEqual, zip_eq_zipWith, zipWith_self, hself]

/-! ### Numbers and blobs can be read back -/

theorem toList_repr (v : Int) :
    v.repr.toList = if 0 ≤ v then Nat.toDigits 10 v.toNat else '-' :: Nat.toDigits 10
      (-v).toNat := by
  rw [Int.repr_eq_if]
  split <;> simp [Nat.toList_repr]

theorem toNat_of_mem_toDigits {n : Nat} {c : Char} (h : c ∈ Nat.toDigits 10 n) :
    48 ≤ c.toNat ∧ c.toNat ≤ 57 := by
  have hdigit := Nat.isDigit_of_mem_toDigits (by decide) (by decide) h
  simp only [Char.isDigit, Bool.and_eq_true, decide_eq_true_eq] at hdigit
  exact ⟨hdigit.1, hdigit.2⟩

theorem toNat_of_mem_repr {v : Int} {c : Char} (h : c ∈ v.repr.toList) :
    c = '-' ∨ 48 ≤ c.toNat ∧ c.toNat ≤ 57 := by
  rw [toList_repr] at h
  split at h
  · exact .inr (toNat_of_mem_toDigits h)
  · exact (mem_cons.1 h).imp_right toNat_of_mem_toDigits

theorem toList_repr_inj {v w : Int} (h : v.repr.toList = w.repr.toList) : v = w := by
  have hdigits : ∀ m n, Nat.toDigits 10 m = Nat.toDigits 10 n → m = n := by
    intro m n hmn
    rw [← Nat.ofDigitChars_ten_toDigits (n := m), hmn, Nat.ofDigitChars_ten_toDigits]
  have hminus : ∀ m l, Nat.toDigits 10 m ≠ '-' :: l := by
    intro m l hm
    exact absurd (toNat_of_mem_toDigits (hm ▸ mem_cons_self)) (by decide)
  rw [toList_repr, toList_repr] at h
  split at h <;> split at h
  · have := hdigits _ _ h
    omega
  · exact absurd h (hminus _ _)
  · exact absurd h.symm (hminus _ _)
  · have := hdigits _ _ (cons.inj h).2
    omega

theorem ascii_repr_inj {v w : Int} (h : ascii (toString v) = ascii (toString w)) : v = w := by
  have hback : ∀ u : Int, (ascii (toString u)).map (fun b => Char.ofNat b.toNat) =
      u.repr.toList := by
    intro u
    rw [ascii, map_map]
    refine (map_congr_left fun c hc => ?_).trans (map_id _)
    have hlt : c.toNat < 256 := by
      rcases toNat_of_mem_repr hc with rfl | hc
      · decide
      · omega
    simp [Nat.mod_eq_of_lt hlt]
  exact toList_repr_inj (by rw [← hback v, ← hback w, h])

theorem notMem_ascii_repr {v : Int} {b : UInt8} (hb : b = bar ∨ b = ','.toUInt8) :
    b ∉ ascii (toString v) := by
  intro h
  obtain ⟨c, hc, rfl⟩ := mem_map.1 h
  rcases toNat_of_mem_repr hc with rfl | hc
  · revert hb
    decide
  · have htwo : UInt8.ofNat c.toNat = 124 ∨ UInt8.ofNat c.toNat = 44 := hb
    rcases htwo with h | h
    all_goals
      have := congrArg UInt8.toNat h
      simp at this
      omega

/-- Parts that are not empty and have no `sep` can be read back. -/
theorem intercalate_inj {sep : UInt8} {tail : Bytes} {l m : List Bytes}
    (hl : ∀ x ∈ l, x ≠ [] ∧ sep ∉ x)
    (hm : ∀ x ∈ m, x ≠ [] ∧ sep ∉ x)
    (h : (sep :: tail).intercalate l = (sep :: tail).intercalate m) : l = m := by
  have split : ∀ (x y : Bytes) l,
      (sep :: tail).intercalate
      (x :: y :: l) = x ++ sep :: (tail ++ (sep :: tail).intercalate (y :: l)) := by
    intro x y l
    simp [intercalate_cons_cons]
  induction l generalizing m with
  | nil =>
    match m, hm, h with
    | [], _, _ => rfl
    | [x], hm, h => exact absurd (by simpa using h) (hm x mem_cons_self).1.symm
    | x :: y :: m, hm, h => simp [split] at h
  | cons x l ih =>
    have hx := hl x mem_cons_self
    match l, m, hm, h with
    | [], [], _, h => exact absurd (by simpa using h) hx.1
    | _ :: _, [], _, h => simp [split] at h
    | [], [y], _, h => simpa using h
    | [], y :: z :: m, _, h =>
      rw [split, intercalate_singleton] at h
      exact absurd (h ▸ by simp) hx.2
    | z :: l, [y], hm, h =>
      rw [split, intercalate_singleton] at h
      exact absurd (h ▸ by simp) (hm y mem_cons_self).2
    | z :: l, y :: w :: m, hm, h =>
      rw [split, split] at h
      obtain rfl : x = y := by
        have hhead := congrArg (fun l => (l.splitOn sep).head?) h
        simpa [splitOn_append_cons_self_of_not_mem, hx.2, (hm y mem_cons_self).2] using hhead
      simp only [append_cancel_left_eq, cons.injEq, true_and] at h
      rw [ih (forall_mem_cons.1 hl).2 (forall_mem_cons.1 hm).2 h]

theorem ascii_repr_ne_nil {v : Int} : ascii (toString v) ≠ [] := by
  rw [ascii, Ne, map_eq_nil_iff, Int.toString_eq_repr, Int.repr_eq_if]
  split
  · rw [Nat.toList_repr]
    exact Nat.toDigits_ne_nil
  · simp

theorem debugBytes_inj {v w : Bytes} (h : debugBytes v = debugBytes w) : v = w := by
  have hparts : ∀ u : Bytes, ∀ x ∈ u.map fun b => ascii (toString b.toNat), x ≠ [] ∧
      ','.toUInt8 ∉ x := by
    simp only [mem_map]
    rintro u _ ⟨b, -, rfl⟩
    exact ⟨ascii_repr_ne_nil (v := b.toNat), notMem_ascii_repr (v := b.toNat) (.inr rfl)⟩
  have hmap := intercalate_inj (hparts v) (hparts w) (append_cancel_left (append_cancel_right h))
  refine map_injective_iff.2 (fun x y hxy => ?_) hmap
  exact UInt8.toNat_inj.1 (Int.ofNat_inj.1 (ascii_repr_inj hxy))

theorem notMem_debugBytes {v : Bytes} : bar ∉ debugBytes v := by
  have hparts : ∀ l : List Bytes, (∀ x ∈ l, bar ∉ x) → bar ∉ (ascii ", ").intercalate l := by
    intro l hl
    induction l with
    | nil => simp
    | cons x l ih =>
      have hsep : bar ∉ ascii ", " := by decide
      cases l with
      | nil => simpa using hl
      | cons y l =>
        rw [forall_mem_cons] at hl
        simp only [intercalate_cons_cons, mem_append, not_or]
        exact ⟨⟨hl.1, hsep⟩, ih hl.2⟩
  simp only [debugBytes, mem_append, not_or]
  refine ⟨⟨by decide, hparts _ fun x hx => ?_⟩, by decide⟩
  obtain ⟨b, -, rfl⟩ := mem_map.1 hx
  exact notMem_ascii_repr (v := b.toNat) (.inl rfl)

/-! ### When two rows have one key -/

theorem renderValue_eq (v : OwnedValue) : renderValue v = content v ++ [bar] := by
  cases v <;> rfl

theorem notMem_content {v : OwnedValue} (h : ∀ t, v = .text t → bar ∉ t) : bar ∉ content v := by
  cases v with
  | null => decide
  | integer v => exact not_mem_append (by decide) (notMem_ascii_repr (.inl rfl))
  | real bits => exact not_mem_append (by decide) (notMem_ascii_repr (v := bits.toNat) (.inl rfl))
  | text v => exact not_mem_append (by decide) (h v rfl)
  | blob v => exact not_mem_append (by decide) notMem_debugBytes

theorem content_injective : Function.Injective content := by
  intro v w h
  cases v <;> cases w
  case null.null => rfl
  case integer.integer v w => rw [ascii_repr_inj (append_cancel_left h)]
  case real.real v w =>
    rw [UInt64.toNat_inj.1 (Int.ofNat_inj.1 (ascii_repr_inj (append_cancel_left h)))]
  case text.text v w => rw [append_cancel_left h]
  case blob.blob v w => rw [debugBytes_inj (append_cancel_left h)]
  -- the letters differ
  all_goals exact absurd (congrArg head? h) (by simp [content, ascii])

theorem splitOn_rowKey (row : Row) : (rowKey row).splitOn bar = pieces row ++ [[]] := by
  induction row with
  | nil => rfl
  | cons v row ih =>
    rw [pieces, flatMap_cons, append_assoc, ← pieces, ← ih, ← splitOn_append_cons_self, rowKey,
      flatMap_cons,
      renderValue_eq, append_assoc]
    rfl

theorem rowKey_eq_iff : rowKey a = rowKey b ↔ pieces a = pieces b := by
  rw [← append_left_inj [[]], ← splitOn_rowKey, ← splitOn_rowKey]
  refine ⟨congrArg _, fun h => ?_⟩
  calc rowKey a = [bar].intercalate ((rowKey a).splitOn bar) := (intercalate_splitOn bar).symm
    _ = [bar].intercalate ((rowKey b).splitOn bar) := by rw [h]
    _ = rowKey b := intercalate_splitOn bar

theorem pieces_of_noBar (h : ¬ HasBar a) : pieces a = a.map content := by
  rw [pieces, map_eq_flatMap]
  refine flatMap_congr fun v hv => splitOn_eq_singleton (notMem_content ?_)
  rintro t rfl hbar
  exact h ⟨t, hv, hbar⟩

theorem eq_text_of_compareValues {v w : OwnedValue} {t : Bytes} (h : compareValues v w = .eq)
    (ht : v = .text t ∨ w = .text t) : v = w := by
  rcases ht with rfl | rfl
  · cases w <;> simp_all [compareValues]
  · cases v <;> simp_all [compareValues]

theorem eq_of_pieces (hkeys : pieces a = pieces b) (heq : keyValuesEqual a b) : a = b := by
  simp only [keyValuesEqual, Bool.and_eq_true, beq_iff_eq] at heq
  obtain ⟨hlen, hall⟩ := heq
  induction a generalizing b with
  | nil => exact (length_eq_zero_iff.1 hlen.symm).symm
  | cons v a ih =>
    obtain ⟨w, b, rfl⟩ := exists_cons_of_length_eq_add_one hlen.symm
    simp only [zip_cons_cons, all_cons, Bool.and_eq_true, beq_iff_eq] at hall
    obtain rfl : v = w := by
      by_cases ht : ∃ t, v = .text t ∨ w = .text t
      · exact eq_text_of_compareValues hall.1 ht.choose_spec
      · -- neither is cut
        have hv := splitOn_eq_singleton (notMem_content fun t h => absurd ⟨t, .inl h⟩ ht)
        have hw := splitOn_eq_singleton (notMem_content fun t h => absurd ⟨t, .inr h⟩ ht)
        simp only [pieces, flatMap_cons, hv, hw, singleton_append, cons.injEq] at hkeys
        exact content_injective hkeys.1
    rw [ih (append_cancel_left hkeys) (by simpa using hlen) hall.2]

theorem keysAgree_iff {pool : Row → Prop} : KeysAgree pool ↔ ToldApart pool := by
  constructor
  · intro h
    have hsame : ∀ a b, pool a → pool b → keyValuesEqual a b → a = b := by
      intro a b ha hb heq
      exact eq_of_pieces (rowKey_eq_iff.1 ((h a b ha hb).2 heq)) heq
    refine ⟨hsame, fun a b ha hb _ hp => hsame a b ha hb ?_⟩
    exact (h a b ha hb).1 (rowKey_eq_iff.2 hp)
  · intro h a b ha hb
    refine ⟨fun hkey => ?_, fun heq => by rw [h.same a b ha hb heq]⟩
    suffices heq : a = b from heq ▸ keyValuesEqual_self a
    have hp := rowKey_eq_iff.1 hkey
    by_cases hbar : HasBar a ∨ HasBar b
    · rcases hbar with hbar | hbar
      · exact h.bars a b ha hb hbar hp
      · exact (h.bars b a hb ha hbar hp.symm).symm
    · rw [not_or] at hbar
      rw [pieces_of_noBar hbar.1, pieces_of_noBar hbar.2] at hp
      exact map_injective_iff.2 content_injective hp

/-- On operands with rows from a pool of one arity every operator returns what SQL says, without
duplicates, if and only if no two different rows of the pool are equal or fall into the same pieces.
-/
theorem compound_set_iff (pool : Pool) :
    (∀ op first rest, (∀ rows ∈ first :: rest, ∀ row ∈ rows, pool.1 row) →
      ∃ out, collectCompoundSetRows op (first :: rest) = .ok out ∧ SetResult op first rest out) ↔
        ToldApart pool.1 := by
  rw [← keysAgree_iff]
  obtain ⟨pool, n, hn⟩ := pool
  constructor
  · -- the union of two rows already tells
    intro h a b (ha : pool a) (hb : pool b)
    obtain ⟨out, hout, hres⟩ := h .unionDistinct [a] [[b]] (by simp [ha, hb])
    have hlen : a.length = b.length := (hn a ha).trans (hn b hb).symm
    by_cases he : rowKey b = rowKey a
    · obtain rfl : [a] = out := by
        simpa [collectCompoundSetRows, checkArity, combineTwo, dedupRows, dedupLoop, hlen,
          he] using hout
      have hb := (hres.exact b (by simp)).2 (.inr ⟨b, mem_singleton_self b, keyValuesEqual_self b⟩)
      exact iff_of_true he.symm (by simpa [Has] using hb)
    · obtain rfl : [a, b] = out := by
        simpa [collectCompoundSetRows, checkArity, combineTwo, dedupRows, dedupLoop, hlen,
          he] using hout
      exact iff_of_false (Ne.symm he) (by simpa using hres.distinct)
  · intro hk op first rest h
    have hall : ∀ row ∈ first ++ rest.flatten, pool row := by
      intro row hm
      rcases mem_append.1 hm with hm | hm
      · exact h first mem_cons_self row hm
      · obtain ⟨rows, hrows, hm⟩ := mem_flatten.1 hm
        exact h rows (mem_cons_of_mem _ hrows) row hm
    have has_iff : ∀ {rows row}, (∀ r ∈ rows, pool r) → pool row →
        (Has rows row ↔ rowKey row ∈ rows.map rowKey) := by
      intro rows row hrows hrow
      rw [mem_map]
      exact exists_congr fun r => and_congr_right fun hr => (hk r row (hrows r hr) hrow).symm
    obtain ⟨accum, hfold, hsub, hkeys⟩ := foldlM_combineTwo fun row hm => hn row (hall row hm)
    have hin : ∀ row ∈ dedupRows accum, row ∈ first ++ rest.flatten :=
      fun row hm => hsub row (sublist_dedupLoop.mem hm)
    refine ⟨dedupRows accum, by rw [collectCompoundSetRows, hfold]; rfl, ?_, hin, fun row hm => ?_⟩
    · refine pairwise_dedupLoop.imp_of_mem fun {a b} ha hb hne he => hne ?_
      exact (hk a b (hall a (hin a ha)) (hall b (hin b hb))).2 he
    · have hrow := hall row hm
      rw [has_iff (fun r hr => hall r (hin r hr)) hrow, dedupRows, key_mem_dedupLoop,
        and_iff_left not_mem_nil, hkeys,
        Member, propext (has_iff (h first mem_cons_self) hrow)]
      refine iff_of_eq (foldl_ext _ _ _ fun p rows hm => ?_)
      rw [propext (has_iff (h rows (mem_cons_of_mem _ hm)) hrow)]

/-- Two rows of texts, 'a|Tb' and 'c' against 'a' and 'b|Tc'. -/
theorem compound_set_texts_merged :
    let a : Row := [.text (ascii "a|Tb"), .text (ascii "c")]
    let b : Row := [.text (ascii "a"), .text (ascii "b|Tc")]
    collectCompoundSetRows .unionDistinct [[a], [b]] = .ok [a] ∧ keyValuesEqual a b = false := by
  decide +kernel

end RedlineDb.SetOps
