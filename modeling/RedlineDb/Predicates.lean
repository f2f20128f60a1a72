import RedlineDb.IndexKeys

/-!
# BETWEEN and IN

`exec/expr/predicate.rs` and the BETWEEN arm of `eval_scalar`, with the operands' values given:
evaluating an item of a list and running a subquery are parameters that may fail. SQL reads both
predicates as combinations of comparisons in three truth values, NULL being unknown. The code
decides on the first NULL it meets, so it answers NULL also where a later comparison settles the
matter (`three_valued_null`).
-/

namespace RedlineDb.Predicate
open Indexed List

def between (value low high : OwnedValue) (negated : Bool) : OwnedValue :=
  if value = .null ∨ low = .null ∨ high = .null then .null
  else
    let ok := compareValues value low != .lt && compareValues value high != .gt
    .integer (if ok ^^ negated then 1 else 0)

def rowEqLoop : List (OwnedValue × OwnedValue) → Option Bool
  | [] => some true
  | (l, r) :: rest =>
    if l = .null ∨ r = .null then none
    else if compareValues l r = .eq then rowEqLoop rest else some false

def rowEq (left right : Row) : Except Error (Option Bool) :=
  if left.length ≠ right.length then
    .error (.unsupportedSql s!"row value arity mismatch: {left.length} vs {right.length}")
  else .ok (rowEqLoop (left.zip right))

/-- The loop of `in_list_result` and of `finish_in_rows`: `found` and `saw_null`. An item is
evaluated when the loop comes to it. -/
def inLoop (value : Row) : List (Except Error Row) → Bool → Except Error (Bool × Bool)
  | [], sawNull => .ok (false, sawNull)
  | item :: items, sawNull => do
    match ← rowEq value (← item) with
    | some true => .ok (true, sawNull)
    | some false => inLoop value items sawNull
    | none => inLoop value items true

def finishInResult (found sawNull negated : Bool) : OwnedValue :=
  if found then .integer (if negated then 0 else 1)
  else if sawNull then .null
  else .integer (if negated then 1 else 0)

def inListResult (value : Except Error Row) (list : List (Except Error Row)) (negated : Bool) :
    Except Error OwnedValue := do
  let value ← value
  if .null ∈ value then return .null
  let (found, sawNull) ← inLoop value list false
  return finishInResult found sawNull negated

def finishInRows (value : Row) (rows : List Row) (negated : Bool) : Except Error OwnedValue := do
  let (found, sawNull) ← inLoop value (rows.map .ok) false
  return finishInResult found sawNull negated

/-- A bound subquery: its columns, whether its rows may be cached, and what running it gives, with
`used_correlated_lookup`. -/
structure Subquery where
  outputColumns : Nat
  cacheable : Bool
  materialize : Except Error (List Row × Bool)

/-- The second result is the entry of `IN_SUBQUERY_ROW_CACHE` afterwards. -/
def inSubqueryResult (q : Subquery) (connected : Bool) (cache : Option (List Row))
    (value : Except Error Row)
    (negated : Bool) : Except Error (OwnedValue × Option (List Row)) := do
  let value ← value
  if .null ∈ value then return (.null, cache)
  if !connected then throw (.transactionState "subquery evaluation requires an active connection")
  if q.outputColumns ≠ value.length then
    throw (.unsupportedSql "IN subquery must return the same number of columns as the row value")
  match q.cacheable, cache with
  | true, some rows => return (← finishInRows value rows negated, cache)
  | true, none =>
    let (rows, used) ← q.materialize
    let result ← finishInRows value rows negated
    return (result, if used then none else some rows)
  | false, _ =>
    let (rows, _) ← q.materialize
    return (← finishInRows value rows negated, cache)

/-! ### Three truth values -/

def and3 : Option Bool → Option Bool → Option Bool
  | some false, _ | _, some false => some false
  | some true, some true => some true
  | _, _ => none

def or3 : Option Bool → Option Bool → Option Bool
  | some true, _ | _, some true => some true
  | some false, some false => some false
  | _, _ => none

def not3 (t : Option Bool) : Option Bool := t.map (!·)

def compare3 (accept : Ordering → Bool) (l r : OwnedValue) : Option Bool :=
  if l = .null ∨ r = .null then none else some (accept (compareValues l r))

def sqlBetween (x a b : OwnedValue) : Option Bool :=
  and3 (compare3 (· != .lt) x a) (compare3 (· != .gt) x b)

def columnEqs (left right : Row) : List (Option Bool) :=
  (left.zip right).map fun p => compare3 (· == .eq) p.1 p.2

def sqlRowEq (left right : Row) : Option Bool := (columnEqs left right).foldr and3 (some true)

def sqlIn (value : Row) (rows : List Row) : Option Bool :=
  (rows.map (sqlRowEq value)).foldr or3 (some false)

def answer (negated : Bool) (t : Option Bool) : OwnedValue :=
  match if negated then not3 t else t with
  | none => .null
  | some b => .integer (if b then 1 else 0)

theorem answer_inj {negated : Bool} {t u : Option Bool} : answer negated t = answer negated u ↔
    t = u := by
  rcases t with _ | _ | _ <;> rcases u with _ | _ | _ <;> cases negated <;> decide

theorem and3_some (p q : Bool) :
    and3 (some p) (some q) = some (p && q) := by cases p <;> cases q <;> rfl

theorem foldr_and3 (ts : List (Option Bool)) :
    ts.foldr and3 (some true) = if some false ∈ ts then some false else if none ∈ ts then
      none else some true := by
  induction ts with
  | nil => rfl
  | cons t ts ih =>
    rw [foldr_cons, ih]
    rcases t with _ | _ | _ <;> by_cases hf : some false ∈ ts <;> by_cases hn : none ∈ ts <;>
      simp [and3, hf, hn]

theorem foldr_or3 (ts : List (Option Bool)) :
    ts.foldr or3 (some false) = if some true ∈ ts then some true else if none ∈ ts then
      none else some false := by
  induction ts with
  | nil => rfl
  | cons t ts ih =>
    rw [foldr_cons, ih]
    rcases t with _ | _ | _ <;> by_cases hf : some true ∈ ts <;> by_cases hn : none ∈ ts <;>
      simp [or3, hf, hn]

/-! ### When the code agrees -/

/-- A NULL bound does not hide that the other one excludes the value. -/
def BetweenOk (x a b : OwnedValue) : Prop :=
  x = .null ∨ (a = .null → b = .null ∨ compareValues x b ≠ .gt) ∧
    (b = .null → a = .null ∨ compareValues x a ≠ .lt)

/-- Some row differs from the value in no column, or the value is without NULL and each row differs
from it in a column before any NULL. -/
def InOk (value : Row) (rows : List Row) : Prop :=
  (∃ row ∈ rows, some false ∉ columnEqs value row) ∨
    .null ∉ value ∧ ∀ row ∈ rows, (columnEqs value row).find? (· ≠ some true) = some (some false)

theorem between_eq_iff (x a b : OwnedValue) (negated : Bool) :
    between x a b negated = answer negated (sqlBetween x a b) ↔ BetweenOk x a b := by
  have hcode : between x a b negated = answer negated
      (if x = .null ∨ a = .null ∨ b = .null then none
      else some (compareValues x a != .lt && compareValues x b != .gt)) := by
    unfold between
    split
    · cases negated <;> rfl
    · cases negated <;> simp [answer, not3]
  rw [hcode, answer_inj]
  by_cases hx : x = .null
  · simp [BetweenOk, sqlBetween, compare3, and3, hx]
  by_cases ha : a = .null
  · by_cases hb : b = .null
    · simp [BetweenOk, sqlBetween, compare3, and3, ha, hb]
    · cases hc : compareValues x b <;> simp [BetweenOk, sqlBetween, compare3, and3, hx, ha, hb, hc]
  · by_cases hb : b = .null
    · cases hc : compareValues x a <;> simp [BetweenOk, sqlBetween, compare3, and3, hx, ha, hb, hc]
    · simp [BetweenOk, sqlBetween, compare3, and3_some, hx, ha, hb]

theorem rowEqLoop_zip (left right : Row) :
    rowEqLoop (left.zip right) = ((columnEqs left right).find? (· ≠ some true)).getD
      (some true) := by
  rw [columnEqs]
  induction left.zip right with
  | nil => rfl
  | cons p ps ih =>
    obtain ⟨l, r⟩ := p
    by_cases hn : l = .null ∨ r = .null
    · simp [rowEqLoop, compare3, hn]
    · by_cases hc : compareValues l r = .eq
      · simpa [rowEqLoop, compare3, hn, hc] using ih
      · simp [rowEqLoop, compare3, hn, hc]

variable {value row : Row} {rows : List Row}

theorem sqlRowEq_eq_false : sqlRowEq value row = some false ↔ some false ∈ columnEqs value row := by
  rw [sqlRowEq, foldr_and3]
  split
  · simp [*]
  · split <;> simp [*]

theorem rowEqLoop_of_ne_false (h : sqlRowEq value row ≠ some false) :
    rowEqLoop (value.zip row) = sqlRowEq value row := by
  have hf : some false ∉ columnEqs value row := fun hm => h (sqlRowEq_eq_false.2 hm)
  rw [rowEqLoop_zip, sqlRowEq, foldr_and3, if_neg hf]
  cases he : (columnEqs value row).find? (· ≠ some true) with
  | none =>
    have hall := find?_eq_none.1 he
    rw [if_neg fun hn => hall none hn (by decide)]
    rfl
  | some t =>
    have ht : t ≠ some true := by simpa using find?_some he
    have hm := mem_of_find?_eq_some he
    rcases t with _ | _ | _
    · rw [if_pos hm]
      rfl
    · exact absurd hm hf
    · exact absurd rfl ht

theorem rowEqLoop_ne_true (h : sqlRowEq value row = some false) :
    rowEqLoop (value.zip row) ≠ some true := by
  rw [rowEqLoop_zip]
  cases he : (columnEqs value row).find? (· ≠ some true) with
  | none => exact absurd (find?_eq_none.1 he _ (sqlRowEq_eq_false.1 h)) (by decide)
  | some t => simpa using find?_some he

theorem rowEqLoop_eq_false :
    rowEqLoop (value.zip row) = some false ↔ (columnEqs value row).find? (· ≠ some true) =
      some (some false) := by
  rw [rowEqLoop_zip]
  cases (columnEqs value row).find? (· ≠ some true) <;> simp

theorem sqlRowEq_ne_true (hlen : row.length = value.length) (hnull : .null ∈ value) :
    sqlRowEq value row ≠ some true := by
  have hn : none ∈ columnEqs value row := by
    obtain ⟨i, hi, hv⟩ := mem_iff_getElem.1 hnull
    refine mem_map.2 ⟨(value[i], row[i]), mem_iff_getElem.2 ⟨i, by simp [hlen, hi], by simp⟩, ?_⟩
    simp [compare3, hv]
  rw [sqlRowEq, foldr_and3]
  split <;> simp

def codeIn (value : Row) (rows : List Row) : Option Bool :=
  if .null ∈ value then none
  else if some true ∈ rows.map fun row => rowEqLoop (value.zip row) then some true
  else if none ∈ rows.map fun row => rowEqLoop (value.zip row) then none
  else some false

theorem codeIn_eq_iff (hlen : ∀ row ∈ rows, row.length = value.length) :
    codeIn value rows = sqlIn value rows ↔ InOk value rows := by
  rw [sqlIn, foldr_or3]
  by_cases hsome : ∃ row ∈ rows, sqlRowEq value row ≠ some false
  · have hok : InOk value rows := .inl (by simpa only [ne_eq, sqlRowEq_eq_false] using hsome)
    refine iff_of_true ?_ hok
    obtain ⟨row, hrow, hne⟩ := hsome
    have hnone (ht : some true ∉ rows.map (sqlRowEq value)) : sqlRowEq value row = none := by
      rcases he : sqlRowEq value row with _ | _ | _
      · rfl
      · exact absurd he hne
      · exact absurd (mem_map.2 ⟨row, hrow, he⟩) ht
    by_cases hnull : .null ∈ value
    · have htrue : some true ∉ rows.map (sqlRowEq value) := fun hm => by
        obtain ⟨r, hr, he⟩ := mem_map.1 hm
        exact sqlRowEq_ne_true (hlen r hr) hnull he
      rw [codeIn, if_pos hnull, if_neg htrue, if_pos (mem_map.2 ⟨row, hrow, hnone htrue⟩)]
    · have htrue : some true ∈ rows.map (fun row => rowEqLoop (value.zip row)) ↔
          some true ∈ rows.map (sqlRowEq value) := by
        simp only [mem_map]
        refine exists_congr fun r => and_congr_right fun _ => ⟨fun he => ?_, fun he => ?_⟩
        · rw [← rowEqLoop_of_ne_false fun hf => rowEqLoop_ne_true hf he, he]
        · rw [rowEqLoop_of_ne_false (by simp [he]), he]
      rw [codeIn, if_neg hnull, if_congr htrue rfl rfl]
      by_cases ht : some true ∈ rows.map (sqlRowEq value)
      · rw [if_pos ht, if_pos ht]
      · -- this row is unknown for both
        rw [if_neg ht, if_neg ht,
          if_pos (mem_map.2 ⟨row, hrow, (rowEqLoop_of_ne_false hne).trans (hnone ht)⟩),
          if_pos (mem_map.2 ⟨row, hrow, hnone ht⟩)]
  · have hall : ∀ row ∈ rows, sqlRowEq value row = some false := by simpa using hsome
    have ht : some true ∉ rows.map fun row => rowEqLoop (value.zip row) := fun hm => by
      obtain ⟨r, hr, he⟩ := mem_map.1 hm
      exact rowEqLoop_ne_true (hall r hr) he
    rw [map_congr_left hall, if_neg (by simp), if_neg (by simp), codeIn, if_neg ht]
    have hin : InOk value rows ↔ .null ∉ value ∧ ∀ row ∈ rows, rowEqLoop (value.zip row) =
        some false := by
      simp only [rowEqLoop_eq_false]
      refine ⟨fun h => h.resolve_left ?_, .inr⟩
      rintro ⟨r, hr, hf⟩
      exact hf (sqlRowEq_eq_false.1 (hall r hr))
    rw [hin]
    by_cases hnull : .null ∈ value
    · simp [hnull]
    · rw [if_neg hnull]
      constructor
      · intro h
        refine ⟨hnull, fun r hr => ?_⟩
        rcases he : rowEqLoop (value.zip r) with _ | _ | _
        · rw [if_pos (mem_map.2 ⟨r, hr, he⟩)] at h
          cases h
        · rfl
        · exact absurd (mem_map.2 ⟨r, hr, he⟩) ht
      · intro h
        exact if_neg (by simp +contextual [h.2])

theorem inLoop_eq {value : Row} {rows : List Row} (hlen : ∀ row ∈ rows, row.length = value.length)
    (sawNull : Bool) :
    ∃ found saw, inLoop value (rows.map .ok) sawNull = .ok (found, saw) ∧
      ∀ negated, finishInResult found saw negated = answer negated
        (if some true ∈ rows.map (fun row => rowEqLoop (value.zip row)) then some true
        else if sawNull ∨ none ∈ rows.map (fun row => rowEqLoop (value.zip row)) then
          none else some false) := by
  induction rows generalizing sawNull with
  | nil => exact ⟨false, sawNull, rfl, by cases sawNull <;> simp [finishInResult, answer, not3]⟩
  | cons row rows ih =>
    have hrow : rowEq value row = .ok (rowEqLoop (value.zip row)) := by
      rw [rowEq, if_neg (by simp [hlen row mem_cons_self])]
    have hstep : inLoop value (map .ok (row :: rows)) sawNull = match rowEqLoop (value.zip row) with
        | some true => .ok (true, sawNull)
        | some false => inLoop value (rows.map .ok) sawNull
        | none => inLoop value (rows.map .ok) true := by
      simp only [map_cons, inLoop, bind, Except.bind, hrow]
    have ih := ih fun r hr => hlen r (mem_cons_of_mem _ hr)
    rcases he : rowEqLoop (value.zip row) with _ | _ | _
    · obtain ⟨found, saw, hloop, hans⟩ := ih true
      exact ⟨found, saw, by rw [hstep, he, hloop], by simpa [he] using hans⟩
    · obtain ⟨found, saw, hloop, hans⟩ := ih sawNull
      exact ⟨found, saw, by rw [hstep, he, hloop], by simpa [he] using hans⟩
    · exact ⟨true, sawNull, by rw [hstep, he], by simp [he, finishInResult, answer, not3]⟩

theorem finishInRows_eq (hlen : ∀ row ∈ rows, row.length = value.length) (hnull : .null ∉ value)
    (negated : Bool) :
    finishInRows value rows negated = .ok (answer negated (codeIn value rows)) := by
  obtain ⟨found, saw, hloop, hans⟩ := inLoop_eq hlen false
  simp only [finishInRows, hloop, bind, Except.bind, hans negated, codeIn, if_neg hnull]
  simp [pure, Except.pure]

theorem inListResult_eq (hlen : ∀ row ∈ rows, row.length = value.length) (negated : Bool) :
    inListResult (.ok value) (rows.map .ok) negated = .ok (answer negated (codeIn value rows)) := by
  by_cases hnull : .null ∈ value
  · cases negated <;>
      simp [inListResult, codeIn, hnull, answer, not3, bind, Except.bind, pure, Except.pure]
  · have hrows := finishInRows_eq hlen hnull negated
    simpa only [inListResult, finishInRows, bind, Except.bind, if_neg hnull] using hrows

theorem inSubqueryResult_eq (hlen : ∀ row ∈ rows, row.length = value.length)
    (cacheable used cached negated : Bool) :
    (inSubqueryResult ⟨value.length, cacheable, .ok (rows, used)⟩ true
      (if cached then some rows else none) (.ok value)
      negated).map (·.1) = .ok (answer negated (codeIn value rows)) := by
  by_cases hnull : .null ∈ value
  · cases negated <;>
      simp [inSubqueryResult, codeIn, hnull, answer, not3, bind, Except.bind, pure, Except.pure,
        Except.map]
  · have hrows := finishInRows_eq hlen hnull negated
    cases cacheable <;> cases cached <;>
      simp [inSubqueryResult, hnull, hrows, bind, Except.bind, pure, Except.pure, Except.map]

/-- BETWEEN and IN, over a list and over the rows of a subquery, give the value of their reading in
three truth values, negated or not, exactly under the two conditions. -/
theorem three_valued_iff (x a b : OwnedValue) (value : Row)
    (rows : List { row : Row // row.length = value.length })
    (cacheable used cached negated : Bool) :
    (between x a b negated = answer negated (sqlBetween x a b) ↔ BetweenOk x a b) ∧
    (inListResult (.ok value) ((rows.map (·.1)).map .ok) negated =
      .ok (answer negated (sqlIn value (rows.map (·.1)))) ↔
      InOk value (rows.map (·.1))) ∧
    ((inSubqueryResult ⟨value.length, cacheable, .ok (rows.map (·.1), used)⟩ true
        (if cached then some (rows.map (·.1)) else none) (.ok value) negated).map (·.1) =
        .ok (answer negated (sqlIn value (rows.map (·.1)))) ↔
      InOk value (rows.map (·.1))) := by
  have hlen : ∀ row ∈ rows.map (·.1), row.length = value.length := by
    intro row hrow
    obtain ⟨r, -, rfl⟩ := mem_map.1 hrow
    exact r.2
  refine ⟨between_eq_iff x a b negated, ?_, ?_⟩
  · rw [inListResult_eq hlen, Except.ok.injEq, answer_inj]
    exact codeIn_eq_iff hlen
  · rw [inSubqueryResult_eq hlen, Except.ok.injEq, answer_inj]
    exact codeIn_eq_iff hlen

/-- `1 BETWEEN NULL AND 0`, `NULL IN ()` and `(1, 2) IN ((NULL, 3))` are NULL and not false. -/
theorem three_valued_null :
    between (.integer 1) .null (.integer 0) false = .null ∧
    sqlBetween (.integer 1) .null (.integer 0) = some false ∧
    inListResult (.ok [.null]) [] false = .ok .null ∧ sqlIn [.null] [] = some false ∧
    inListResult (.ok [.integer 1, .integer 2]) [.ok [.null, .integer 3]] false = .ok .null ∧
    sqlIn [.integer 1, .integer 2] [[.null, .integer 3]] = some false := by
  decide

end RedlineDb.Predicate
