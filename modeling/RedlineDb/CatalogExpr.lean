import RedlineDb.Catalog
import RedlineDb.IndexKeys

/-!
# CHECK expressions

`catalog/expr`: an expression is compiled to bytecode for a stack, and the bytecode is run on a row.
The bytecode has one kind of truth only: `NOT`, `AND` and `OR` take NULL for false and never give
NULL back. A NULL therefore survives only as long as it passes through comparisons, LIKE and
`BlobLen`.
-/

namespace RedlineDb.Catalog

inductive ExprOp
  | const (v : OwnedValue)
  | column (col : Nat)
  | currentDate
  | currentTime
  | currentTimestamp
  | not
  | binary (op : BinaryOp)
  | like (negated : Bool) (escape : Option Char)
  | blobLen
deriving DecidableEq

structure CompiledExpr where
  bytecode : List ExprOp
  referencedCols : List Nat
deriving DecidableEq

def compileInner : ExprAst → List ExprOp
  | .const v => [.const v]
  | .column col => [.column col]
  | .currentDate => [.currentDate]
  | .currentTime => [.currentTime]
  | .currentTimestamp => [.currentTimestamp]
  | .not e => compileInner e ++ [.not]
  | .binary op left right => compileInner left ++ compileInner right ++ [.binary op]
  | .like negated value pattern escape => compileInner value ++ compileInner pattern ++
      [.like negated escape]
  | .blobLen e => compileInner e ++ [.blobLen]

def compileExpr (e : ExprAst) : CompiledExpr := ⟨compileInner e, e.referencedCols⟩

/-- What an evaluation reads: the row, the LIKE mode, two conversions of the standard library and
the clock. -/
structure Env where
  valueAt : Nat → Option OwnedValue
  likeCaseSensitive : Bool
  realToString : UInt64 → String
  fromUtf8Lossy : Bytes → String
  date : String
  time : String
  timestamp : String

def boolValue (v : Bool) : OwnedValue := .integer (if v then 1 else 0)

def truthy : OwnedValue → Bool
  | .null => false
  | .integer v => v != 0
  | .real bits => Indexed.doubleRank bits != some 0
  | .text v => v != ""
  | .blob v => !v.isEmpty

def utf8 (s : String) : Bytes := s.toUTF8.toList

/-- The values as index keys have them, a text as its bytes: `compare_values` is the same function
there. -/
def OwnedValue.stored : OwnedValue → Indexed.OwnedValue
  | .null => .null
  | .integer v => .integer v
  | .real bits => .real bits
  | .text v => .text (utf8 v)
  | .blob v => .blob v

def compareValues (left right : OwnedValue) : Ordering :=
  Indexed.compareValues left.stored right.stored

def binaryBool (combine : Bool → Bool → Bool) (left right : OwnedValue) : OwnedValue :=
  boolValue (combine (truthy left) (truthy right))

def compareInto (accept : Ordering → Bool) (left right : OwnedValue) : OwnedValue :=
  if left = .null ∨ right = .null then .null else boolValue (accept (compareValues left right))

def likeMatchInner (escape : Option UInt8) : (pattern text : Bytes) → Bool
  | [], text => text.isEmpty
  | ch :: pattern, text =>
    if ch = 0x25 then pattern.isEmpty || text.tails.any (likeMatchInner escape pattern)
    else if ch = 0x5f then
      match text with
      | [] => false
      | _ :: text => likeMatchInner escape pattern text
    else if some ch = escape then
      match pattern, text with
      | p :: pattern, b :: text => p == b && likeMatchInner escape pattern text
      | _, _ => false
    else
      match text with
      | [] => false
      | b :: text => b == ch && likeMatchInner escape pattern text

def likeMatch (text pattern : String) (escape : Option Char) (caseSensitive : Bool) : Bool :=
  let fold := if caseSensitive then id else toAsciiLowercase
  let foldChar := if caseSensitive then id else Char.toLower
  likeMatchInner (escape.map fun c => UInt8.ofNat (foldChar c).toNat) (utf8 (fold pattern))
    (utf8 (fold text))

def ownedValueToLikeText (env : Env) : OwnedValue → String
  | .null => ""
  | .integer v => toString v
  | .real bits => env.realToString bits
  | .text v => v
  | .blob v => env.fromUtf8Lossy v

def likeResult (env : Env) (value pattern : OwnedValue) (negated : Bool) (escape : Option Char) :
    OwnedValue :=
  if value = .null ∨ pattern = .null then .null
  else boolValue
    (likeMatch (ownedValueToLikeText env value) (ownedValueToLikeText env pattern) escape
    env.likeCaseSensitive ^^ negated)

def blobLen : OwnedValue → OwnedValue
  | .blob b => .integer b.length
  | .null => .null
  | _ => .integer (-1)

structure Logic where
  not : OwnedValue → OwnedValue
  binary : BinaryOp → OwnedValue → OwnedValue → OwnedValue

def Logic.twoValued : Logic where
  not v := boolValue !truthy v
  binary
    | .and => binaryBool (· && ·)
    | .or => binaryBool (· || ·)
    | .eq => compareInto (· == .eq)
    | .ne => compareInto (· != .eq)
    | .lt => compareInto (· == .lt)
    | .le => compareInto (· != .gt)
    | .gt => compareInto (· == .gt)
    | .ge => compareInto (· != .lt)

/-! ### Running the bytecode -/

inductive ExprError
  | stackUnderflow | unknownColumn
deriving DecidableEq

def pop : List OwnedValue → Except ExprError (OwnedValue × List OwnedValue)
  | [] => .error .stackUnderflow
  | v :: stack => .ok (v, stack)

def evalOp (env : Env) (stack : List OwnedValue) : ExprOp → Except ExprError (List OwnedValue)
  | .const v => .ok (v :: stack)
  | .column col =>
    match env.valueAt col with
    | none => .error .unknownColumn
    | some v => .ok (v :: stack)
  | .currentDate => .ok (.text env.date :: stack)
  | .currentTime => .ok (.text env.time :: stack)
  | .currentTimestamp => .ok (.text env.timestamp :: stack)
  | .not => do
    let (v, stack) ← pop stack
    pure (Logic.twoValued.not v :: stack)
  | .binary op => do
    let (right, stack) ← pop stack
    let (left, stack) ← pop stack
    pure (Logic.twoValued.binary op left right :: stack)
  | .like negated escape => do
    let (pattern, stack) ← pop stack
    let (value, stack) ← pop stack
    pure (likeResult env value pattern negated escape :: stack)
  | .blobLen => do
    let (v, stack) ← pop stack
    pure (blobLen v :: stack)

def evalExpr (env : Env) (e : CompiledExpr) : Except ExprError OwnedValue := do
  let stack ← e.bytecode.foldlM (evalOp env) []
  pure (stack.headD .null)

/-! ### The value of an expression -/

/-- The value under a logic. Which values are true is the code's own `truthy`, where a text is true
unless it is empty: `NOT 'abc'` is 0 here and 1 in `sql/src/value.rs`, which reads texts as numbers.
-/
def denote (env : Env) (l : Logic) : ExprAst → OwnedValue
  | .const v => v
  | .column col => (env.valueAt col).getD .null
  | .currentDate => .text env.date
  | .currentTime => .text env.time
  | .currentTimestamp => .text env.timestamp
  | .not e => l.not (denote env l e)
  | .binary op left right => l.binary op (denote env l left) (denote env l right)
  | .like negated value pattern escape =>
    likeResult env (denote env l value) (denote env l pattern) negated escape
  | .blobLen e => blobLen (denote env l e)

/-- The code of an expression pushes its value and leaves the stack below alone; the induction needs
the code that follows. -/
theorem foldlM_compileInner {env : Env} {e : ExprAst}
    (hrow : ∀ c ∈ e.referencedCols, (env.valueAt c).isSome)
    (rest : List ExprOp) (stack : List OwnedValue) :
    (compileInner e ++ rest).foldlM (evalOp env) stack =
      rest.foldlM (evalOp env) (denote env .twoValued e :: stack) := by
  induction e generalizing rest stack with
  | const | currentDate | currentTime | currentTimestamp => rfl
  | column col =>
    obtain ⟨v, hv⟩ := Option.isSome_iff_exists.1 (hrow col (List.mem_singleton_self col))
    rw [compileInner, List.singleton_append, List.foldlM_cons, evalOp, denote, hv]
    rfl
  | not e ih | blobLen e ih =>
    rw [compileInner, List.append_assoc, ih hrow]
    rfl
  | binary op left right ihl ihr | like negated left right escape ihl ihr =>
    rw [compileInner, List.append_assoc, List.append_assoc,
      ihl fun c hc => hrow c (List.mem_append_left _ hc),
      ihr fun c hc => hrow c (List.mem_append_right _ hc)]
    rfl

/-! ### Three-valued logic -/

def truth (v : OwnedValue) : Option Bool := if v = .null then none else some (truthy v)

def ofTruth : Option Bool → OwnedValue
  | none => .null
  | some b => boolValue b

def kleeneAnd : Option Bool → Option Bool → Option Bool
  | some a, some b => some (a && b)
  | some false, none | none, some false => some false
  | _, _ => none

def kleeneOr : Option Bool → Option Bool → Option Bool
  | some a, some b => some (a || b)
  | some true, none | none, some true => some true
  | _, _ => none

/-- SQL's logic: as the code's except that NULL is a truth value of its own. -/
def Logic.kleene : Logic where
  not v := ofTruth ((truth v).map Bool.not)
  binary
    | .and, left, right => ofTruth (kleeneAnd (truth left) (truth right))
    | .or, left, right => ofTruth (kleeneOr (truth left) (truth right))
    | op, left, right => Logic.twoValued.binary op left right

/-- A NULL of the row or a constant reaches the root without meeting `NOT`, `AND` or `OR`. -/
def NullPasses (env : Env) : ExprAst → Prop
  | .const v => v = .null
  | .column col => (env.valueAt col).getD .null = .null
  | .binary .and _ _ | .binary .or _ _ => False
  | .binary _ left right | .like _ left right _ => NullPasses env left ∨ NullPasses env right
  | .blobLen e => NullPasses env e
  | _ => False

section Null
variable {env : Env}

theorem compareInto_eq_null {accept : Ordering → Bool} {left right : OwnedValue} :
    compareInto accept left right = .null ↔ left = .null ∨ right = .null := by
  rw [compareInto]
  split <;> simp_all [boolValue]

theorem likeResult_eq_null {value pattern : OwnedValue} {negated : Bool} {escape : Option Char} :
    likeResult env value pattern negated escape = .null ↔ value = .null ∨ pattern = .null := by
  rw [likeResult]
  split <;> simp_all [boolValue]

theorem blobLen_eq_null {v : OwnedValue} : blobLen v = .null ↔ v = .null := by
  cases v <;> simp [blobLen]

theorem denote_eq_null_iff {e : ExprAst} : denote env .twoValued e = .null ↔ NullPasses env e := by
  induction e with
  | const | column => exact Iff.rfl
  | currentDate | currentTime | currentTimestamp
  | not => simp [denote, NullPasses, Logic.twoValued, boolValue]
  | blobLen e ih => exact blobLen_eq_null.trans ih
  | like negated value pattern escape ihv ihp => exact likeResult_eq_null.trans (or_congr ihv ihp)
  | binary op left right ihl ihr =>
    cases op with
    | and | or => simp [denote, NullPasses, Logic.twoValued, binaryBool, boolValue]
    | eq | ne | lt | le | gt | ge =>
      simp only [denote, NullPasses, ← ihl, ← ihr]
      simp only [Logic.twoValued, compareInto_eq_null]

theorem truth_of_eq_or {v v' : OwnedValue} (h : v' = v ∨ v' = .null) :
    truth v' = some (truthy v) ∨ truth v' = none := by
  rw [truth]
  split
  · exact .inr rfl
  · rw [h.resolve_right ‹_›]
    exact .inl rfl

theorem kleene_not {v v' : OwnedValue} (h : v' = v ∨ v' = .null) :
    Logic.kleene.not v' = Logic.twoValued.not v ∨ Logic.kleene.not v' = .null := by
  simp only [Logic.kleene]
  rcases truth_of_eq_or h with h | h <;> rw [h]
  · exact .inl rfl
  · exact .inr rfl

theorem kleene_binary {op : BinaryOp} {left right left' right' : OwnedValue}
    (hl : left' = left ∨ left' = .null)
    (hr : right' = right ∨ right' = .null) :
    Logic.kleene.binary op left' right' = Logic.twoValued.binary op left right ∨
      Logic.kleene.binary op left' right' = .null := by
  have hlt := truth_of_eq_or hl
  have hrt := truth_of_eq_or hr
  cases op with
  | and | or =>
    simp only [Logic.kleene, Logic.twoValued, binaryBool]
    rcases hlt with hlt | hlt <;> rcases hrt with hrt | hrt <;> rw [hlt, hrt] <;>
      cases truthy left <;> cases truthy right <;> simp [kleeneAnd, kleeneOr, ofTruth]
  | eq | ne | lt | le | gt | ge =>
    by_cases hnull : left' = .null ∨ right' = .null
    · simp [Logic.kleene, Logic.twoValued, compareInto_eq_null.2 hnull]
    · rw [not_or] at hnull
      rw [hl.resolve_right hnull.1, hr.resolve_right hnull.2]
      exact .inl rfl

theorem denote_kleene {e : ExprAst} :
    denote env .kleene e = denote env .twoValued e ∨
      denote env .kleene e = .null := by
  induction e with
  | const | column | currentDate | currentTime | currentTimestamp => exact .inl rfl
  | not e ih => exact kleene_not ih
  | blobLen e ih => exact ih.imp (congrArg blobLen) blobLen_eq_null.2
  | like negated value pattern escape ihv ihp =>
    by_cases hnull : denote env .kleene value = .null ∨
      denote env .kleene pattern = .null
    · exact .inr (likeResult_eq_null.2 hnull)
    · rw [not_or] at hnull
      rw [denote, denote, ihv.resolve_right hnull.1, ihp.resolve_right hnull.2]
      exact .inl rfl
  | binary op left right ihl ihr => exact kleene_binary ihl ihr

end Null

/-- Run on a row with its columns, the bytecode always returns a value. It is the SQL value of the
expression exactly if that one is not NULL, or a NULL passes to the root. -/
theorem evalExpr_eq_sql_iff (env : Env) (e : ExprAst)
    (hrow : ∀ c ∈ e.referencedCols, (env.valueAt c).isSome) :
    (∃ v, evalExpr env (compileExpr e) = .ok v) ∧
      (evalExpr env (compileExpr e) = .ok (denote env .kleene e) ↔
        (denote env .kleene e = .null → NullPasses env e)) := by
  have heval : evalExpr env (compileExpr e) = .ok (denote env .twoValued e) := by
    have hcode := foldlM_compileInner hrow [] []
    rw [List.append_nil] at hcode
    rw [evalExpr, compileExpr, hcode]
    rfl
  rw [heval]
  refine ⟨⟨_, rfl⟩, fun h hnull => ?_, fun h => ?_⟩
  · rw [← Except.ok.inj h] at hnull
    exact denote_eq_null_iff.1 hnull
  · rcases (denote_kleene : denote env .kleene e = _ ∨ _) with heq | hnull
    · rw [heq]
    · rw [hnull, denote_eq_null_iff.2 (h hnull)]

def nullRow : Env := ⟨fun _ => some .null, false, fun _ => "", fun _ => "", "", "", ""⟩

/-- `NOT NULL` is 1, `NULL AND 1` and `NULL OR 0` are 0; in SQL all three are NULL. -/
theorem evalExpr_not_null :
    ([ExprAst.not (.column 0), .binary .and (.column 0) (.const (.integer 1)),
      .binary .or (.column 0) (.const (.integer 0))].map fun e =>
        ((evalExpr nullRow (compileExpr e)).toOption, denote nullRow .kleene e)) =
      [(some (.integer 1), .null), (some (.integer 0), .null), (some (.integer 0), .null)] := by
  decide

theorem evalExpr_eq_sql_comparison :
    evalExpr nullRow (compileExpr (.binary .eq (.column 0) (.const (.integer 1)))) =
      .ok (denote nullRow .kleene (.binary .eq (.column 0) (.const (.integer 1)))) :=
  ((evalExpr_eq_sql_iff nullRow _ fun _ _ => rfl).2).2 fun _ => .inl rfl

end RedlineDb.Catalog
