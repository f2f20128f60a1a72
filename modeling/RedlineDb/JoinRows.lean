import RedlineDb.Lib.Run

/-!
# Joins

`collect_join_source_rows` joins the tables of a FROM clause from left to right. A row of the result
has one part for each table so far; a part without a row stands for NULL in every column of its
table. The parts that go before an unmatched right row are taken from the first row of the left
side, so an empty left side leaves none (`join_rows_iff`).
-/

namespace RedlineDb.Join
open Lib List

structure BoundTable (T : Type) where
  table : T
  aliasName : Option String

structure TableRow (T V : Type) where
  rowid : Nat
  values : List V
  table : T
  aliasName : Option String
deriving DecidableEq

structure JoinedRow (T V : Type) where
  table : T
  aliasName : Option String
  row : Option (TableRow T V)
  hiddenColumns : List Nat
deriving DecidableEq

abbrev Joined (T V : Type) := List (JoinedRow T V)

inductive JoinKind
  | inner
  | left
  | right
  | full
deriving DecidableEq

def JoinKind.keepsLeft (kind : JoinKind) : Bool := kind = left || kind = full

def JoinKind.keepsRight (kind : JoinKind) : Bool := kind = right || kind = full

structure JoinStep (T X : Type) where
  right : BoundTable T
  kind : JoinKind
  selection : Option X
  hiddenRightColumns : List Nat

structure JoinSource (T X : Type) where
  base : BoundTable T
  joins : List (JoinStep T X)

def JoinSource.take {T X : Type} (source : JoinSource T X) (k : Nat) : JoinSource T X :=
  { source with joins := source.joins.take k }

/-- What a statement reads: the visible rows of a table under an alias, and whether an expression is
true of a row. -/
structure Reader (T V X E : Type) where
  rows : T → Option String → Except E (List (TableRow T V))
  truthy : X → Joined T V → Except E Bool

variable {T V X E : Type}

def joinedRowFromTableRow (table : BoundTable T) (row : Option (TableRow T V))
    (hiddenColumns : List Nat) :
    JoinedRow T V :=
  ⟨table.table, table.aliasName, row.map fun row => { row with aliasName := table.aliasName },
    hiddenColumns⟩

def JoinedRow.null (part : JoinedRow T V) : JoinedRow T V := { part with row := none }

def Joined.shape (row : Joined T V) : Joined T V := row.map JoinedRow.null

def prefixShapeForUnmatchedRight : List (Joined T V) → Joined T V
  | [] => []
  | first :: _ => first.shape

def JoinStep.null (step : JoinStep T X) : JoinedRow T V :=
  joinedRowFromTableRow step.right none step.hiddenRightColumns

namespace Reader
variable (db : Reader T V X E)

def selectionPasses (selection : Option X) (row : Joined T V) : Except E Bool :=
  match selection with
  | some expr => db.truthy expr row
  | none => pure true

def parts (table : BoundTable T) (hiddenColumns : List Nat) : Except E (List (JoinedRow T V)) := do
  let rows ← db.rows table.table table.aliasName
  pure (rows.map fun row => joinedRowFromTableRow table (some row) hiddenColumns)

/-- The loop over the right rows for one row of the left side: its matches, and which right rows
they are. -/
def matchRights (selection : Option X) (left : Joined T V) :
    List (JoinedRow T V) → Except E (List (Joined T V) × List Bool)
  | [] => pure ([], [])
  | row :: rows => do
    let passes ← db.selectionPasses selection (left ++ [row])
    let (next, matched) ← matchRights selection left rows
    pure (if passes then (left ++ [row]) :: next else next, passes :: matched)

/-- The loop over the left side: what it pushes, and which right rows were matched. -/
def joinLefts (step : JoinStep T X) (right : List (JoinedRow T V)) :
    List (Joined T V) → Except E (List (Joined T V) × List Bool)
  | [] => pure ([], right.map fun _ => false)
  | left :: joined => do
    let (found, matched) ← db.matchRights step.selection left right
    let (next, matchedRight) ← joinLefts step right joined
    let alone := if !matched.any id && step.kind.keepsLeft then [left ++ [step.null]] else []
    pure (found ++ alone ++ next, zipWith (· || ·) matched matchedRight)

def joinStep (joined : List (Joined T V)) (step : JoinStep T X) : Except E (List (Joined T V)) := do
  let right ← db.parts step.right step.hiddenRightColumns
  let (next, matchedRight) ← db.joinLefts step right joined
  let unmatched := if step.kind.keepsRight then
    ((right.zip matchedRight).filter (!·.2)).map Prod.fst else []
  pure (next ++ unmatched.map (prefixShapeForUnmatchedRight joined ++ [·]))

def collectJoinSourceRows (source : JoinSource T X) : Except E (List (Joined T V)) := do
  let base ← db.parts source.base []
  source.joins.foldlM db.joinStep (base.map ([·]))

/-! ### What SQL asks for -/

def evaluates (step : JoinStep T X) (row : Joined T V) : Bool :=
  (db.selectionPasses step.selection row).isOk

def holds (step : JoinStep T X) (row : Joined T V) : Bool :=
  (db.selectionPasses step.selection row).toOption = some true

def sqlLeft (step : JoinStep T X) (right : List (JoinedRow T V)) (left : Joined T V) :
    List (Joined T V) :=
  let found := (right.map (left ++ [·])).filter (db.holds step)
  if found.isEmpty && step.kind.keepsLeft then [left ++ [step.null]] else found

def sqlRight (nulls : Joined T V) (step : JoinStep T X) (left : List (Joined T V))
    (right : List (JoinedRow T V)) :
    List (Joined T V) :=
  (if step.kind.keepsRight then right.filter fun row => !left.any fun l => db.holds step
    (l ++ [row]) else []).map (nulls ++ [·])

/-- One join, unless its table cannot be read or its condition cannot be evaluated on some pair. -/
def sqlStep (nulls : Joined T V) (left : List (Joined T V)) (step : JoinStep T X) :
    Option (List (Joined T V)) := do
  let right ← (db.parts step.right step.hiddenRightColumns).toOption
  if ∀ l ∈ left, ∀ row ∈ right, db.evaluates step (l ++ [row]) then
    some (left.flatMap (db.sqlLeft step right) ++ db.sqlRight nulls step left right)
  else none

def sqlJoins (nulls : Joined T V) (left : List (Joined T V)) :
    List (JoinStep T X) → Option (List (Joined T V))
  | [] => some left
  | step :: steps => do sqlJoins (nulls ++ [step.null]) (← db.sqlStep nulls left step) steps

/-- The join of all tables; `nulls` has a part for each table so far. -/
def sqlJoin (source : JoinSource T X) : Option (List (Joined T V)) := do
  let base ← (db.parts source.base []).toOption
  db.sqlJoins [joinedRowFromTableRow source.base none []] (base.map ([·])) source.joins

variable {db} {step : JoinStep T X} {left nulls row : Joined T V} {right : List (JoinedRow T V)}
  {joined next : List (Joined T V)} {matched : List Bool} {passes : Bool}

theorem selectionPasses_eq_ok :
    db.selectionPasses step.selection row = .ok passes ↔ db.evaluates step row ∧
      db.holds step row = passes := by
  unfold evaluates holds
  cases db.selectionPasses step.selection row with
  | error e => simp [Except.isOk, Except.toBool]
  | ok b => simp [Except.isOk, Except.toBool, Except.toOption]

theorem matchRights_eq_ok : db.matchRights step.selection left right = .ok (next, matched) ↔
    (∀ row ∈ right, db.evaluates step (left ++ [row])) ∧ (right.map (left ++ [·])).filter
    (db.holds step) = next ∧
      right.map (fun row => db.holds step (left ++ [row])) = matched := by
  induction right generalizing next matched with
  | nil => simp [matchRights, pure_eq_ok]
  | cons row rows ih =>
    simp only [matchRights, bind_eq_ok, Prod.exists, pure_eq_ok, ih, selectionPasses_eq_ok,
      forall_mem_cons, map_cons,
      filter_cons, Prod.mk.injEq]
    grind

theorem found_append_alone : (right.map (left ++ [·])).filter (db.holds step) ++
    (if !(right.map fun row => db.holds step (left ++ [row])).any id && step.kind.keepsLeft then
      [left ++ [step.null]] else []) =
      db.sqlLeft step right left := by
  have hany : (!(right.map fun row => db.holds step (left ++ [row])).any id) =
      ((right.map (left ++ [·])).filter (db.holds step)).isEmpty := by
    rw [Bool.eq_iff_iff]
    simp
  rw [hany, sqlLeft]
  cases (right.map (left ++ [·])).filter (db.holds step) with
  | nil => simp
  | cons row found => simp

theorem joinLefts_eq_ok : db.joinLefts step right joined = .ok (next, matched) ↔
    (∀ l ∈ joined, ∀ row ∈ right, db.evaluates step (l ++ [row])) ∧ joined.flatMap
    (db.sqlLeft step right) = next ∧
      right.map (fun row => joined.any fun l => db.holds step (l ++ [row])) = matched := by
  induction joined generalizing next matched with
  | nil => simp [joinLefts, pure_eq_ok]
  | cons l joined ih =>
    simp only [joinLefts, bind_eq_ok, Prod.exists, pure_eq_ok, ih, matchRights_eq_ok,
      forall_mem_cons, Prod.mk.injEq]
    constructor
    · rintro ⟨_, _, ⟨hl, rfl, rfl⟩, _, _, ⟨hj, rfl, rfl⟩, rfl, rfl⟩
      exact ⟨⟨hl, hj⟩, by rw [flatMap_cons, found_append_alone], by simp [zipWith_map]⟩
    · rintro ⟨⟨hl, hj⟩, rfl, rfl⟩
      exact ⟨_, _, ⟨hl, rfl, rfl⟩, _, _, ⟨hj, rfl, rfl⟩, by
        rw [flatMap_cons, found_append_alone], by simp [zipWith_map]⟩

theorem filter_unmatched (f : JoinedRow T V → Bool) :
    ((right.zip (right.map f)).filter (!·.2)).map Prod.fst = right.filter (!f ·) := by
  induction right with
  | nil => rfl
  | cons row rows ih => cases h : f row <;> simp [h, ih]

theorem joinStep_eq_ok :
    db.joinStep joined step = .ok next ↔
      db.sqlStep (prefixShapeForUnmatchedRight joined) joined step = some next := by
  simp only [joinStep, bind_eq_ok, Prod.exists, pure_eq_ok, joinLefts_eq_ok, sqlStep,
    Option.bind_eq_bind,
    Option.bind_eq_some_iff, Option.ite_none_right_eq_some, Option.some.injEq]
  constructor
  · rintro ⟨right, hr, _, _, ⟨hev, rfl, rfl⟩, rfl⟩
    exact ⟨right, mem_toOption.2 hr, hev, by rw [sqlRight, filter_unmatched]⟩
  · rintro ⟨right, hr, hev, rfl⟩
    exact ⟨right, mem_toOption.1 hr, _, _, ⟨hev, rfl, rfl⟩, by rw [sqlRight, filter_unmatched]⟩

variable (db)

/-- A join that keeps unmatched right rows and has nothing on its left has an empty right table. -/
def Fed (left : List (Joined T V)) (step : JoinStep T X) : Prop :=
  step.kind.keepsRight → left = [] → ∀ right, db.parts step.right step.hiddenRightColumns =
    .ok right → right = []

def FedFrom (nulls : Joined T V) (left : List (Joined T V)) : List (JoinStep T X) → Prop
  | [] => True
  | step :: steps =>
    db.Fed left step ∧ ∀ next, db.sqlStep nulls left step = some next →
      FedFrom (nulls ++ [step.null]) next steps

def SourceFed (source : JoinSource T X) : Prop :=
  ∀ base, db.parts source.base [] = .ok base →
    db.FedFrom [joinedRowFromTableRow source.base none []] (base.map ([·])) source.joins

variable {db}

theorem sqlStep_nil (hk : step.kind.keepsRight)
    (hr : db.parts step.right step.hiddenRightColumns = .ok right) :
    db.sqlStep nulls [] step = some (right.map (nulls ++ [·])) := by
  simp [sqlStep, sqlRight, hk, hr, Except.toOption]

theorem Fed.sqlStep_eq (h : db.Fed joined step) (hj : ∀ l ∈ joined, l.shape = nulls) :
    db.sqlStep (prefixShapeForUnmatchedRight joined) joined step =
      db.sqlStep nulls joined step := by
  cases joined with
  | cons l joined => rw [prefixShapeForUnmatchedRight, hj l mem_cons_self]
  | nil =>
    cases hr : db.parts step.right step.hiddenRightColumns with
    | error e => simp [sqlStep, hr, Except.toOption]
    | ok right =>
      cases hk : step.kind.keepsRight with
      | false => simp [sqlStep, sqlRight, hk]
      | true => rw [sqlStep_nil hk hr, sqlStep_nil hk hr, h hk rfl right hr, map_nil, map_nil]

theorem shape_append {part : JoinedRow T V} (hl : left.shape = nulls) (hp : part.null = step.null) :
    (left ++ [part]).shape = nulls ++ [step.null] := by
  rw [Joined.shape, map_append, ← Joined.shape, hl, map_singleton, hp]

theorem shape_of_sqlStep (hn : nulls.shape = nulls) (hj : ∀ l ∈ joined, l.shape = nulls)
    (h : db.sqlStep nulls joined step = some next) : ∀ l ∈ next, l.shape = nulls ++
    [step.null] := by
  simp only [sqlStep, Option.bind_eq_bind, Option.bind_eq_some_iff, Option.ite_none_right_eq_some,
    Option.some.injEq] at h
  obtain ⟨right, hr, -, rfl⟩ := h
  have hpart : ∀ part ∈ right, part.null = step.null := by
    have hr := mem_toOption.1 hr
    simp only [parts, bind_eq_ok, pure_eq_ok] at hr
    obtain ⟨rows, -, rfl⟩ := hr
    simp [JoinStep.null, JoinedRow.null, joinedRowFromTableRow]
  intro l hl
  rcases mem_append.1 hl with hl | hl
  · obtain ⟨l', hl', hl⟩ := mem_flatMap.1 hl
    rw [sqlLeft] at hl
    split at hl
    · rw [mem_singleton.1 hl]
      exact shape_append (hj l' hl') rfl
    · obtain ⟨part, hp, rfl⟩ := mem_map.1 (mem_of_mem_filter hl)
      exact shape_append (hj l' hl') (hpart part hp)
  · obtain ⟨part, hp, rfl⟩ := mem_map.1 hl
    refine shape_append hn (hpart part ?_)
    split at hp
    · exact mem_of_mem_filter hp
    · cases hp

theorem fedFrom_iff {steps : List (JoinStep T X)} (hn : nulls.shape = nulls) (hne : nulls ≠ [])
    (hj : ∀ l ∈ joined, l.shape = nulls) :
    (∀ k, Option.Rel Perm ((steps.take k).foldlM db.joinStep joined).toOption
      (db.sqlJoins nulls joined (steps.take k))) ↔
      db.FedFrom nulls joined steps := by
  induction steps generalizing nulls joined with
  | nil => exact iff_of_true (fun k => by rw [take_nil]; exact .some (.refl _)) trivial
  | cons step steps ih =>
    have hzero : Option.Rel Perm (((step :: steps).take 0).foldlM db.joinStep joined).toOption
        (db.sqlJoins nulls joined ((step :: steps).take 0)) := .some (.refl _)
    rw [← Nat.and_forall_add_one, and_iff_right hzero, FedFrom]
    simp only [take_succ_cons, foldlM_cons, sqlJoins]
    by_cases hfed : db.Fed joined step
    · have hstep : ∀ next, db.joinStep joined step = .ok next ↔
          db.sqlStep nulls joined step = some next := fun next =>
        joinStep_eq_ok.trans (by rw [hfed.sqlStep_eq hj])
      rw [and_iff_right hfed]
      cases hs : db.sqlStep nulls joined step with
      | none =>
        cases hc : db.joinStep joined step with
        | error e => exact iff_of_true (fun _ => .none) (by simp)
        | ok next => cases hs.symm.trans ((hstep next).1 hc)
      | some next =>
        rw [(hstep next).2 hs]
        refine (ih (shape_append hn rfl) (by simp) (shape_of_sqlStep hn hj hs)).trans ?_
        simp
    · refine iff_of_false (fun h => ?_) fun h => hfed h.1
      simp only [Fed, not_forall] at hfed
      obtain ⟨hk, rfl, right, hr, hright⟩ := hfed
      -- the right rows come alone where SQL has NULLs before them
      have hone := h 0
      rw [joinStep_eq_ok.2 (sqlStep_nil hk hr), sqlStep_nil hk hr] at hone
      cases hone with
      | some hperm =>
        obtain ⟨part, rest, rfl⟩ := exists_cons_of_ne_nil hright
        obtain ⟨part', -, hp⟩ := mem_map.1 (hperm.mem_iff.2 (mem_map_of_mem mem_cons_self))
        exact hne (append_inj_left' hp rfl).symm

/-- Every chain that starts the source gives the SQL join, as a multiset, exactly if every join is
fed. -/
theorem join_rows_iff (source : JoinSource T X) :
    (∀ k, Option.Rel Perm (db.collectJoinSourceRows (source.take k)).toOption
      (db.sqlJoin (source.take k))) ↔
      db.SourceFed source := by
  simp only [collectJoinSourceRows, sqlJoin, SourceFed, JoinSource.take]
  cases hb : db.parts source.base [] with
  | error e => exact iff_of_true (fun _ => .none) (by simp)
  | ok base =>
    have hbase : ∀ l : Joined T V, l ∈ base.map ([·]) →
        l.shape = [joinedRowFromTableRow source.base none []] := by
      simp only [parts, bind_eq_ok, pure_eq_ok] at hb
      obtain ⟨rows, -, rfl⟩ := hb
      simp [Joined.shape, JoinedRow.null, joinedRowFromTableRow]
    refine (fedFrom_iff rfl (by simp) hbase).trans ?_
    simp

def oneRow : Reader Nat Nat Unit Unit where
  rows table aliasName := .ok (if table = 0 then [] else [⟨1, [7], table, aliasName⟩])
  truthy _ _ := .ok true

/-- `FROM t0 RIGHT JOIN t1 ON 1`: the row of `t1` comes without the columns of `t0`. -/
theorem right_join_of_empty : ∃ source : JoinSource Nat Unit,
    ¬ Option.Rel Perm (oneRow.collectJoinSourceRows source).toOption (oneRow.sqlJoin source) := by
  refine ⟨⟨⟨0, none⟩, [⟨⟨1, none⟩, .right, some (), []⟩]⟩, fun h => ?_⟩
  cases h with
  | some hperm => exact absurd hperm (by decide)

end Reader
end RedlineDb.Join
