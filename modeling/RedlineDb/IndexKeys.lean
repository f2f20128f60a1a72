import RedlineDb.Format
import RedlineDb.Lib.Bytes
import RedlineDb.Lib.Lex

/-!
# Index keys

Column values, index definitions, `encode_index_key` and `build_index_key`. The key of a row is a
byte string: one part for each key column or key expression, with its bytes inverted when the part
sorts descending. Parsing and evaluating the SQL text of an expression or a predicate is a
parameter.
-/

namespace RedlineDb.Indexed
open Lib

/-- A real is its bit pattern, a text its UTF-8 bytes. -/
inductive OwnedValue
  | null
  | integer (v : Int)
  | real (bits : UInt64)
  | text (v : Bytes)
  | blob (v : Bytes)
deriving DecidableEq

abbrev Row := List OwnedValue

/-- The bits below the sign of the double nearest to `n`, ties to even. -/
def doubleOfNat (n : Nat) : Nat :=
  if n = 0 then 0
  else
    let e := n.log2
    if e ≤ 52 then (e + 1023) * 2 ^ 52 + (n * 2 ^ (52 - e) - 2 ^ 52)
    else
      let q := n / 2 ^ (e - 52)
      let r := n % 2 ^ (e - 52)
      let up := 2 ^ (e - 52) < 2 * r ∨ 2 * r = 2 ^ (e - 52) ∧ q % 2 = 1
      (e + 1023) * 2 ^ 52 + ((if up then q + 1 else q) - 2 ^ 52)

/-- Doubles that are numbers are ordered as their sign and the bits below it. -/
def doubleRank (bits : UInt64) : Option Int :=
  let magnitude : Nat := bits.toNat % 2 ^ 63
  if 0x7ff0000000000000 < magnitude then none
  else some (if 2 ^ 63 ≤ bits.toNat then -(magnitude : Int) else magnitude)

def integerRank (v : Int) : Int := if v < 0 then -(doubleOfNat v.natAbs) else doubleOfNat v.natAbs

/-- `partial_cmp`; what cannot be compared counts as equal. -/
def compareRanks : Option Int → Option Int → Ordering
  | some a, some b => compare a b
  | _, _ => .eq

def compareValues : OwnedValue → OwnedValue → Ordering
  | .null, .null => .eq
  | .null, _ => .lt
  | _, .null => .gt
  | .integer a, .integer b => compare a b
  | .real a, .real b => compareRanks (doubleRank a) (doubleRank b)
  | .integer a, .real b => compareRanks (some (integerRank a)) (doubleRank b)
  | .real a, .integer b => compareRanks (doubleRank a) (some (integerRank b))
  | .integer _, _ | .real _, _ => .lt
  | _, .integer _ | _, .real _ => .gt
  | .text a, .text b => compare a b
  | .blob a, .blob b => compare a b
  | .text _, .blob _ => .lt
  | .blob _, .text _ => .gt

def keyValuesEqual (left right : Row) : Bool :=
  left.length == right.length && (left.zip right).all fun p => compareValues p.1 p.2 == .eq

inductive SortDir
  | asc | desc
deriving DecidableEq

def beBytes (n : Nat) : Bytes := (leBytes 8 n).reverse

def normalBits (bits : UInt64) : UInt64 := if bits = 0x8000000000000000 then 0 else bits

def sortableBits (bits : UInt64) : UInt64 :=
  if normalBits bits &&& 0x8000000000000000 ≠ 0 then ~~~normalBits bits
    else normalBits bits ^^^ 0x8000000000000000

def encodeBytes (bytes : Bytes) : Bytes :=
  (bytes.flatMap fun b => if b = 0 then [0, 0xff] else [b]) ++ [0, 0]

def encodePart : OwnedValue → Bytes
  | .null => [0x00]
  | .integer v => 0x10 :: beBytes ((v + 2 ^ 63) % 2 ^ 64).toNat
  | .real bits => 0x20 :: beBytes (sortableBits bits).toNat
  | .text v => 0x30 :: encodeBytes v
  | .blob v => 0x40 :: encodeBytes v

def encodeDirected (value : OwnedValue) (dir : SortDir) : Bytes :=
  (if dir = .desc then (encodePart value).map (~~~ ·) else encodePart value) ++ [0xff]

structure EncodedIndexKey where
  bytes : Bytes
  containsNull : Bool
deriving DecidableEq

def encodeIndexKey (parts : List OwnedValue) (dirs : List SortDir) : EncodedIndexKey where
  bytes := (parts.zip dirs).flatMap fun p => encodeDirected p.1 p.2
  containsNull := (parts.zip dirs).any fun p => p.1 = .null

theorem selfDelimiting_encodeBytes : SelfDelimiting encodeBytes := by
  intro a
  induction a with
  | nil =>
    rintro (_ | ⟨c, b⟩) s t h
    · rfl
    · by_cases hc : c = 0
      · simp [encodeBytes, hc] at h
      · simp [encodeBytes, hc] at h
        exact absurd h.1.symm hc
  | cons x a ih =>
    rintro (_ | ⟨c, b⟩) s t h
    · by_cases hx : x = 0 <;> simp [encodeBytes, hx] at h
    · -- a zero and another byte begin differently, so the heads agree
      have hhead : x = c ∧ encodeBytes a ++ s = encodeBytes b ++ t := by
        by_cases hx : x = 0
        · by_cases hc : c = 0
          · simpa [encodeBytes, hx, hc] using h
          · simp [encodeBytes, hx, hc] at h
            exact absurd h.1.symm hc
        · by_cases hc : c = 0
          · simp [encodeBytes, hx, hc] at h
          · simpa [encodeBytes, hx, hc] using h
      obtain ⟨rfl, htail⟩ := hhead
      have hab := ih b s t htail
      simp only [encodeBytes, List.flatMap_cons, List.append_assoc] at hab ⊢
      rw [hab]

theorem length_beBytes (n : Nat) : (beBytes n).length = 8 := by
  rw [beBytes, List.length_reverse, length_leBytes]

theorem selfDelimiting_encodePart : SelfDelimiting encodePart := by
  have hfixed : ∀ m n s t, beBytes m ++ s = beBytes n ++ t → beBytes m = beBytes n :=
    fun m n s t h =>
    (List.append_inj h (by rw [length_beBytes, length_beBytes])).1
  intro a b s t h
  -- the first byte is the type of the value
  cases a <;> cases b <;> simp [encodePart] at h ⊢
  · exact hfixed _ _ _ _ h
  · exact hfixed _ _ _ _ h
  · exact selfDelimiting_encodeBytes _ _ _ _ h
  · exact selfDelimiting_encodeBytes _ _ _ _ h

theorem selfDelimiting_encodeDirected (dir : SortDir) : SelfDelimiting (encodeDirected · dir) := by
  refine SelfDelimiting.append_const ?_ [0xff]
  cases dir with
  | asc => exact selfDelimiting_encodePart
  | desc => exact selfDelimiting_encodePart.map fun a b h => by simpa using congrArg (~~~ ·) h

def keysOf (dirs : List SortDir) : Set Bytes :=
  Set.range fun parts : { ps : List OwnedValue // ps.length = dirs.length } =>
    (encodeIndexKey parts.1 dirs).bytes

theorem prefixFree_keysOf (dirs : List SortDir) : PrefixFree (keysOf dirs) := by
  apply SelfDelimiting.prefixFree_range
  induction dirs with
  | nil =>
    rintro ⟨ps, hps⟩ ⟨qs, hqs⟩ s t h
    simp [encodeIndexKey]
  | cons dir dirs ih =>
    rintro ⟨ps, hps⟩ ⟨qs, hqs⟩ s t h
    obtain ⟨p, ps, rfl⟩ := List.exists_cons_of_length_eq_add_one hps
    obtain ⟨q, qs, rfl⟩ := List.exists_cons_of_length_eq_add_one hqs
    simp only [encodeIndexKey, List.zip_cons_cons, List.flatMap_cons, List.append_assoc] at h ⊢
    have hhead : encodeDirected p dir = encodeDirected q dir :=
      selfDelimiting_encodeDirected dir p q _ _ h
    have htail := (selfDelimiting_encodeDirected dir).tail h
    have hps' := ih ⟨ps, Nat.succ.inj hps⟩ ⟨qs, Nat.succ.inj hqs⟩ s t htail
    simp only [encodeIndexKey] at hps'
    rw [hhead, hps']

inductive IndexKeySource
  | column (attnum : Nat)
  | expression (sql : String)
deriving DecidableEq

structure IndexKeyDef where
  ordinal : Nat
  source : IndexKeySource
  sortDir : SortDir
  collation : Option String
deriving DecidableEq

structure IndexDef where
  indexId : Nat
  name : String
  unique : Bool
  primary : Bool
  keys : List IndexKeyDef
  predicateSql : Option String
deriving DecidableEq

/-- What the SQL layer computes from expressions. `value` is `eval_index_value_expr` and `predicate`
is `eval_index_predicate`; `fill` stands for `apply_row_affinity` and
`compute_stored_generated_columns`, which end `build_default_values`, and `virtual` for
`materialize_virtual_generated_columns`. -/
structure Evaluator where
  value : String → Row → Except Error OwnedValue
  predicate : String → Row → Except Error Bool
  fill : Row → Except Error Row
  virtual : Row → Except Error Row

def asciiLower (bytes : Bytes) : Bytes :=
  bytes.map fun b => if 0x41 ≤ b ∧ b ≤ 0x5a then b + 0x20 else b

def applyIndexKeyCollation (value : OwnedValue) (collation : Option String) : OwnedValue :=
  match value, collation with
  | .text v, some "NOCASE" => .text (asciiLower v)
  | value, _ => value

structure BuiltIndexKey where
  key : EncodedIndexKey
  values : Row
deriving DecidableEq

variable (ev : Evaluator)

def keyValue (values : Row) (key : IndexKeyDef) : Except Error OwnedValue :=
  match key.source with
  | .column attnum => .ok (applyIndexKeyCollation (values[attnum]?.getD .null) key.collation)
  | .expression sql => (ev.value sql values).map fun v => applyIndexKeyCollation v key.collation

def buildIndexKeyWithValues (index : IndexDef) (values : Row) : Except Error BuiltIndexKey := do
  let parts ← index.keys.mapM (keyValue ev values)
  return ⟨encodeIndexKey parts (index.keys.map (·.sortDir)), parts⟩

def buildIndexKey (index : IndexDef) (values : Row) : Except Error EncodedIndexKey :=
  (buildIndexKeyWithValues ev index values).map (·.key)

def IndexDef.admits (index : IndexDef) (values : Row) : Except Error Bool :=
  match index.predicateSql with
  | none => .ok true
  | some sql => ev.predicate sql values

end RedlineDb.Indexed
