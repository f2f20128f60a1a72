import Mathlib.Data.List.Infix
import Mathlib.Data.List.TakeWhile
import RedlineDb.Format

/-!
# GLOB patterns

`glob_match` of `exec/expr/scalar/pattern.rs` goes through the pattern with one call of itself for
each `*`. `Matches` says what a pattern means.
-/

namespace RedlineDb.Glob

abbrev asterisk : UInt8 := '*'.toUInt8
abbrev question : UInt8 := '?'.toUInt8
abbrev opening : UInt8 := '['.toUInt8
abbrev closing : UInt8 := ']'.toUInt8

def isNegation (c : UInt8) : Bool := c == '!'.toUInt8 || c == '^'.toUInt8

def between (lo hi c : UInt8) : Bool :=
  decide (min lo.toNat hi.toNat ≤ c.toNat) && decide (c.toNat ≤ max lo.toNat hi.toNat)

/-- The loop of `match_glob_class`; it returns the pattern behind the class instead of its length.
-/
def classLoop (target : Option UInt8) (matched : Bool) : Bytes → Option (Bool × Bytes)
  | [] => none
  | lo :: rest =>
    if lo = closing then some (matched, rest)
    else match rest with
      | dash :: hi :: rest' =>
        if dash = '-'.toUInt8 ∧ hi ≠ closing then
          classLoop target (matched || target.any (between lo hi)) rest'
        else classLoop target (matched || target == some lo) (dash :: hi :: rest')
      | rest => classLoop target (matched || target == some lo) rest

/-- `pattern` is what follows the bracket. -/
def matchGlobClass (pattern : Bytes) (target : Option UInt8) : Option (Bool × Bytes) :=
  let negate := pattern.head?.any isNegation
  let body := if negate then pattern.tail else pattern
  let first := body.head? == some closing
  match classLoop target (first && target == some closing) (if first then body.tail else body) with
  | none => none
  | some (matched, rest) => some (target.isSome && (matched ^^ negate), rest)

/-- The rounds of the loop and the calls of itself each take something off the pattern. -/
def inner : Nat → Bytes → Bytes → Bool
  | _, text, [] => text.isEmpty
  | 0, _, _ :: _ => false
  | n + 1, text, c :: pattern =>
    if c = asterisk then pattern.isEmpty || text.tails.any (inner n · pattern)
    else if c = question then !text.isEmpty && inner n text.tail pattern
    else if c = opening then
      match matchGlobClass pattern text.head? with
      | some (matched, rest) => matched && inner n text.tail rest
      | none => text.head? == some opening && inner n text.tail pattern
    else text.head? == some c && inner n text.tail pattern

def globMatch (text pattern : Bytes) : Bool := inner pattern.length text pattern

/-- The characters and ranges listed in a class, behind a bracket in first position. -/
def items : Bytes → List (UInt8 × UInt8)
  | [] => []
  | lo :: rest =>
    match rest with
    | dash :: hi :: rest' => if dash = '-'.toUInt8 then (lo, hi) :: items rest' else (lo, lo) ::
        items (dash :: hi :: rest')
    | rest => (lo, lo) :: items rest

/-- A range takes the bytes from either of its ends to the other. -/
def inClass (body : Bytes) (c : UInt8) : Bool :=
  body.head? == some closing && c == closing ||
    (items (if body.head? == some closing then body.tail else body)).any fun i =>
      i.1 ≤ c && c ≤ i.2 || i.2 ≤ c && c ≤ i.1

/-- A class behind its opening bracket, if it is terminated: whether it is negated, its body, and
what follows it. -/
def readClass (p : Bytes) : Option (Bool × Bytes × Bytes) :=
  let negated := p.head? == some '!'.toUInt8 || p.head? == some '^'.toUInt8
  match if negated then p.tail else p with
  | [] => none
  | first :: rest =>
    if closing ∈ rest then
      some (negated, first :: rest.takeWhile (· ≠ closing), (rest.dropWhile (· ≠ closing)).tail)
    else none

/-- The texts of a pattern. -/
inductive Matches : Bytes → Bytes → Prop
  | nil : Matches [] []
  | star {p t : Bytes} (s : Bytes) : Matches p t → Matches (asterisk :: p) (s ++ t)
  | any {p t : Bytes} (c : UInt8) : Matches p t → Matches (question :: p) (c :: t)
  | ofClass {p body rest t : Bytes} {negated : Bool} {c : UInt8} :
      readClass p = some (negated, body, rest) →
    (inClass body c ^^ negated) → Matches rest t → Matches (opening :: p) (c :: t)
  | unterminated {p t : Bytes} : readClass p = none → Matches p t →
      Matches (opening :: p) (opening :: t)
  | literal {p t : Bytes} {c : UInt8} : c ≠ asterisk → c ≠ question → c ≠ opening → Matches p t →
    Matches (c :: p) (c :: t)

theorem between_eq (lo hi c : UInt8) :
    between lo hi c = (lo ≤ c && c ≤ hi || hi ≤ c && c ≤ lo) := by
  rw [between, ← Bool.decide_and, ← Bool.decide_and, ← Bool.decide_and, ← Bool.decide_or,
    decide_eq_decide,
    UInt8.le_iff_toNat_le, UInt8.le_iff_toNat_le, UInt8.le_iff_toNat_le, UInt8.le_iff_toNat_le]
  omega

theorem head_isNegation (p : Bytes) :
    p.head?.any isNegation = (p.head? == some '!'.toUInt8 || p.head? == some '^'.toUInt8) := by
  cases p <;> rfl

@[simp] theorem between_self (a c : UInt8) : between a a c = (c == a) := by
  rw [between, ← Bool.decide_and, beq_eq_decide, decide_eq_decide, ← UInt8.toNat_inj]
  omega

variable {target : Option UInt8} {matched : Bool} {l p text : Bytes}

def listed (target : Option UInt8) (l : Bytes) : Bool :=
  target.any fun c => (items l).any fun i => between i.1 i.2 c

theorem listed_range {lo hi : UInt8} : listed target (lo :: '-'.toUInt8 :: hi :: l) =
    (target.any (between lo hi) || listed target l) := by
  cases target <;> simp [listed, items]

theorem listed_single {lo : UInt8} (h : ∀ hi r, l ≠ '-'.toUInt8 :: hi :: r) :
    listed target (lo :: l) = (target == some lo || listed target l) := by
  have hitems : items (lo :: l) = (lo, lo) :: items l := by
    match l, h with
    | [], _ | [_], _ => rfl
    | dash :: hi :: r, h => exact if_neg fun hdash => h hi r (by rw [hdash])
  cases target <;> simp [listed, hitems]

theorem range_of_takeWhile {dash hi : UInt8} {r : Bytes}
    (h : l.takeWhile (· ≠ closing) = dash :: hi :: r) :
    hi ≠ closing ∧ ∃ s, l = dash :: hi :: s := by
  have hhi := List.mem_takeWhile_imp
      (h ▸ List.mem_cons_of_mem _ List.mem_cons_self : hi ∈ l.takeWhile (· ≠ closing))
  refine ⟨of_decide_eq_true hhi, r ++ l.dropWhile (· ≠ closing), ?_⟩
  rw [← List.cons_append, ← List.cons_append, ← h, List.takeWhile_append_dropWhile]

theorem classLoop_eq : classLoop target matched l =
    if closing ∈ l then
      some (matched || listed target (l.takeWhile (· ≠ closing)), (l.dropWhile (· ≠ closing)).tail)
    else none := by
  fun_induction classLoop target matched l with
  | case1 => rfl
  | case2 matched rest => simp [listed, items]
  | case3 matched lo hlo dash hi rest hrange ih =>
    obtain ⟨rfl, hhi⟩ := hrange
    have hdash : '-'.toUInt8 ≠ closing := by decide
    simp [ih, hlo, hhi, hdash, Ne.symm hlo, hhi.symm, hdash.symm, listed_range, Bool.or_assoc]
  | case4 matched lo hlo dash hi rest hrange ih =>
    rw [ih, Bool.or_assoc, ← listed_single]
    · simp [hlo, Ne.symm hlo]
    · intro hi' r h
      obtain ⟨hhi, s, heq⟩ := range_of_takeWhile h
      cases heq
      exact hrange ⟨rfl, hhi⟩
  | case5 matched lo hlo rest hshort ih =>
    rw [ih, Bool.or_assoc, ← listed_single]
    · simp [hlo, Ne.symm hlo]
    · intro hi r h
      obtain ⟨-, s, heq⟩ := range_of_takeWhile h
      exact hshort _ _ _ heq

theorem matchGlobClass_eq : matchGlobClass p target =
    (readClass p).map fun c => (target.any fun x => inClass c.2.1 x ^^ c.1, c.2.2) := by
  simp only [matchGlobClass, readClass, classLoop_eq, head_isNegation]
  generalize (p.head? == some '!'.toUInt8 || p.head? == some '^'.toUInt8) = negated
  cases if negated = true then p.tail else p with
  | nil => rfl
  | cons first rest =>
    by_cases hrest : closing ∈ rest
    · by_cases hfirst : first = closing
      · cases target <;> simp [hfirst, hrest, listed, inClass, between_eq]
      · cases target <;> simp [hfirst, hrest, listed, inClass, between_eq]
    · by_cases hfirst : first = closing
      · simp [hfirst, hrest]
      · simp [hfirst, hrest, Ne.symm hfirst]

theorem length_of_readClass {negated : Bool} {body rest : Bytes}
    (h : readClass p = some (negated, body, rest)) :
    rest.length < p.length := by
  have hle : ∀ negated : Bool, (if negated then p.tail else p).length ≤ p.length := by
    intro negated
    split <;> simp
  simp only [readClass] at h
  split at h
  · cases h
  · next first rest heq =>
    have hle := hle (p.head? == some '!'.toUInt8 || p.head? == some '^'.toUInt8)
    rw [heq, List.length_cons] at hle
    obtain ⟨-, ⟨⟩⟩ := Option.ite_none_right_eq_some.mp h
    have hdrop := List.length_dropWhile_le (· ≠ closing) rest
    rw [List.length_tail]
    omega

theorem head_eq {c : UInt8} {f : Bytes → Bool} (h : (text.head? == some c && f text.tail) = true) :
    ∃ t, text = c :: t ∧ f t = true := by
  cases text with
  | nil => cases h
  | cons d t =>
    obtain ⟨rfl, hf⟩ : d = c ∧ f t = true := by simpa using h
    exact ⟨t, rfl, hf⟩

theorem matches_of_inner {n : Nat} (h : inner n text p = true) : Matches p text := by
  induction n generalizing p text with
  | zero =>
    cases p with
    | nil => exact List.isEmpty_iff.mp h ▸ .nil
    | cons c p => cases h
  | succ n ih =>
    cases p with
    | nil => exact List.isEmpty_iff.mp h ▸ .nil
    | cons c p =>
      simp only [inner, matchGlobClass_eq] at h
      split_ifs at h with hstar hany hopen
      · subst hstar
        rcases Bool.or_eq_true .. |>.mp h with hp | htails
        · rw [List.isEmpty_iff.mp hp, ← List.append_nil text]
          exact .star text .nil
        · obtain ⟨t, ht, hinner⟩ := List.any_eq_true.mp htails
          obtain ⟨s, rfl⟩ := (List.mem_tails ..).mp ht
          exact .star s (ih hinner)
      · subst hany
        cases text with
        | nil => cases h
        | cons d text => exact .any d (ih h)
      · subst hopen
        cases hclass : readClass p with
        | some r =>
          rw [hclass] at h
          cases text with
          | nil => cases h
          | cons d text =>
            obtain ⟨hd, hinner⟩ := Bool.and_eq_true .. |>.mp h
            exact .ofClass hclass hd (ih hinner)
        | none =>
          rw [hclass] at h
          obtain ⟨text, rfl, hinner⟩ := @head_eq _ _ (inner n · p) h
          exact .unterminated hclass (ih hinner)
      · obtain ⟨text, rfl, hinner⟩ := @head_eq _ _ (inner n · p) h
        exact .literal hstar hany hopen (ih hinner)

theorem opening_ne : opening ≠ asterisk ∧ opening ≠ question := by decide

theorem inner_of_matches (h : Matches p text) :
    ∀ {n : Nat}, p.length ≤ n → inner n text p = true := by
  induction h with
  | nil => intro n _; cases n <;> rfl
  | @star p t s _ ih =>
    rintro (_ | n) hn
    · cases hn
    · have ht : t ∈ (s ++ t).tails := (List.mem_tails ..).mpr (List.suffix_append s t)
      simp only [inner, if_true, Bool.or_eq_true, List.any_eq_true]
      exact .inr ⟨t, ht, ih (Nat.le_of_succ_le_succ hn)⟩
  | any c _ ih =>
    rintro (_ | n) hn
    · cases hn
    · exact ih (Nat.le_of_succ_le_succ hn)
  | ofClass hclass hc _ ih =>
    rintro (_ | n) hn
    · cases hn
    · have hlt := length_of_readClass hclass
      have hinner := @ih n (by rw [List.length_cons] at hn; omega)
      simp [inner, opening_ne, matchGlobClass_eq, hclass, hc, hinner]
  | unterminated hnone _ ih =>
    rintro (_ | n) hn
    · cases hn
    · simp [inner, opening_ne, matchGlobClass_eq, hnone, ih (Nat.le_of_succ_le_succ hn)]
  | literal hstar hany hopen _ ih =>
    rintro (_ | n) hn
    · cases hn
    · simp [inner, hstar, hany, hopen, ih (Nat.le_of_succ_le_succ hn)]

theorem globMatch_iff (text pattern : Bytes) :
    globMatch text pattern = true ↔ Matches pattern text :=
  ⟨matches_of_inner, fun h => inner_of_matches h (Nat.le_refl _)⟩

end RedlineDb.Glob
