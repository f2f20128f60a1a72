import Mathlib.Data.BitVec
import RedlineDb.Lib.Lex
import RedlineDb.Format

/-!
# Key comparison

`cmp_keys_avx2` of `index/keycmp` compares keys in blocks of 32 bytes. A register is the function
from its lanes; a comparison is read through `_mm256_movemask_epi8`, one bit for each byte.
-/

namespace RedlineDb.KeyCompare

def movemaskEpi8 (v : Fin 32 → BitVec 8) : BitVec 32 :=
  (BitVec.iunfoldr (fun k _ => ((), (v k).msb)) ()).2

theorem getLsbD_movemaskEpi8 (v : Fin 32 → BitVec 8) (k : Fin 32) :
    (movemaskEpi8 v).getLsbD k = (v k).msb :=
  BitVec.iunfoldr_getLsbD (fun _ => ()) k fun _ => rfl

def cmpeqEpi8 (a b : Fin 32 → BitVec 8) : Fin 32 → BitVec 8 :=
  fun k => if a k = b k then .allOnes 8 else 0

def loadBytes (a : Bytes) (i : Nat) : Fin 32 → BitVec 8 := fun k => (a.getD (i + k) 0).toBitVec

/-- `u32::trailing_ones`. -/
def trailingOnes (m : BitVec 32) : Nat := (~~~m).ctz.toNat

def cmpTail (a b : Bytes) (i : Nat) : Ordering :=
  if i < min a.length b.length then
    match compare (a.getD i 0) (b.getD i 0) with
    | .eq => cmpTail a b (i + 1)
    | other => other
  else compare a.length b.length
termination_by min a.length b.length - i

def cmpBlocks (a b : Bytes) (i : Nat) : Ordering :=
  if i + 32 ≤ min a.length b.length then
    let mask := movemaskEpi8 (cmpeqEpi8 (loadBytes a i) (loadBytes b i))
    if mask ≠ 0xFFFFFFFF then
      let mismatchOff := i + trailingOnes mask
      compare (a.getD mismatchOff 0) (b.getD mismatchOff 0)
    else cmpBlocks a b (i + 32)
  else cmpTail a b i
termination_by min a.length b.length - i

def cmpKeysAvx2 (a b : Bytes) : Ordering := cmpBlocks a b 0

/-- `<[u8]>::cmp`. -/
def sliceCmp : Bytes → Bytes → Ordering
  | [], [] => .eq
  | [], _ :: _ => .lt
  | _ :: _, [] => .gt
  | x :: a, y :: b => (compare x y).then (sliceCmp a b)

/-- `avx2` is what `is_x86_feature_detected!` found. -/
def cmpKeys (avx2 : Bool) (a b : Bytes) : Ordering := if avx2 then cmpKeysAvx2 a b else sliceCmp a b

variable {a b : Bytes} {i k : Nat}

theorem sliceCmp_drop (hi : i < min a.length b.length) : sliceCmp (a.drop i) (b.drop i) =
    (compare (a.getD i 0) (b.getD i 0)).then (sliceCmp (a.drop (i + 1)) (b.drop (i + 1))) := by
  have ha : i < a.length := by omega
  have hb : i < b.length := by omega
  rw [List.drop_eq_getElem_cons ha, List.drop_eq_getElem_cons hb]
  simp [sliceCmp, ha, hb]

theorem sliceCmp_skip (hle : i + k ≤ min a.length b.length)
    (heq : ∀ j < k, a.getD (i + j) 0 = b.getD (i + j) 0) :
    sliceCmp (a.drop i) (b.drop i) = sliceCmp (a.drop (i + k)) (b.drop (i + k)) := by
  induction k with
  | zero => rfl
  | succ k ih =>
    rw [ih (by omega) fun j hj => heq j (by omega), sliceCmp_drop (by omega), heq k (by omega)]
    simp [Nat.add_assoc]

theorem cmpTail_eq (hi : i ≤ min a.length b.length) :
    cmpTail a b i = sliceCmp (a.drop i) (b.drop i) := by
  fun_induction cmpTail a b i with
  | case1 i hlt heq ih => rw [ih hlt, sliceCmp_drop hlt, heq]; rfl
  | case2 i hlt hne =>
    rw [sliceCmp_drop hlt]
    cases hcmp : compare (a.getD i 0) (b.getD i 0) with
    | eq => exact absurd hcmp hne
    | lt | gt => rfl
  | case3 i hge =>
    -- one of the strings ends here
    rcases Nat.lt_trichotomy a.length b.length with h | h | h
    · rw [List.drop_eq_nil_of_le (by omega), List.drop_eq_getElem_cons (by omega)]
      exact compare_lt_iff_lt.2 h
    · rw [List.drop_eq_nil_of_le (by omega), List.drop_eq_nil_of_le (by omega), h]
      exact compare_eq_iff_eq.2 rfl
    · rw [List.drop_eq_nil_of_le (show b.length ≤ i by omega), List.drop_eq_getElem_cons (by omega)]
      exact compare_gt_iff_gt.2 h

theorem getLsbD_mask (a b : Bytes) (i : Nat) (hk : k < 32) :
    (movemaskEpi8 (cmpeqEpi8 (loadBytes a i) (loadBytes b i))).getLsbD k =
      decide (a.getD (i + k) 0 = b.getD (i + k) 0) := by
  rw [getLsbD_movemaskEpi8 _ ⟨k, hk⟩]
  simp only [cmpeqEpi8, loadBytes, UInt8.toBitVec_inj]
  split
  case isTrue h => rw [decide_eq_true h]; rfl
  case isFalse h => rw [decide_eq_false h]; rfl

theorem cmpBlocks_eq (hi : i ≤ min a.length b.length) :
    cmpBlocks a b i = sliceCmp (a.drop i) (b.drop i) := by
  fun_induction cmpBlocks a b i with
  | case1 i hle mask hmask off =>
    -- the first zero of the mask is the first byte that differs
    have hzero : ~~~mask ≠ 0#32 := fun h => hmask (BitVec.not_eq_comm.1 h)
    have hfirst : (~~~mask).getLsbD (trailingOnes mask) = true :=
      BitVec.getLsbD_true_ctz_of_ne_zero hzero
    simp only [BitVec.getLsbD_not, Bool.and_eq_true, decide_eq_true_eq] at hfirst
    obtain ⟨hoff, hbit⟩ := hfirst
    have heq : ∀ j < trailingOnes mask, a.getD (i + j) 0 = b.getD (i + j) 0 := by
      intro j hj
      have hone : (~~~mask).getLsbD j = false := BitVec.getLsbD_false_of_lt_ctz hj
      rw [BitVec.getLsbD_not, getLsbD_mask a b i (by omega)] at hone
      simpa [show j < 32 by omega] using hone
    have hne : a.getD off 0 ≠ b.getD off 0 := by
      rw [getLsbD_mask a b i hoff] at hbit
      simpa using hbit
    rw [sliceCmp_skip (by omega) heq, sliceCmp_drop (by omega)]
    cases hcmp : compare (a.getD off 0) (b.getD off 0) with
    | eq => exact absurd (compare_eq_iff_eq.1 hcmp) hne
    | lt | gt => rfl
  | case2 i hle mask hmask ih =>
    rw [ih hle]
    refine (sliceCmp_skip hle fun j hj => ?_).symm
    have hbit := getLsbD_mask a b i hj
    rw [show movemaskEpi8 _ = BitVec.allOnes 32 from not_not.1 hmask, BitVec.getLsbD_allOnes,
      decide_eq_true hj] at hbit
    exact of_decide_eq_true hbit.symm
  | case3 i hge => exact cmpTail_eq hi

theorem sliceCmp_eq (a b : Bytes) : sliceCmp a b = compareOfLessAndEq a b := by
  unfold compareOfLessAndEq
  fun_induction sliceCmp a b with
  | case1 => rfl
  | case2 => rfl
  | case3 => rfl
  | case4 x a y b ih =>
    rw [ih]
    simp only [List.cons_lt_cons_iff, List.cons.injEq]
    rcases lt_trichotomy x y with h | rfl | h
    · simp [h, compare_lt_iff_lt.2 h]
    · simp
    · simp [h.not_gt, h.ne', compare_gt_iff_gt.2 h]

/-- Keys are compared byte by byte, with a proper prefix first, on a processor with and without
AVX2. -/
theorem cmpKeys_eq (avx2 : Bool) (a b : Bytes) : cmpKeys avx2 a b = compareOfLessAndEq a b := by
  unfold cmpKeys
  split
  · rw [cmpKeysAvx2, cmpBlocks_eq (Nat.zero_le _), List.drop_zero, List.drop_zero, sliceCmp_eq]
  · exact sliceCmp_eq a b

end RedlineDb.KeyCompare
