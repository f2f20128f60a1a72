import Mathlib.Data.Nat.Basic
import Mathlib.Data.List.Basic
import Mathlib.Algebra.Order.Ring.Nat
import Mathlib.Tactic.Ring

/-!
# Byte strings

Little-endian numbers of a fixed width, reading a field out of a byte string, and files: byte
strings that can be written at an offset and cut to a length.
-/

namespace Lib

def leBytes : Nat → Nat → List UInt8
  | 0, _ => []
  | w + 1, n => UInt8.ofNat (n % 256) :: leBytes w (n / 256)

def ofLeBytes : List UInt8 → Nat
  | [] => 0
  | b :: bs => b.toNat + 256 * ofLeBytes bs

@[simp] theorem length_leBytes (w n : Nat) : (leBytes w n).length = w := by
  induction w generalizing n with
  | zero => rfl
  | succ w ih => simp [leBytes, ih]

theorem ofLeBytes_leBytes {w n : Nat} (h : n < 256 ^ w) : ofLeBytes (leBytes w n) = n := by
  induction w generalizing n with
  | zero => simp_all [leBytes, ofLeBytes]
  | succ w ih =>
    have hdiv : n / 256 < 256 ^ w := by
      rw [Nat.div_lt_iff_lt_mul (by decide), ← pow_succ]
      exact h
    have hbyte : (UInt8.ofNat (n % 256)).toNat = n % 256 := by
      rw [UInt8.toNat_ofNat']
      exact Nat.mod_eq_of_lt (Nat.mod_lt n (by decide))
    rw [leBytes, ofLeBytes, ih hdiv, hbyte]
    omega

def readLe (bs : List UInt8) (offset w : Nat) : Option Nat :=
  if offset + w ≤ bs.length then some (ofLeBytes ((bs.drop offset).take w)) else none

theorem readLe_leBytes {w n : Nat} (hn : n < 256 ^ w) (b : List UInt8) :
    readLe (leBytes w n ++ b) 0 w = some n := by
  have hlen : 0 + w ≤ (leBytes w n ++ b).length := by
    rw [List.length_append, length_leBytes]
    omega
  rw [readLe, if_pos hlen, List.drop_zero, List.take_left' (length_leBytes w n),
    ofLeBytes_leBytes hn]

theorem readLe_skip {v m offset w : Nat} (h : v ≤ offset) (b : List UInt8) :
    readLe (leBytes v m ++ b) offset w = readLe b (offset - v) w := by
  have hdrop : (leBytes v m ++ b).drop offset = b.drop (offset - v) := by
    rw [List.drop_append, length_leBytes, List.drop_eq_nil_of_le (by rw [length_leBytes]; exact h),
      List.nil_append]
  have hlen : offset + w ≤ (leBytes v m ++ b).length ↔ offset - v + w ≤ b.length := by
    rw [List.length_append, length_leBytes]
    omega
  simp only [readLe, hdrop, hlen]

theorem readLe_append {bs a : List UInt8} {offset w : Nat} (h : offset + w ≤ bs.length) :
    readLe (bs ++ a) offset w = readLe bs offset w := by
  have hlen : offset + w ≤ (bs ++ a).length := by
    rw [List.length_append]
    omega
  have hfield : ((bs ++ a).drop offset).take w = (bs.drop offset).take w := by
    rw [List.drop_append_of_le_length (by omega),
      List.take_append_of_le_length (by rw [List.length_drop]; omega)]
  rw [readLe, readLe, if_pos h, if_pos hlen, hfield]

def getLe (w : Nat) (bs : List UInt8) : Option (Nat × List UInt8) :=
  if w ≤ bs.length then some (ofLeBytes (bs.take w), bs.drop w) else none

theorem getLe_leBytes {w n : Nat} (hn : n < 256 ^ w) (b : List UInt8) :
    getLe w (leBytes w n ++ b) = some (n, b) := by
  have hlen : w ≤ (leBytes w n ++ b).length := by simp
  rw [getLe, if_pos hlen, List.take_left' (length_leBytes w n),
    List.drop_left' (length_leBytes w n), ofLeBytes_leBytes hn]

variable {α : Type}

def getMany (get : List UInt8 → Option (α × List UInt8)) :
    Nat → List UInt8 → Option (List α × List UInt8)
  | 0, bs => some ([], bs)
  | n + 1, bs => do
    let (a, bs) ← get bs
    let (as, bs) ← getMany get n bs
    return (a :: as, bs)

theorem getMany_flatMap {get : List UInt8 → Option (α × List UInt8)} {put : α → List UInt8}
    (h : ∀ a b, get (put a ++ b) = some (a, b)) (as : List α) (b : List UInt8) :
    getMany get as.length (as.flatMap put ++ b) = some (as, b) := by
  induction as with
  | nil => rfl
  | cons a as ih => simp [getMany, h, ih]

def setLen (f : List UInt8) (n : Nat) : List UInt8 := f.take n ++ List.replicate (n - f.length) 0

/-- `write_all_at`: a gap before the offset is filled with zeros. -/
def writeAt (f : List UInt8) (offset : Nat) (bs : List UInt8) : List UInt8 :=
  setLen f offset ++ (bs ++ f.drop (offset + bs.length))

theorem setLen_of_le {f : List UInt8} {n : Nat} (h : n ≤ f.length) : setLen f n = f.take n := by
  rw [setLen, Nat.sub_eq_zero_of_le h, List.replicate_zero, List.append_nil]

theorem writeAt_append {f t bs : List UInt8} (h : t.length ≤ bs.length) :
    writeAt (f ++ t) f.length bs = f ++ bs := by
  have hlen : (f ++ t).length ≤ f.length + bs.length := by
    rw [List.length_append]
    omega
  rw [writeAt, setLen_of_le (by rw [List.length_append]; omega), List.take_left,
    List.drop_eq_nil_of_le hlen,
    List.append_nil]

end Lib
