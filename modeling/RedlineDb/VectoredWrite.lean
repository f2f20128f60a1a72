import RedlineDb.Format

/-!
# The vectored write of the log pipeline

`write_all_vectored` of `wal/pipeline.rs` goes on after a short write as long as it ends on the
boundary of a buffer. One that ends inside a buffer hands over to `write_tail_sequential`, which is
told a number of remaining bytes too large by what that buffer still holds: the bytes are right
exactly if this does not happen.
-/

namespace RedlineDb.VectoredWrite
open List

/-- The buffers lie in memory together. -/
structure Batch where
  buffers : List Bytes
  fits : buffers.flatten.length < 18446744073709551616

inductive IoError
  | writeZero | other
deriving DecidableEq

/-- The inner loop: the slices left, or, where the bytes end inside a slice, `consumed_in_first`. -/
def advanceSlices : Nat → List Bytes → Except Nat (List Bytes)
  | _, [] => .ok []
  | advance, s :: slices =>
    if advance = 0 then .ok (s :: slices)
    else if s.length ≤ advance then advanceSlices (advance - s.length) slices
    else .error (s.length - advance)

def writeSkipping : Nat → List Bytes → Bytes → Bytes
  | _, [], file => file
  | toSkip, buf :: buffers, file =>
    if buf.length ≤ toSkip then writeSkipping (toSkip - buf.length) buffers file
    else writeSkipping 0 buffers (file ++ buf.drop toSkip)

/-- Release builds have no overflow checks: the subtraction wraps. -/
def writeTailSequential (buffers : List Bytes) (remaining : Nat) (file : Bytes) : Bytes :=
  writeSkipping ((buffers.flatten.length + 18446744073709551616 - remaining) % 18446744073709551616)
    buffers file

/-- The loop over `write_vectored`. An entry of `counts` is what the operating system is ready to
write at a call; the call after the last one fails. -/
def writeLoop (buffers : List Bytes) : List Nat → List Bytes → Nat → Bytes → Except IoError Bytes
  | counts, slices, written, file =>
    if written < buffers.flatten.length then
      match counts with
      | [] => .error .other
      | count :: counts =>
        let n := min count slices.flatten.length
        if n = 0 then .error .writeZero
        else
          let file := file ++ slices.flatten.take n
          match advanceSlices n slices with
          | .ok slices => writeLoop buffers counts slices (written + n) file
          | .error consumedInFirst => .ok (writeTailSequential buffers
              (buffers.flatten.length - (written + n) + consumedInFirst) file)
    else .ok file

def writeAllVectored (batch : Batch) (counts : List Nat) (file : Bytes) : Except IoError Bytes :=
  if batch.buffers.length ≤ 1024 then writeLoop batch.buffers counts batch.buffers 0 file
  else .ok (batch.buffers.foldl (· ++ ·) file)

/-- Position `p` of the batch is the start of a buffer, or the end of the last one. -/
def Boundary (buffers : List Bytes) (p : Nat) : Prop := ∃ j, (buffers.take j).flatten.length = p

variable {buffers slices done : List Bytes} {file file' : Bytes} {n : Nat}

theorem writeSkipping_eq (toSkip : Nat) (buffers : List Bytes) (file : Bytes) :
    writeSkipping toSkip buffers file = file ++ buffers.flatten.drop toSkip := by
  induction buffers generalizing toSkip file with
  | nil => simp [writeSkipping]
  | cons buf buffers ih =>
    rw [writeSkipping]
    split
    case isTrue h => rw [ih, flatten_cons, drop_append, drop_eq_nil_of_le h, nil_append]
    case isFalse h =>
      rw [ih, flatten_cons, drop_append_of_le_length (by omega), drop_zero, append_assoc]

theorem advanceSlices_cases (hn : n ≤ slices.flatten.length) :
    (∃ taken rest, slices = taken ++ rest ∧ advanceSlices n slices = .ok rest ∧
      taken.flatten.length = n) ∨
      ∃ taken s rest left, slices = taken ++ s :: rest ∧ advanceSlices n slices = .error left ∧
        0 < left ∧
        taken.flatten.length < n ∧ n + left = taken.flatten.length + s.length := by
  induction slices generalizing n with
  | nil => exact .inl ⟨[], [], rfl, rfl, (Nat.le_zero.1 hn).symm⟩
  | cons s slices ih =>
    rw [advanceSlices]
    split
    case isTrue hzero => exact .inl ⟨[], _, rfl, rfl, hzero.symm⟩
    case isFalse hzero =>
      split
      case isTrue hle =>
        rw [flatten_cons, length_append] at hn
        have hcons : ∀ taken : List Bytes, (s :: taken).flatten.length =
            s.length + taken.flatten.length := by simp
        rcases ih (n := n - s.length) (by omega) with
          ⟨taken, rest, rfl, hok, htaken⟩ | ⟨taken, s', rest, left, rfl, herr, hleft, hlow, hend⟩
        · exact .inl ⟨s :: taken, rest, rfl, hok, by rw [hcons]; omega⟩
        · exact .inr ⟨s :: taken, s', rest, left, rfl, herr, hleft, by rw [hcons]; omega, by
            rw [hcons]; omega⟩
      case isFalse hlt =>
        exact .inr ⟨[], s, slices, _, rfl, rfl, by omega, Nat.pos_of_ne_zero hzero, by simp; omega⟩

theorem not_boundary {s : Bytes} {p : Nat} (hlow : done.flatten.length < p)
    (hhigh : p < done.flatten.length + s.length) : ¬ Boundary (done ++ s :: slices) p := by
  rintro ⟨j, rfl⟩
  rcases Nat.lt_or_ge done.length j with hj | hj
  · rw [take_append, take_of_length_le (by omega), flatten_append, length_append,
      show j - done.length = (j - done.length - 1) + 1 by
        omega, take_succ_cons, flatten_cons, length_append] at hhigh
    omega
  · rw [take_append_of_le_length hj] at hlow
    have hparts := congrArg (·.flatten.length) (take_append_drop j done)
    simp only [flatten_append, length_append] at hparts
    omega

theorem writeTailSequential_ne {left : Nat} (hfits : buffers.flatten.length < 18446744073709551616)
    (hleft : 0 < left)
    (hn : n + left ≤ buffers.flatten.length) (hlen : file'.length = file.length + n) :
    writeTailSequential buffers (buffers.flatten.length - n + left) file' ≠ file ++
      buffers.flatten := by
  intro h
  have hlength := congrArg List.length h
  rw [writeTailSequential, writeSkipping_eq, length_append, length_append, length_drop,
    hlen] at hlength
  omega

theorem writeLoop_finished {counts : List Nat}
    (hge : ¬ done.flatten.length < (done ++ slices).flatten.length)
    (h : writeLoop (done ++ slices) counts slices done.flatten.length (file ++ done.flatten) =
      .ok file') :
    file' = file ++ (done ++ slices).flatten ↔ ∀ k, Boundary (done ++ slices)
      (min (done.flatten.length + (counts.take k).sum) (done ++ slices).flatten.length) := by
  unfold writeLoop at h
  rw [if_neg hge] at h
  cases h
  refine iff_of_true ?_ fun k => ⟨(done ++ slices).length, by rw [take_length]; omega⟩
  rw [flatten_append, length_append] at hge
  rw [flatten_append, length_eq_zero_iff.1 (show slices.flatten.length = 0 by omega), append_nil]

theorem writeLoop_ok {counts : List Nat}
    (hfits : (done ++ slices).flatten.length < 18446744073709551616)
    (h : writeLoop (done ++ slices) counts slices done.flatten.length (file ++ done.flatten) =
      .ok file') :
    file' = file ++ (done ++ slices).flatten ↔ ∀ k, Boundary (done ++ slices)
      (min (done.flatten.length + (counts.take k).sum) (done ++ slices).flatten.length) := by
  induction counts generalizing done slices with
  | nil =>
    refine writeLoop_finished (fun hlt => ?_) h
    rw [writeLoop, if_pos hlt] at h
    cases h
  | cons count counts ih =>
    by_cases hlt : done.flatten.length < (done ++ slices).flatten.length
    case neg => exact writeLoop_finished hlt h
    have hlength : ∀ a b : List Bytes, (a ++ b).flatten.length = a.flatten.length +
        b.flatten.length := by simp
    rw [writeLoop, if_pos hlt] at h
    dsimp only at h
    generalize hn : min count slices.flatten.length = n at h
    split at h
    case isTrue => cases h
    case isFalse hzero =>
      have hle : n ≤ slices.flatten.length := by omega
      rcases advanceSlices_cases hle with
        ⟨taken, rest, rfl, hok, htaken⟩ | ⟨taken, s, rest, left, rfl, herr, hleft, hlow, hend⟩
      · rw [hok, flatten_append, take_left' htaken, append_assoc, ← flatten_append, ← htaken,
          ← length_append,
          ← flatten_append, ← append_assoc] at h
        rw [← append_assoc] at hfits hlt ⊢
        rw [hlength, htaken] at hn
        have hpos : ∀ k, min (done.flatten.length + ((count :: counts).take (k + 1)).sum)
            (done ++ taken ++ rest).flatten.length =
              min ((done ++ taken).flatten.length + (counts.take k).sum)
                (done ++ taken ++ rest).flatten.length := by
          intro k
          rw [take_succ_cons, sum_cons, hlength, hlength, htaken]
          omega
        refine (ih hfits h).trans ⟨fun hall k => ?_, fun hall k => hpos k ▸ hall (k + 1)⟩
        cases k with
        | zero =>
          refine ⟨done.length, ?_⟩
          rw [take_zero, sum_nil, Nat.add_zero, Nat.min_eq_left (Nat.le_of_lt hlt), append_assoc,
            take_left]
        | succ k => exact hpos k ▸ hall k
      · rw [herr] at h
        cases h
        rw [hlength, flatten_cons, length_append] at hn
        refine iff_of_false (writeTailSequential_ne hfits hleft ?_ ?_) fun hall => ?_
        · rw [hlength, hlength, flatten_cons, length_append]
          omega
        · rw [length_append, length_append, length_take, hlength, flatten_cons, length_append]
          omega
        · have hfirst := hall 1
          rw [take_succ_cons, take_zero, sum_singleton, hlength, hlength, flatten_cons,
            length_append,
            show min (done.flatten.length + count) _ = done.flatten.length + n by
              omega, ← append_assoc] at hfirst
          exact not_boundary (by rw [hlength]; omega) (by rw [hlength]; omega) hfirst

/-- The bytes appended are those of the buffers exactly if there are more than 1024 buffers or no
short write ends inside one of them. -/
theorem writeAllVectored_exact (batch : Batch) (counts : List Nat) (file file' : Bytes)
    (h : writeAllVectored batch counts file = .ok file') :
    file' = file ++ batch.buffers.flatten ↔
      1024 < batch.buffers.length ∨
        ∀ k, Boundary batch.buffers (min (counts.take k).sum batch.buffers.flatten.length) := by
  unfold writeAllVectored at h
  split at h
  case isTrue hle =>
    have hiff := @writeLoop_ok batch.buffers [] file file' counts batch.fits (by simpa using h)
    simp only [nil_append, flatten_nil, length_nil, Nat.zero_add] at hiff
    rw [hiff, or_iff_right (by omega)]
  case isFalse hgt =>
    cases h
    refine iff_of_true ?_ (.inl (by omega))
    clear hgt
    induction batch.buffers generalizing file with
    | nil => exact (append_nil file).symm
    | cons buf buffers ih => rw [foldl_cons, ih, flatten_cons, append_assoc]

theorem writeAllVectored_exact_short :
    ∃ file', writeAllVectored ⟨[[1], [2, 3]], by decide⟩ [1, 2] [] = .ok file' ∧
    (file' = [1, 2, 3] ↔ 1024 < 2 ∨
      ∀ k, Boundary [[1], [2, 3]] (min (([1, 2] : List Nat).take k).sum 3)) :=
  ⟨_, rfl, writeAllVectored_exact ⟨[[1], [2, 3]], by decide⟩ [1, 2] [] _ rfl⟩

/-- A short write that ends inside a buffer: the second byte is written twice. -/
theorem writeAllVectored_repeats :
    writeAllVectored ⟨[[1, 2, 3]], by decide⟩ [2] [] = .ok [1, 2, 2, 3] ∧
    [1, 2, 2, 3] ≠ ([[1, 2, 3]] : List Bytes).flatten := by decide

end RedlineDb.VectoredWrite
