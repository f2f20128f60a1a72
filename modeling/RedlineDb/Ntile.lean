import Mathlib.Order.Interval.Finset.Nat

/-!
# The buckets of NTILE

`ntile_value` of `exec/expr/window_eval.rs` computes a row's bucket from its position in the sorted
partition alone. Bucket `k + 1` holds the positions from `bucketStart k` up to
`bucketStart (k + 1)`, and everything about the sizes of the buckets is read off these bounds.
-/

namespace RedlineDb.Ntile

/-- The bucket of a position, as `ntile_value` computes it for a positive number of buckets. -/
def bucketAt (buckets total pos : Nat) : Nat :=
  let base := total / buckets
  let extras := total % buckets
  if pos < extras * (base + 1) then pos / (base + 1) + 1
  else
    let after := pos - extras * (base + 1)
    let denom := max base 1
    extras + after / denom + 1

/-- `arg` is what `literal_i64` makes of the first argument; the result is the integer of an SQL
value. -/
def ntileValue (arg : Option Int) (total sortedPos : Nat) : Except String Int :=
  match arg with
  | some n =>
    if 0 < n then .ok (bucketAt n.toNat total sortedPos)
    else .error "ntile(N) requires a positive integer literal"
  | none => .error "ntile(N) requires a positive integer literal"

/-- How many rows of a partition of `total` rows get bucket `b`. -/
def bucketSize (arg : Option Int) (total b : Nat) : Nat :=
  ((Finset.range total).filter fun pos => ntileValue arg total pos = .ok (b : Int)).card

/-- The first position of bucket `k + 1`: the first `total % buckets` buckets hold one row more than
the others. -/
def bucketStart (buckets total k : Nat) : Nat := k * (total / buckets) + min k (total % buckets)

variable (buckets total : Nat) {pos j k : Nat} {n : Int}

theorem bucketStart_mono (h : j ≤ k) :
    bucketStart buckets total j ≤ bucketStart buckets total k := by
  have hmul := Nat.mul_le_mul_right (total / buckets) h
  simp only [bucketStart]
  omega

theorem bucketStart_succ (k : Nat) : bucketStart buckets total (k + 1) =
    bucketStart buckets total k + total / buckets + if k < total % buckets then 1 else 0 := by
  simp only [bucketStart, Nat.succ_mul]
  split <;> omega

variable {buckets} in
theorem bucketStart_min (hb : 0 < buckets) :
    bucketStart buckets total (min buckets total) = total := by
  have hdiv := Nat.div_add_mod total buckets
  have hmod := Nat.mod_lt total hb
  unfold bucketStart
  rcases Nat.lt_or_ge total buckets with h | h
  · rw [Nat.div_eq_of_lt h, Nat.mod_eq_of_lt h]
    omega
  · rw [Nat.min_eq_left h, Nat.min_eq_right hmod.le]
    exact hdiv

variable {total}

/-- A position lies behind the starts of its own bucket and of those before it. -/
theorem lt_bucketAt_iff (hpos : pos < total) :
    k < bucketAt buckets total pos ↔ bucketStart buckets total k ≤ pos := by
  have hdiv := Nat.div_add_mod total buckets
  simp only [bucketAt, bucketStart]
  generalize total / buckets = base at hdiv ⊢
  generalize total % buckets = extras at hdiv ⊢
  split
  case isTrue hlt =>
    rw [Nat.lt_succ_iff, Nat.le_div_iff_mul_le (Nat.succ_pos base)]
    rcases Nat.le_total k extras with h | h
    · rw [Nat.min_eq_left h, Nat.mul_succ]
    · have hle := Nat.mul_le_mul_right base h
      rw [Nat.min_eq_right h, Nat.mul_succ]
      rw [Nat.mul_succ] at hlt
      omega
  case isFalse hge =>
    -- without a full row for each bucket every position is in one of the first buckets
    have hbase : 0 < base := by
      by_contra h
      rw [Nat.eq_zero_of_not_pos h] at hdiv hge
      omega
    rw [Nat.max_eq_left hbase, Nat.lt_succ_iff]
    rcases Nat.le_total k extras with h | h
    · have hle := Nat.mul_le_mul_right (base + 1) h
      rw [Nat.mul_succ] at hle
      exact iff_of_true (h.trans (Nat.le_add_right _ _)) (by omega)
    · obtain ⟨d, rfl⟩ := Nat.exists_eq_add_of_le h
      rw [Nat.min_eq_right h, Nat.add_le_add_iff_left, Nat.le_div_iff_mul_le hbase, Nat.add_mul]
      rw [Nat.mul_succ] at hge ⊢
      omega

theorem bucketAt_eq_iff (hpos : pos < total) : bucketAt buckets total pos = k + 1 ↔
    bucketStart buckets total k ≤ pos ∧ pos < bucketStart buckets total (k + 1) := by
  have hlow := lt_bucketAt_iff (k := k) buckets hpos
  have hhigh := lt_bucketAt_iff (k := k + 1) buckets hpos
  omega

theorem ntileValue_eq_ok (hn : 0 < n) (b : Nat) :
    ntileValue (some n) total pos = .ok (b : Int) ↔ bucketAt n.toNat total pos = b := by
  rw [ntileValue, if_pos hn, Except.ok.injEq]
  omega

theorem bucketSize_eq (hn : 0 < n) (hk : k < min n.toNat total) :
    bucketSize (some n) total (k + 1) =
    total / n.toNat + if k < total % n.toNat then 1 else 0 := by
  have hend := bucketStart_mono n.toNat total (show k + 1 ≤ min n.toNat total from hk)
  rw [bucketStart_min total (by omega)] at hend
  have hset : ((Finset.range total).filter fun pos => ntileValue (some n) total pos =
      .ok ((k + 1 : Nat) : Int)) =
      Finset.Ico (bucketStart n.toNat total k) (bucketStart n.toNat total (k + 1)) := by
    ext pos
    rw [Finset.mem_filter, Finset.mem_range, Finset.mem_Ico, ntileValue_eq_ok hn]
    constructor
    · rintro ⟨hpos, h⟩
      exact (bucketAt_eq_iff _ hpos).1 h
    · intro h
      have hpos : pos < total := h.2.trans_le hend
      exact ⟨hpos, (bucketAt_eq_iff _ hpos).2 h⟩
  rw [bucketSize, hset, Nat.card_Ico, bucketStart_succ, Nat.add_assoc, Nat.add_sub_cancel_left]

theorem bucketStart_lt_succ {buckets : Nat} (hk : k < min buckets total) :
    bucketStart buckets total k < bucketStart buckets total (k + 1) := by
  rw [bucketStart_succ]
  rcases Nat.lt_or_ge total buckets with h | h
  · rw [Nat.mod_eq_of_lt h, if_pos (by omega), Nat.div_eq_of_lt h]
    omega
  · have hbase : 0 < total / buckets := Nat.div_pos h (by omega)
    omega

theorem exists_bucketAt_iff {buckets b : Nat} (hb : 0 < buckets) :
    (∃ pos < total, bucketAt buckets total pos = b) ↔ 1 ≤ b ∧ b ≤ min buckets total := by
  have hlast := bucketStart_min total hb
  constructor
  · rintro ⟨pos, hpos, rfl⟩
    refine ⟨(lt_bucketAt_iff _ hpos).2 (by simp [bucketStart]), ?_⟩
    rw [← not_lt, lt_bucketAt_iff _ hpos, hlast]
    omega
  · rintro ⟨hpos, hle⟩
    obtain ⟨k, rfl⟩ := Nat.exists_eq_add_of_le' hpos
    have hlt := bucketStart_lt_succ hle
    have hmono := bucketStart_mono buckets total hle
    have htotal : bucketStart buckets total k < total := by omega
    exact ⟨_, htotal, (bucketAt_eq_iff _ htotal).2 ⟨le_rfl, hlt⟩⟩

/-- NTILE numbers a sorted partition with buckets 1 to `min n size`, in this order, as evenly as
possible and with the larger buckets first. -/
theorem ntileValue_buckets (n : Int) (hn : 0 < n) (size : Nat) :
    (∀ pos, ntileValue (some n) size pos = .ok (bucketAt n.toNat size pos : Int)) ∧
      (∀ p q, p ≤ q → q < size → bucketAt n.toNat size p ≤ bucketAt n.toNat size q) ∧
      (0 < size → bucketAt n.toNat size 0 = 1) ∧
      (∀ b, (∃ pos < size, bucketAt n.toNat size pos = b) ↔ 1 ≤ b ∧ b ≤ min n.toNat size) ∧
      ∀ b c, 1 ≤ b → b ≤ c → c ≤ min n.toNat size →
        bucketSize (some n) size c ≤ bucketSize (some n) size b ∧
          bucketSize (some n) size b ≤ bucketSize (some n) size c + 1 := by
  refine ⟨fun pos => (ntileValue_eq_ok hn _).2 rfl, fun p q hpq hq => ?_, fun hsize => ?_,
    fun b => exists_bucketAt_iff (by omega), fun b c hb hbc hc => ?_⟩
  · refine le_of_forall_lt fun k hk => (lt_bucketAt_iff _ hq).2 ?_
    exact ((lt_bucketAt_iff _ (hpq.trans_lt hq)).1 hk).trans hpq
  · have hlt := bucketStart_lt_succ (show 0 < min n.toNat size by omega)
    exact (bucketAt_eq_iff _ hsize).2 ⟨by simp [bucketStart], by omega⟩
  · obtain ⟨j, rfl⟩ := Nat.exists_eq_add_of_le' hb
    obtain ⟨k, rfl⟩ := Nat.exists_eq_add_of_le' (hb.trans hbc)
    rw [bucketSize_eq hn (by omega), bucketSize_eq hn (by omega)]
    split <;> split <;> omega

theorem ntileValue_buckets_seven_by_three : (0 : Int) < 3 ∧ bucketAt 3 7 0 = 1 ∧
    bucketSize (some 3) 7 1 = 3 ∧ bucketSize (some 3) 7 2 ≤ bucketSize (some 3) 7 1 :=
  ⟨by decide, (ntileValue_buckets 3 (by decide) 7).2.2.1 (by decide), by decide,
    ((ntileValue_buckets 3 (by decide) 7).2.2.2.2 1 2 (by decide) (by decide) (by decide)).1⟩

end RedlineDb.Ntile
