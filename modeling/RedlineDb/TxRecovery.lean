import RedlineDb.Recovery

/-!
# The recovered transaction table

A reopening completes the CSNs of the checkpoint's table and of the commit records, in any order and
some of them twice, and raises the frontier to the one the checkpoint saw. What is committed
afterwards is what either of them says; and once all CSNs up to `c` were completed, the frontier has
passed `c`.
-/

namespace RedlineDb
open ConcurrentTxStatus List
namespace ConcurrentTxStatus
variable {t : ConcurrentTxStatus} {x c : Nat} {es : List (Nat × Nat)}

@[simp] theorem state_publishRecoveredCommit (tx csn : Nat) :
    (t.publishRecoveredCommit tx csn).state x = if x = tx then .committed csn else t.state x := by
  simp only [publishRecoveredCommit, state_completeCsn]
  exact state_setState t tx x (.committed csn)

theorem publishedCsn_le_publishRecoveredCommit (tx csn : Nat) :
    t.publishedCsn ≤ (t.publishRecoveredCommit tx csn).publishedCsn :=
  publishedCsn_le_completeCsn { t.setState tx (.committed csn) with
    nextTx := advancePast t.nextTx tx, nextCsn := advancePast t.nextCsn csn } csn

theorem state_recovered_of_not_mem (hx : ∀ e ∈ es, e.1 ≠ x) :
    (es.foldl (fun t e => t.publishRecoveredCommit e.1 e.2) t).state x = t.state x := by
  induction es generalizing t with
  | nil => rfl
  | cons e es ih =>
    rw [foldl_cons, ih fun e' he' => hx e' (by simp [he']), state_publishRecoveredCommit,
      if_neg (Ne.symm (hx e (by simp)))]

theorem state_recovered_of_agree (ht : (x, c) ∈ es ∨ t.state x = .committed c)
    (hx : ∀ e ∈ es, e.1 = x → e.2 = c) :
    (es.foldl (fun t e => t.publishRecoveredCommit e.1 e.2) t).state x = .committed c := by
  induction es generalizing t with
  | nil => exact ht.resolve_left (by simp)
  | cons e es ih =>
    rw [foldl_cons]
    refine ih ?_ fun e' he' => hx e' (by simp [he'])
    rw [state_publishRecoveredCommit]
    by_cases he : x = e.1
    · right
      rw [if_pos he, hx e (by simp) he.symm]
    · rw [if_neg he]
      refine ht.imp ?_ id
      intro hm
      rcases mem_cons.1 hm with rfl | hm
      · exact absurd rfl he
      · exact hm

theorem publishedCsn_le_recovered :
    t.publishedCsn ≤ (es.foldl (fun t e => t.publishRecoveredCommit e.1 e.2) t).publishedCsn := by
  induction es generalizing t with
  | nil => exact le_rfl
  | cons e es ih => exact (publishedCsn_le_publishRecoveredCommit e.1 e.2).trans ih

theorem mem_filterMap_committedOf : (x, c) ∈ t.states.entries.filterMap committedOf ↔
    t.state x = .committed c := by
  unfold state
  rw [mem_filterMap]
  constructor
  · rintro ⟨⟨y, st⟩, hm, he⟩
    have hl := AList.mem_lookup_iff.2 hm
    cases st with
    | committed csn =>
      simp only [committedOf, Option.some.injEq, Prod.mk.injEq] at he
      obtain ⟨rfl, rfl⟩ := he
      have hl' : AList.lookup y t.states = some (.committed csn) := hl
      rw [hl']
      rfl
    | inProgress => cases he
    | aborted => cases he
  · intro h
    cases hl : t.states.lookup x with
    | none => rw [hl] at h; cases h
    | some st =>
      rw [hl] at h
      have h' : st = .committed c := h
      subst h'
      exact ⟨⟨x, .committed c⟩, AList.mem_lookup_iff.1 hl, rfl⟩

theorem mem_committedStates : (x, c) ∈ t.committedStates ↔ t.state x = .committed c := by
  rw [committedStates, mem_insertionSort, mem_filterMap_committedOf]

theorem state_restore (generation : Nat) :
    (restore (t.txStatusCheckpoint generation)).state x = match t.state x with
      | .committed c => .committed c
      | _ => .aborted := by
  show ((t.committedStates).foldl (fun t e => t.publishRecoveredCommit e.1 e.2) new).state x = _
  have hno : (∀ c, t.state x ≠ .committed c) →
      ((t.committedStates).foldl (fun t e => t.publishRecoveredCommit e.1 e.2) new).state x =
      .aborted := by
    intro hn
    refine state_recovered_of_not_mem ?_
    rintro ⟨y, c⟩ he rfl
    exact hn c (mem_committedStates.1 he)
  cases hst : t.state x with
  | committed c =>
    refine state_recovered_of_agree (.inl (mem_committedStates.2 hst)) ?_
    rintro ⟨y, c'⟩ he rfl
    have := mem_committedStates.1 he
    rw [hst] at this
    cases this
    rfl
  | inProgress => exact hno (by simp [hst])
  | aborted => exact hno (by simp [hst])

theorem publishedCsn_le_restore (generation : Nat) :
    t.publishedCsn ≤ (restore (t.txStatusCheckpoint generation)).publishedCsn :=
  le_max_right _ _

def Completed (t : ConcurrentTxStatus) (S : Nat → Prop) : Prop :=
  ∀ k, S k → k ≤ t.publishedCsn ∨ k ∈ t.completed

def AtGap (t : ConcurrentTxStatus) : Prop := t.publishedCsn + 1 ∉ t.completed

variable {S : Nat → Prop}

theorem Completed.le_publishedCsn (hC : t.Completed S) (hg : t.AtGap)
    (hall : ∀ k, 1 ≤ k → k ≤ c → S k) :
    c ≤ t.publishedCsn := by
  by_contra hlt
  rcases hC (t.publishedCsn + 1) (hall _ (Nat.le_add_left 1 _) (by omega)) with h | h
  · omega
  · exact hg h

theorem Completed.advanceLoop (n : Nat) (hC : t.Completed S) : (advanceLoop n t).Completed S := by
  induction n generalizing t with
  | zero => exact hC
  | succ n ih =>
    rw [advanceLoop]
    split
    · refine ih ?_
      intro k hk
      by_cases hnext : k = t.publishedCsn + 1
      · exact .inl hnext.le
      · rcases hC k hk with h | h
        · exact .inl (Nat.le_succ_of_le h)
        · exact .inr ((mem_erase_of_ne hnext).2 h)
    · split
      · refine ih ?_
        intro k hk
        exact (hC k hk).imp Nat.le_succ_of_le id
      · exact hC

theorem atGap_advanceLoop {n : Nat} (hn : t.completed.length + t.skipped.length ≤ n) :
    (advanceLoop n t).AtGap := by
  induction n generalizing t with
  | zero =>
    have h0 : t.completed = [] := length_eq_zero_iff.1 (by omega)
    simp [advanceLoop, AtGap, h0]
  | succ n ih =>
    rw [advanceLoop]
    split
    · next hm =>
      refine ih ?_
      have := length_erase_of_mem hm
      have := length_pos_of_mem hm
      dsimp only
      omega
    · next hno =>
      split
      · next hm =>
        refine ih ?_
        have := length_erase_of_mem hm
        have := length_pos_of_mem hm
        dsimp only
        omega
      · exact hno

theorem Completed.publishRecoveredCommit (hC : t.Completed S) (tx csn : Nat) :
    (t.publishRecoveredCommit tx csn).Completed fun k => k = csn ∨ S k := by
  refine Completed.advanceLoop _ ?_
  intro k hk
  rcases hk with rfl | hk
  · exact .inr (mem_insert_iff.2 (.inl rfl))
  · exact (hC k hk).imp id fun h => mem_insert_iff.2 (.inr h)

theorem atGap_publishRecoveredCommit (tx csn : Nat) : (t.publishRecoveredCommit tx csn).AtGap :=
  atGap_advanceLoop le_rfl

theorem Completed.recovered (hC : t.Completed S) :
    (es.foldl (fun t e => t.publishRecoveredCommit e.1 e.2) t).Completed fun k => S k ∨
    ∃ e ∈ es, e.2 = k := by
  induction es generalizing t S with
  | nil => exact fun k hk => hC k (hk.resolve_right (by simp))
  | cons e es ih =>
    intro k hk
    refine ih (hC.publishRecoveredCommit e.1 e.2) k ?_
    rcases hk with hk | ⟨e', he', rfl⟩
    · exact .inl (.inr hk)
    · rcases mem_cons.1 he' with rfl | he'
      · exact .inl (.inl rfl)
      · exact .inr ⟨e', he', rfl⟩

theorem atGap_recovered (h : es ≠ [] ∨ t.AtGap) :
    (es.foldl (fun t e => t.publishRecoveredCommit e.1 e.2) t).AtGap := by
  induction es generalizing t with
  | nil => exact h.resolve_left fun hne => hne rfl
  | cons e es ih => exact ih (.inr (atGap_publishRecoveredCommit e.1 e.2))

structure Below (t : ConcurrentTxStatus) (B : Nat) : Prop where
  published : t.publishedCsn ≤ B
  completed : ∀ k ∈ t.completed, k ≤ B
  skipped : t.skipped = []

variable {B : Nat}

theorem Below.advanceLoop (n : Nat) (h : t.Below B) : (advanceLoop n t).Below B := by
  induction n generalizing t with
  | zero => exact h
  | succ n ih =>
    rw [advanceLoop]
    split
    · next hm =>
      exact ih ⟨h.completed _ hm, fun k hk => h.completed k (mem_of_mem_erase hk), h.skipped⟩
    · rw [if_neg (by rw [h.skipped]; exact not_mem_nil)]
      exact h

theorem Below.completeCsn (h : t.Below B) (hc : c ≤ B) : (t.completeCsn c).Below B := by
  refine Below.advanceLoop _ ⟨h.published, ?_, h.skipped⟩
  intro k hk
  rcases mem_insert_iff.1 hk with rfl | hk
  · exact hc
  · exact h.completed k hk

theorem Below.recovered (h : t.Below B) (hes : ∀ e ∈ es, e.2 ≤ B) :
    (es.foldl (fun t e => t.publishRecoveredCommit e.1 e.2) t).Below B := by
  induction es generalizing t with
  | nil => exact h
  | cons e es ih =>
    refine ih ?_ fun e' he' => hes e' (mem_cons_of_mem _ he')
    exact Below.completeCsn ⟨h.published, h.completed, h.skipped⟩ (hes e (mem_cons_self ..))

@[simp] theorem nextCsn_publishRecoveredCommit (tx csn : Nat) :
    (t.publishRecoveredCommit tx csn).nextCsn = advancePast t.nextCsn csn := nextCsn_completeCsn _ _

@[simp] theorem nextTx_publishRecoveredCommit (tx csn : Nat) :
    (t.publishRecoveredCommit tx csn).nextTx = advancePast t.nextTx tx := nextTx_completeCsn _ _

theorem counters_recovered (t : ConcurrentTxStatus) (es : List (Nat × Nat)) (B : Nat) :
    let t' := es.foldl (fun t e => t.publishRecoveredCommit e.1 e.2) t
    (t.nextTx ≤ t'.nextTx ∧ ∀ e ∈ es, e.1 < t'.nextTx) ∧
    (t.nextCsn ≤ t'.nextCsn ∧ ∀ e ∈ es, e.2 < t'.nextCsn) ∧
      ((∀ e ∈ es, e.2 ≤ B) → t.nextCsn ≤ B + 1 → t'.nextCsn ≤ B + 1) := by
  induction es generalizing t with
  | nil => simp
  | cons e es ih =>
    obtain ⟨⟨h1, h2⟩, ⟨h3, h4⟩, h5⟩ := ih (t.publishRecoveredCommit e.1 e.2)
    simp only [nextCsn_publishRecoveredCommit, nextTx_publishRecoveredCommit,
      advancePast] at h1 h3 h5
    refine ⟨⟨by rw [foldl_cons]; omega, ?_⟩, ⟨by rw [foldl_cons]; omega, ?_⟩, ?_⟩
    · intro e' he'
      rw [foldl_cons]
      rcases mem_cons.1 he' with rfl | he'
      · omega
      · exact h2 e' he'
    · intro e' he'
      rw [foldl_cons]
      rcases mem_cons.1 he' with rfl | he'
      · omega
      · exact h4 e' he'
    · intro hB hn
      have := hB e (mem_cons_self ..)
      rw [foldl_cons]
      exact h5 (fun e' he' => hB e' (mem_cons_of_mem _ he')) (by omega)

theorem committed_recovered
    (h : (es.foldl (fun t e => t.publishRecoveredCommit e.1 e.2) t).state x = .committed c) :
    (x, c) ∈ es ∨ t.state x = .committed c := by
  induction es generalizing t with
  | nil => exact .inr h
  | cons e es ih =>
    rcases ih h with he | hst
    · exact .inl (mem_cons_of_mem _ he)
    · rw [state_publishRecoveredCommit] at hst
      split at hst
      · next hx =>
        cases hst
        exact .inl (hx ▸ mem_cons_self ..)
      · exact .inr hst

theorem exists_committed_recovered (h : (∃ e ∈ es, e.1 = x) ∨ ∃ c, t.state x = .committed c) :
    ∃ c, (es.foldl (fun t e => t.publishRecoveredCommit e.1 e.2) t).state x = .committed c := by
  induction es generalizing t with
  | nil => exact h.resolve_left (by simp)
  | cons e es ih =>
    refine ih ?_
    rcases h with ⟨e', he', rfl⟩ | ⟨c, hc⟩
    · rcases mem_cons.1 he' with rfl | he'
      · exact .inr ⟨e'.2, by rw [state_publishRecoveredCommit, if_pos rfl]⟩
      · exact .inl ⟨e', he', rfl⟩
    · right
      rw [state_publishRecoveredCommit]
      split
      · exact ⟨e.2, rfl⟩
      · exact ⟨c, hc⟩

end ConcurrentTxStatus

variable {records : List WalRecord}

/-- The commit records of a transaction only repeat what the checkpoint's table says of it. -/
theorem state_recoverCommits {t : ConcurrentTxStatus} {x : Nat}
    (hc : ∀ r ∈ records, ∀ c, r.commit? = some (x, c) → t.state x = .committed c) :
    (recoverCommits records t).state x = t.state x := by
  have hmem : ∀ e ∈ records.filterMap WalRecord.commit?, e.1 = x → t.state x = .committed e.2 := by
    rintro ⟨y, c⟩ he rfl
    obtain ⟨r, hr, hrc⟩ := mem_filterMap.1 he
    exact hc r hr c hrc
  by_cases hx : ∃ e ∈ records.filterMap WalRecord.commit?, e.1 = x
  · obtain ⟨e, he, h1⟩ := hx
    rw [hmem e he h1]
    refine state_recovered_of_agree (.inr (hmem e he h1)) ?_
    intro e' he' h1'
    have h2 := hmem e' he' h1'
    rw [hmem e he h1] at h2
    exact (TxState.committed.inj h2).symm
  · exact state_recovered_of_not_mem fun e he h1 => hx ⟨e, he, h1⟩

/-- The frontier passes `c` when the log has all CSNs from the table's frontier up to `c`. -/
theorem le_publishedCsn_of_log {t : ConcurrentTxStatus} {c : Nat}
    (hall : ∀ k, t.publishedCsn < k → k ≤ c → ∃ e ∈ records.filterMap WalRecord.commit?, e.2 = k) :
    c ≤ (recoverCommits records t).publishedCsn := by
  by_cases hle : c ≤ t.publishedCsn
  · exact hle.trans publishedCsn_le_recovered
  · obtain ⟨e, he, -⟩ := hall c (Nat.lt_of_not_le hle) le_rfl
    have hC : t.Completed (· ≤ t.publishedCsn) := fun k hk => .inl hk
    refine Completed.le_publishedCsn (t := recoverCommits records t) hC.recovered
      (atGap_recovered (.inl (ne_nil_of_mem he))) ?_
    intro k _ hk
    by_cases hpub : k ≤ t.publishedCsn
    · exact .inl hpub
    · exact .inr (hall k (Nat.lt_of_not_le hpub) hk)

/-- The frontier passes `c` when the checkpoint's table and the log together have all CSNs up to
`c`. The checkpoint's own frontier is put in without looking for completed CSNs after it; a commit
record does. -/
theorem le_publishedCsn_recoverCommits {st : TxStatusCheckpoint} {c : Nat}
    (hall : ∀ k, 1 ≤ k → k ≤ c → (∃ e ∈ st.entries, e.2 = k) ∨
      ∃ e ∈ records.filterMap WalRecord.commit?, e.2 = k) :
    c ≤ (recoverCommits records (.restore st)).publishedCsn := by
  set table := st.entries.foldl (fun t e => t.publishRecoveredCommit e.1 e.2) new with htable
  have hC : table.Completed fun k => False ∨ ∃ e ∈ st.entries, e.2 = k :=
    Completed.recovered (by intro k hk; exact hk.elim)
  have hg : table.AtGap := atGap_recovered (.inr (by simp [AtGap, new]))
  by_cases hrec : records.filterMap WalRecord.commit? = []
  · rw [recoverCommits, hrec]
    refine (hC.le_publishedCsn hg ?_).trans (le_max_left _ _)
    intro k h1 h2
    refine .inr ((hall k h1 h2).resolve_right ?_)
    rw [hrec]
    simp
  · have hR : (restore st).Completed fun k => False ∨ ∃ e ∈ st.entries, e.2 = k := by
      intro k hk
      exact (hC k hk).imp (fun h => h.trans (le_max_left _ _)) id
    refine Completed.le_publishedCsn (t := recoverCommits records (.restore st)) hR.recovered
      (atGap_recovered (.inl hrec)) ?_
    intro k h1 h2
    exact (hall k h1 h2).imp .inr id

end RedlineDb
