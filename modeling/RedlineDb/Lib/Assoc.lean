import Mathlib.Data.List.AList

/-!
# Association lists

Looking a key up after an insertion or an erasure, as one conditional.
-/

namespace Lib
variable {α β : Type} [DecidableEq α] {m : AList (fun _ : α => β)} {k k' : α} {v : β}

theorem lookup_insert : (m.insert k v).lookup k' = if k' = k then some v else m.lookup k' := by
  split
  · next h => subst h; simp
  · next h => exact AList.lookup_insert_ne h

theorem lookup_erase : (m.erase k).lookup k' = if k' = k then none else m.lookup k' := by
  split
  · next h => subst h; simp
  · next h => exact AList.lookup_erase_ne h

theorem lookup_insert_eq_some {v' : β} :
    (m.insert k v).lookup k' = some v' ↔ (k' = k ∧ v' = v) ∨ (k' ≠ k ∧ m.lookup k' = some v') := by
  rw [lookup_insert]
  split
  · next h => simp [h, eq_comm]
  · next h => simp [h]

theorem lookup_erase_eq_some : (m.erase k).lookup k' = some v ↔ k' ≠ k ∧ m.lookup k' = some v := by
  rw [lookup_erase]
  split
  · next h => simp [h]
  · next h => simp [h]

theorem forall_entries_iff {p : α → β → Prop} :
    (∀ e ∈ m.entries, p e.1 e.2) ↔ ∀ k v, m.lookup k = some v → p k v :=
  ⟨fun h k v hk => h ⟨k, v⟩ (AList.mem_lookup_iff.1 hk),
    fun h e he => h e.1 e.2 (AList.mem_lookup_iff.2 he)⟩

end Lib
