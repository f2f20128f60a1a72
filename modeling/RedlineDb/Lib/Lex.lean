import Mathlib.Data.List.Sort
import Mathlib.Data.List.Lex
import Mathlib.Data.Set.Basic

/-!
# Lexicographic order and prefix-free codes

Byte strings are ordered lexicographically. A set of strings is prefix-free when none of them begins
another one. Strings of such a set keep their order when suffixes are appended to them, which is
what lets an index append a row reference to a key.
-/

namespace Lib

instance linearOrderUInt8 : LinearOrder UInt8 where
  le_refl := UInt8.le_refl
  le_trans _ _ _ := UInt8.le_trans
  le_antisymm _ _ := UInt8.le_antisymm
  le_total := UInt8.le_total
  lt_iff_le_not_ge a b := by
    simp only [UInt8.le_iff_toNat_le, UInt8.lt_iff_toNat_lt]
    omega
  toDecidableLE := inferInstance
  toDecidableEq := inferInstance
  toDecidableLT := inferInstance

section Order
variable {α : Type} [LinearOrder α] {l l' s s' : List α}

theorem nil_le (l : List α) : [] ≤ l := not_lt.1 (List.not_lt_nil l)

theorem lt_append_of_ne_nil (h : s ≠ []) : l < l ++ s := by
  obtain ⟨a, s, rfl⟩ := List.exists_cons_of_ne_nil h
  have hlt : l ++ [] < l ++ a :: s := List.append_left_lt (List.nil_lt_cons a s)
  rwa [List.append_nil] at hlt

theorem append_lt_append_of_not_isPrefix (h : l < l') (hl : ¬ l <+: l') : l ++ s < l' ++ s' := by
  induction l generalizing l' with
  | nil => exact absurd (List.nil_prefix) hl
  | cons a l ih =>
    cases l' with
    | nil => exact absurd h (List.not_lt_nil _)
    | cons b l' =>
      rw [List.cons_append, List.cons_append, List.cons_lt_cons_iff]
      rcases List.cons_lt_cons_iff.1 h with hab | ⟨rfl, hll⟩
      · exact .inl hab
      · exact .inr ⟨rfl, ih hll fun hp => hl ((List.prefix_cons_inj a).2 hp)⟩

end Order

def PrefixFree {α : Type} (K : Set (List α)) : Prop := ∀ l ∈ K, ∀ l' ∈ K, l <+: l' → l = l'

namespace PrefixFree
variable {α : Type} [LinearOrder α] {K : Set (List α)} {l l' : List α}

theorem append_lt_append (hK : PrefixFree K) (hl : l ∈ K) (hl' : l' ∈ K) (h : l < l')
    (s s' : List α) :
    l ++ s < l' ++ s' :=
  append_lt_append_of_not_isPrefix h fun hp => h.ne (hK l hl l' hl' hp)

theorem append_lt_of_lt (hK : PrefixFree K) (hl : l ∈ K) (hl' : l' ∈ K) (h : l < l') (s : List α) :
    l ++ s < l' := by
  simpa using hK.append_lt_append hl hl' h s []

theorem le_of_append_le_append (hK : PrefixFree K) (hl : l ∈ K) (hl' : l' ∈ K) {s s' : List α}
    (h : l ++ s ≤ l' ++ s') : l ≤ l' := by
  by_contra hlt
  exact absurd h (not_le.2 (hK.append_lt_append hl' hl (not_le.1 hlt) s' s))

theorem le_of_le_append (hK : PrefixFree K) (hl : l ∈ K) (hl' : l' ∈ K) {s : List α}
    (h : l ≤ l' ++ s) : l ≤ l' :=
  hK.le_of_append_le_append hl hl' (s := []) (by simpa using h)

end PrefixFree

section Codes
variable {α β : Type} {f : β → List α}

/-- A code whose words can be cut off the front of any string. -/
def SelfDelimiting (f : β → List α) : Prop := ∀ a b s t, f a ++ s = f b ++ t → f a = f b

theorem SelfDelimiting.tail (hf : SelfDelimiting f) {a b : β} {s t : List α}
    (h : f a ++ s = f b ++ t) : s = t := by
  rw [hf a b s t h] at h
  exact List.append_cancel_left h

theorem SelfDelimiting.prefixFree_range (hf : SelfDelimiting f) : PrefixFree (Set.range f) := by
  rintro _ ⟨a, rfl⟩ _ ⟨b, rfl⟩ ⟨s, hs⟩
  exact hf a b s [] (by rw [hs, List.append_nil])

theorem SelfDelimiting.append_const (hf : SelfDelimiting f) (c : List α) :
    SelfDelimiting fun b => f b ++ c := by
  intro a b s t h
  rw [List.append_assoc, List.append_assoc] at h
  exact congrArg (· ++ c) (hf a b _ _ h)

theorem SelfDelimiting.map {γ : Type} (hf : SelfDelimiting f) {m : α → γ}
    (hm : Function.Injective m) :
    SelfDelimiting fun b => (f b).map m := by
  intro a b s t h
  -- the longer of the two words begins with the other, and so does its preimage
  rcases List.append_eq_append_iff.1 h with ⟨u, hu, -⟩ | ⟨u, hu, -⟩
  · obtain ⟨x, y, hxy, hx, -⟩ := List.map_eq_append_iff.1 hu
    have hab := hf a b y [] (by rw [List.append_nil, hxy, (List.map_injective_iff.2 hm) hx])
    exact congrArg (List.map m) hab
  · obtain ⟨x, y, hxy, hx, -⟩ := List.map_eq_append_iff.1 hu
    have hab := hf a b [] y (by rw [List.append_nil, hxy, (List.map_injective_iff.2 hm) hx])
    exact congrArg (List.map m) hab

end Codes
end Lib
