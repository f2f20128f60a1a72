import Mathlib.Data.List.Basic

/-!
# Histories of versions and the chains that stand for them

The history of an object is the list of versions written to it, newest first; each names its writer
and holds a value, or nothing when it deletes the object. A reader sees the writes of some writers
and gets the newest version it sees. A multi-version store keeps a shorter list, the chain. `Tracks`
says which chains stand for a history: versions of aborted writers may be missing, and a chain may
stop below a version of writer `u` when what is missing is invisible anyway: versions of `u` itself
or of aborted writers, down to a deletion that every reader sees.
-/

namespace Lib
variable {τ α : Type}

structure Version (τ α : Type) where
  tx : τ
  value : Option α
deriving DecidableEq

def newest (sees : τ → Bool) : List (Version τ α) → Option α
  | [] => none
  | v :: vs => if sees v.tx then v.value else newest sees vs

/-- Dropping `vs` below a version of writer `u` hides nothing. -/
def Settled (aborted seen : τ → Prop) (u : τ) (vs : List (Version τ α)) : Prop :=
  ∃ a b, vs = a ++ b ∧ (∀ w ∈ a, w.tx = u ∨ aborted w.tx) ∧
    ∀ w b', b = w :: b' → w.value = none ∧ seen w.tx

/-- `Tracks aborted seen vs l`: the chain `l` stands for the history `vs`. -/
inductive Tracks (aborted seen : τ → Prop) : List (Version τ α) → List (Version τ α) → Prop
  | nil : Tracks aborted seen [] []
  | keep {v : Version τ α} {vs l : List (Version τ α)} :
      Tracks aborted seen vs l → Tracks aborted seen (v :: vs) (v :: l)
  | drop {v : Version τ α} {vs l : List (Version τ α)} :
      aborted v.tx → Tracks aborted seen vs l → Tracks aborted seen (v :: vs) l
  | cut {v : Version τ α} {vs : List (Version τ α)} :
      Settled aborted seen v.tx vs → Tracks aborted seen (v :: vs) [v]

variable {aborted seen aborted' seen' : τ → Prop} {sees : τ → Bool} {u : τ} {v c : Version τ α}
  {vs l a b : List (Version τ α)}

theorem newest_append_of_unseen (ha : ∀ w ∈ a, sees w.tx = false) :
    newest sees (a ++ b) = newest sees b := by
  induction a with
  | nil => rfl
  | cons w a ih =>
    have hw := ha w (by simp)
    simp only [List.cons_append, newest, hw]
    exact ih fun x hx => ha x (by simp [hx])

theorem newest_congr {sees' : τ → Bool} (h : ∀ v ∈ vs, sees v.tx = sees' v.tx) :
    newest sees vs = newest sees' vs := by
  induction vs with
  | nil => rfl
  | cons v vs ih => simp only [newest, h v (by simp), ih fun w hw => h w (by simp [hw])]

/-- Below a version that the reader does not see, a settled rest reads as nothing. -/
theorem Settled.newest_eq_none (hs : Settled aborted seen u vs)
    (ha : ∀ x, aborted x → sees x = false)
    (hseen : ∀ x, seen x → sees x = true) (hu : sees u = false) : newest sees vs = none := by
  obtain ⟨a, b, rfl, h1, h2⟩ := hs
  rw [newest_append_of_unseen]
  · cases b with
    | nil => rfl
    | cons w b' =>
      obtain ⟨h3, h4⟩ := h2 w b' rfl
      simp [newest, hseen _ h4, h3]
  · intro w hw
    rcases h1 w hw with h | h
    · rw [h]; exact hu
    · exact ha _ h

/-- A reader gets the same from the chain as from the history. -/
theorem Tracks.newest_eq (ht : Tracks aborted seen vs l) (ha : ∀ x, aborted x → sees x = false)
    (hseen : ∀ x, seen x → sees x = true) : newest sees l = newest sees vs := by
  induction ht with
  | nil => rfl
  | keep _ ih => simp only [newest, ih]
  | drop h _ ih => simp only [newest, ha _ h, ih]; rfl
  | @cut v vs hs =>
    simp only [newest]
    split
    · rfl
    · next h => rw [hs.newest_eq_none ha hseen (by simpa using h)]

theorem Settled.mono (hs : Settled aborted seen u vs) (ha : ∀ w ∈ vs, aborted w.tx → aborted' w.tx)
    (hseen : ∀ w ∈ vs, seen w.tx → seen' w.tx) : Settled aborted' seen' u vs := by
  obtain ⟨a, b, rfl, h1, h2⟩ := hs
  refine ⟨a, b, rfl, fun w hw => ?_, fun w b' hb => ?_⟩
  · exact (h1 w hw).imp id (ha w (by simp [hw]))
  · obtain ⟨h3, h4⟩ := h2 w b' hb
    exact ⟨h3, hseen w (by simp [hb]) h4⟩

theorem Tracks.mono (ht : Tracks aborted seen vs l) (ha : ∀ w ∈ vs, aborted w.tx → aborted' w.tx)
    (hseen : ∀ w ∈ vs, seen w.tx → seen' w.tx) : Tracks aborted' seen' vs l := by
  induction ht with
  | nil => exact .nil
  | keep _ ih =>
    exact .keep (ih (fun w hw => ha w (by simp [hw])) fun w hw => hseen w (by simp [hw]))
  | drop h _ ih =>
    exact .drop (ha _ (by simp) h)
      (ih (fun w hw => ha w (by simp [hw])) fun w hw => hseen w (by simp [hw]))
  | cut hs => exact .cut (hs.mono (fun w hw => ha w (by simp [hw])) fun w hw => hseen w (by
      simp [hw]))

theorem Tracks.drop_aborted (ht : Tracks aborted seen vs (a ++ c :: b))
    (ha : ∀ w ∈ a, aborted w.tx) :
    Tracks aborted seen vs (c :: b) := by
  generalize hl : a ++ c :: b = l at ht
  induction ht generalizing a with
  | nil => simp at hl
  | @keep v vs l ht ih =>
    cases a with
    | nil =>
      simp only [List.nil_append] at hl
      rw [hl]
      exact .keep ht
    | cons x a =>
      simp only [List.cons_append, List.cons.injEq] at hl
      obtain ⟨rfl, hl⟩ := hl
      exact .drop (ha x (by simp)) (ih (fun w hw => ha w (by simp [hw])) hl)
  | drop h _ ih => exact .drop h (ih ha hl)
  | @cut v vs hs =>
    cases a with
    | nil =>
      simp only [List.nil_append] at hl
      rw [hl]
      exact .cut hs
    | cons x a => simp at hl

theorem Tracks.settled (ht : Tracks aborted seen vs l) (hl : Settled aborted seen u l) :
    Settled aborted seen u vs := by
  induction ht with
  | nil => exact hl
  | @keep v vs l _ ih =>
    obtain ⟨a, b, hab, h1, h2⟩ := hl
    cases a with
    | nil =>
      simp only [List.nil_append] at hab
      subst hab
      refine ⟨[], v :: vs, rfl, by simp, ?_⟩
      rintro w b' ⟨⟩
      exact h2 v l rfl
    | cons x a =>
      simp only [List.cons_append, List.cons.injEq] at hab
      obtain ⟨rfl, rfl⟩ := hab
      obtain ⟨a', b', rfl, h3, h4⟩ := ih ⟨a, b, rfl, fun w hw => h1 w (by simp [hw]), h2⟩
      refine ⟨v :: a', b', rfl, ?_, h4⟩
      intro w hw
      rcases List.mem_cons.1 hw with rfl | hw
      · exact h1 w (by simp)
      · exact h3 w hw
  | @drop v vs l h _ ih =>
    obtain ⟨a, b, rfl, h1, h2⟩ := ih hl
    refine ⟨v :: a, b, rfl, ?_, h2⟩
    intro w hw
    rcases List.mem_cons.1 hw with rfl | hw
    · exact .inr h
    · exact h1 w hw
  | @cut v vs hs =>
    obtain ⟨a, b, hab, h1, h2⟩ := hl
    cases a with
    | nil =>
      simp only [List.nil_append] at hab
      subst hab
      refine ⟨[], v :: vs, rfl, by simp, ?_⟩
      rintro w b' ⟨⟩
      exact h2 v [] rfl
    | cons x a =>
      -- the version itself is `u`'s or aborted, so what it was settled for is settled for `u`
      simp only [List.cons_append, List.cons.injEq] at hab
      obtain ⟨rfl, hab⟩ := hab
      obtain ⟨a', b', rfl, h3, h4⟩ := hs
      refine ⟨v :: a', b', rfl, ?_, h4⟩
      have hv := h1 v (by simp)
      intro w hw
      rcases List.mem_cons.1 hw with rfl | hw
      · exact hv
      · rcases h3 w hw with h | h
        · rw [h]; exact hv
        · exact .inr h

end Lib
