import Mathlib.Data.List.MinMax

/-!
The first element of a list with the greatest key, `List.argmax`, by what comes before it and
after it.
-/

namespace FreechCore.FirstMax

open List

variable {α β : Type*} [LinearOrder β] {f : α → β} {l : List α} {x : α}

lemma argmax_split {l₁ l₂ : List α} (h₁ : ∀ y ∈ l₁, f y < f x) (h₂ : ∀ y ∈ l₂, f y ≤ f x) :
    (l₁ ++ x :: l₂).argmax f = some x := by
  induction l₂ using List.reverseRecOn with
  | nil =>
    rw [argmax_concat]
    cases hc : l₁.argmax f with
    | none => rfl
    | some c => exact if_pos (h₁ c (argmax_mem hc))
  | append_singleton l₂ a ih =>
    have hl : l₁ ++ x :: (l₂ ++ [a]) = (l₁ ++ x :: l₂) ++ [a] := by simp
    rw [hl, argmax_concat, ih fun y hy => h₂ y (by simp [hy])]
    exact if_neg (not_lt.mpr (h₂ a (by simp)))

lemma exists_split (h : l.argmax f = some x) :
    ∃ l₁ l₂, l = l₁ ++ x :: l₂ ∧ (∀ y ∈ l₁, f y < f x) ∧ ∀ y ∈ l₂, f y ≤ f x := by
  induction l using List.reverseRecOn generalizing x with
  | nil => cases h
  | append_singleton l a ih =>
    rw [argmax_concat] at h
    cases hb : l.argmax f with
    | none =>
      obtain rfl := argmax_eq_none.mp hb
      simp only [hb, Option.some.injEq] at h
      exact ⟨[], [], by simp [h]⟩
    | some b =>
      obtain ⟨l₁, l₂, rfl, h₁, h₂⟩ := ih hb
      simp only [hb] at h
      split_ifs at h with hab <;> obtain rfl := Option.some.inj h
      · refine ⟨_, [], rfl, fun y hy => lt_of_le_of_lt ?_ hab, by simp⟩
        exact not_lt.mp (not_lt_of_mem_argmax hy hb)
      · exact ⟨l₁, l₂ ++ [a], by simp, h₁,
          forall_mem_append.mpr ⟨h₂, forall_mem_singleton.mpr (not_lt.mp hab)⟩⟩

/-- A property of the first greatest element: every element without it is beaten, by an earlier one
that is not smaller or by a later one that is greater. -/
lemma forall_argmax_iff {P : α → Prop} : (∀ x ∈ l.argmax f, P x) ↔
    ∀ l₁ x l₂, l = l₁ ++ x :: l₂ → ¬ P x → (∃ y ∈ l₁, f x ≤ f y) ∨ ∃ y ∈ l₂, f x < f y := by
  constructor
  · intro h l₁ x l₂ hl hP
    by_contra hno
    push Not at hno
    exact hP (h x (hl ▸ argmax_split hno.1 hno.2))
  · intro h x hx
    obtain ⟨l₁, l₂, hl, h₁, h₂⟩ := exists_split hx
    by_contra hP
    rcases h l₁ x l₂ hl hP with ⟨y, hy, hle⟩ | ⟨y, hy, hlt⟩
    · exact absurd (h₁ y hy) (not_lt.mpr hle)
    · exact absurd (h₂ y hy) (not_le.mpr hlt)

end FreechCore.FirstMax
