import Mathlib.Data.List.GetD

/-!
Places in a sorted list.
-/

namespace FreechCore.Sorted

variable {α : Type*}

lemma getD_iff_lt_countP {le : α → α → Prop} {p : α → Bool} {d : α} {l : List α}
    (hl : l.Pairwise le) (hp : ∀ x y, le x y → p y = true → p x = true) {i : ℕ}
    (hi : i < l.length) : p (l.getD i d) = true ↔ i < l.countP p := by
  induction l generalizing i with
  | nil => simp at hi
  | cons a l ih =>
    obtain ⟨ha, hl⟩ := List.pairwise_cons.mp hl
    by_cases hpa : p a = true
    · cases i with
      | zero => simp [hpa]
      | succ i =>
        rw [List.getD_cons_succ, ih hl (by simpa using hi), List.countP_cons_of_pos hpa]
        omega
    · -- it fails for everything behind an element for which it fails
      have hno : ∀ x ∈ a :: l, ¬ p x = true := by
        intro x hx hpx
        rcases List.mem_cons.mp hx with rfl | hx
        · exact hpa hpx
        · exact hpa (hp a x (ha x hx) hpx)
      rw [List.countP_eq_zero.mpr hno, List.getD_eq_getElem _ _ hi]
      exact iff_of_false (hno _ (List.getElem_mem hi)) (by omega)

end FreechCore.Sorted
