import Mathlib.Data.Finset.Card

/-!
Quorums. A candidate is carried once more than `q` voters are for it. Two carried candidates
have a voter in common, as long as there are fewer voters than it takes for two quorums.
-/

namespace FreechCore.Quorum

variable {υ γ : Type*} {q : ℕ} {votes : υ → γ → Prop} {c c' : γ}

/-- More than `q` voters are for the candidate. -/
def Carried (q : ℕ) (votes : υ → γ → Prop) (c : γ) : Prop :=
  ∃ A : Finset υ, q < A.card ∧ ∀ u ∈ A, votes u c

lemma Carried.exists_common [DecidableEq υ] (hc : Carried q votes c) (hc' : Carried q votes c')
    {U : Finset υ} (hU : ∀ u, votes u c ∨ votes u c' → u ∈ U) (hcard : U.card < 2 * (q + 1)) :
    ∃ u, votes u c ∧ votes u c' := by
  obtain ⟨A, hA, hAc⟩ := hc
  obtain ⟨B, hB, hBc⟩ := hc'
  obtain ⟨u, hu⟩ : (A ∩ B).Nonempty := by
    refine Finset.inter_nonempty_of_card_lt_card_add_card (s := U) (fun u hu => ?_)
      (fun u hu => ?_) (by omega)
    · exact hU u (Or.inl (hAc u hu))
    · exact hU u (Or.inr (hBc u hu))
  rw [Finset.mem_inter] at hu
  exact ⟨u, hAc u hu.1, hBc u hu.2⟩

end FreechCore.Quorum
