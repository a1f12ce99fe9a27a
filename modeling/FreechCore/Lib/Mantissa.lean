import Mathlib.Tactic.Ring

/-!
Numbers that are written as a mantissa below a bound and an exponent of a base. A number is cut
down to such a form by dropping its low digits. If no more digits are dropped than the bound asks
for, the result is the greatest number of that form that is not above it.
-/

namespace Mantissa

/-- The numbers with a mantissa below `M` at base `B`. -/
def Representable (B M v : ℕ) : Prop := ∃ m e, m < M ∧ v = m * B ^ e

def cut (B e n : ℕ) : ℕ := n / B ^ e * B ^ e

/-- Without its lowest `e` digits the number has a mantissa below the bound, and `e` is least. -/
structure Normal (B M e n : ℕ) : Prop where
  fits : n / B ^ e < M
  least : e = 0 ∨ M ≤ n / B ^ e * B

variable {B M e n v : ℕ}

lemma cut_le : cut B e n ≤ n := Nat.div_mul_le_self _ _

lemma cut_zero : cut B 0 n = n := by
  rw [cut, pow_zero, Nat.div_one, mul_one]

lemma Normal.representable (h : Normal B M e n) : Representable B M (cut B e n) :=
  ⟨_, e, h.fits, rfl⟩

/-- **Nothing lies between a number and its cut.** -/
theorem Normal.le_cut_iff (h : Normal B M e n) (hv : Representable B M v) :
    v ≤ cut B e n ↔ v ≤ n := by
  refine ⟨fun hle => hle.trans cut_le, fun hle => ?_⟩
  obtain ⟨m, k, hm, rfl⟩ := hv
  rcases le_or_gt e k with hek | hke
  · -- the number has no lower digits than the cut
    obtain ⟨d, rfl⟩ := Nat.exists_eq_add_of_le hek
    rcases Nat.eq_zero_or_pos (B ^ e) with h0 | hpos
    · rw [pow_add, h0, zero_mul, mul_zero]
      exact Nat.zero_le _
    · have hm' : m * B ^ d ≤ n / B ^ e := by
        rw [Nat.le_div_iff_mul_le hpos]
        calc m * B ^ d * B ^ e = m * B ^ (e + d) := by rw [pow_add]; ring
          _ ≤ n := hle
      calc m * B ^ (e + d) = m * B ^ d * B ^ e := by rw [pow_add]; ring
        _ ≤ cut B e n := Nat.mul_le_mul_right _ hm'
  · -- it has, and is then below the least mantissa at the exponent
    obtain ⟨d, rfl⟩ := Nat.exists_eq_add_of_lt hke
    have hM : M ≤ n / B ^ (k + d + 1) * B := h.least.resolve_left (by omega)
    rcases Nat.eq_zero_or_pos B with rfl | hB
    · omega
    calc m * B ^ k ≤ M * B ^ (k + d) :=
          Nat.mul_le_mul hm.le (Nat.pow_le_pow_right hB (Nat.le_add_right k d))
      _ ≤ n / B ^ (k + d + 1) * B * B ^ (k + d) := Nat.mul_le_mul_right _ hM
      _ = cut B (k + d + 1) n := by rw [cut, pow_succ]; ring

lemma Normal.cut_le_cut {e' n' : ℕ} (h : Normal B M e n) (h' : Normal B M e' n') (hle : n ≤ n') :
    cut B e n ≤ cut B e' n' :=
  (h'.le_cut_iff h.representable).mpr (cut_le.trans hle)

/-- **The loss.** The digits that are dropped are a small part of the number: of a mantissa
below `L * B` at least one part in `L` is kept. -/
theorem Normal.loss {L : ℕ} (h : Normal B (L * B) e n) : L * (n - cut B e n) ≤ n := by
  rcases h.least with rfl | hM
  · rw [cut_zero, Nat.sub_self, mul_zero]
    exact Nat.zero_le _
  · have hB : 0 < B := Nat.pos_of_ne_zero fun h0 => by
      have := h.fits
      rw [h0, mul_zero] at this
      exact Nat.not_lt_zero _ this
    have hL : L ≤ n / B ^ e := Nat.le_of_mul_le_mul_right hM hB
    have hlow : n - cut B e n ≤ B ^ e := by
      have hmod := Nat.mod_lt n (Nat.pow_pos hB : 0 < B ^ e)
      have hdiv := Nat.div_add_mod' n (B ^ e)
      unfold cut
      omega
    calc L * (n - cut B e n) ≤ n / B ^ e * B ^ e := Nat.mul_le_mul hL hlow
      _ ≤ n := Nat.div_mul_le_self _ _

/-- A number has one form only with a mantissa that is not below `L`. -/
theorem unique_of_mantissa {L s s' w w' : ℕ} (hB : 0 < B) (hw : L ≤ w ∧ w < L * B)
    (hw' : L ≤ w' ∧ w' < L * B) (h : w * B ^ s = w' * B ^ s') : s = s' ∧ w = w' := by
  -- of two forms with different exponents the one with the lower exponent is the smaller number
  have hlt : ∀ {a b v u : ℕ}, a < b → v < L * B → L ≤ u → v * B ^ a < u * B ^ b := by
    intro a b v u hab hv hu
    obtain ⟨d, rfl⟩ := Nat.exists_eq_add_of_lt hab
    calc v * B ^ a < L * B * B ^ a := Nat.mul_lt_mul_of_pos_right hv (Nat.pow_pos hB)
      _ ≤ L * B * B ^ (a + d) :=
          Nat.mul_le_mul_left _ (Nat.pow_le_pow_right hB (Nat.le_add_right a d))
      _ = L * B ^ (a + d + 1) := by rw [pow_succ]; ring
      _ ≤ u * B ^ (a + d + 1) := Nat.mul_le_mul_right _ hu
  rcases lt_trichotomy s s' with hs | rfl | hs
  · exact absurd h (hlt hs hw.2 hw'.1).ne
  · exact ⟨rfl, Nat.eq_of_mul_eq_mul_right (Nat.pow_pos hB) h⟩
  · exact absurd h (hlt hs hw'.2 hw.1).ne'

end Mantissa
