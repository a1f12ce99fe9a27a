import Mathlib.Algebra.Order.Ring.Int
import FreechCore.Lib.Mantissa
import FreechCore.Core.Work

/-!
What the compact form of a target keeps of it. The three bytes of mantissa hold 23 bits of the
number, so that reading a compact target back gives the number without its low bytes. Targets that
are read from compact forms compare with it as they compare with the number itself.
-/

namespace FreechCore

open Mantissa

variable {n k : ℕ} {x : ℤ}

lemma two_pow_mul (j : ℕ) : 2 ^ (8 * j) = 256 ^ j := by
  rw [pow_mul]
  rfl

/-! ### The size of a number -/

lemma lt_pow_numBytes (n : ℕ) : n < 256 ^ numBytes n := by
  unfold numBytes
  split_ifs with h
  · rw [h]
    exact Nat.one_pos
  · calc n < 2 ^ (n.log2 + 1) := Nat.lt_log2_self
      _ ≤ 2 ^ (8 * (n.log2 / 8 + 1)) := Nat.pow_le_pow_right (by decide) (by omega)
      _ = 256 ^ (n.log2 / 8 + 1) := two_pow_mul _

lemma pow_le_of_numBytes (h : numBytes n = k + 1) : 256 ^ k ≤ n := by
  unfold numBytes at h
  split_ifs at h with h0
  calc 256 ^ k = 2 ^ (8 * k) := (two_pow_mul k).symm
    _ ≤ 2 ^ n.log2 := Nat.pow_le_pow_right (by decide) (by omega)
    _ ≤ n := Nat.log2_self_le h0

/-! ### Reading a compact form -/

/-- The number that a size and a mantissa stand for. -/
def ofParts (nSize nWord : ℕ) : ℕ :=
  if nSize ≤ 3 then nWord / 2 ^ (8 * (3 - nSize)) else nWord * 2 ^ (8 * (nSize - 3))

lemma setCompact_parts {nSize nWord : ℕ} (h : nWord < 2 ^ 23) :
    setCompact (nWord + nSize * 2 ^ 24) = ofParts nSize nWord := by
  have h1 : (nWord + nSize * 2 ^ 24) / 2 ^ 24 = nSize := by omega
  have h2 : ¬ (nWord + nSize * 2 ^ 24) / 2 ^ 23 % 2 = 1 := by omega
  have h3 : (nWord + nSize * 2 ^ 24) % 2 ^ 23 = nWord := by omega
  unfold setCompact
  simp only [h1, h2, h3, if_false]
  rfl

lemma setCompact_sign {nSize nWord : ℕ} (h : nWord < 2 ^ 23) :
    setCompact (nWord + nSize * 2 ^ 24 + 2 ^ 23) ≤ 0 := by
  have h2 : (nWord + nSize * 2 ^ 24 + 2 ^ 23) / 2 ^ 23 % 2 = 1 := by omega
  unfold setCompact
  simp only [h2, if_true]
  omega

lemma representable_setCompact {c : ℕ} (h : 0 ≤ setCompact c) :
    ∃ v : ℕ, setCompact c = v ∧ Representable 256 (2 ^ 23) v := by
  have hw : c % 2 ^ 23 < 2 ^ 23 := Nat.mod_lt _ (by decide)
  have hrep : Representable 256 (2 ^ 23) (ofParts (c / 2 ^ 24) (c % 2 ^ 23)) := by
    unfold ofParts
    split_ifs
    · exact ⟨_, 0, (Nat.div_le_self _ _).trans_lt hw, (mul_one _).symm⟩
    · exact ⟨_, c / 2 ^ 24 - 3, hw, by rw [two_pow_mul]⟩
  have hc : setCompact c = if c / 2 ^ 23 % 2 = 1 then -(ofParts (c / 2 ^ 24) (c % 2 ^ 23) : ℤ)
      else ofParts (c / 2 ^ 24) (c % 2 ^ 23) := rfl
  split_ifs at hc
  · -- a negative number that is not below zero is zero
    exact ⟨0, by omega, 0, 0, by decide, rfl⟩
  · exact ⟨_, hc, hrep⟩

/-! ### Writing and reading -/

/-- The size and the mantissa that are written. -/
def toParts (n : ℕ) : ℕ × ℕ :=
  let nSize := numBytes n
  let nWord := if nSize ≤ 3 then n * 2 ^ (8 * (3 - nSize)) else n / 2 ^ (8 * (nSize - 3))
  if nWord / 2 ^ 23 % 2 = 1 then (nSize + 1, nWord / 256) else (nSize, nWord)

lemma getCompact_parts (bn : ℤ) : getCompact bn = (toParts bn.natAbs).2 +
    (toParts bn.natAbs).1 * 2 ^ 24 + if bn < 0 then 2 ^ 23 else 0 := by
  unfold getCompact toParts
  dsimp only
  split_ifs <;> rfl

/-- A number of at most three bytes is written in full, but for the last byte of one that takes
all 24 bits. -/
lemma toParts_small (h : numBytes n ≤ 3) : (toParts n).2 < 2 ^ 23 ∧
    ∃ e, Normal 256 (2 ^ 23) e n ∧ ofParts (toParts n).1 (toParts n).2 = cut 256 e n := by
  have hn := lt_pow_numBytes n
  have h0 : n < 2 ^ 23 → Normal 256 (2 ^ 23) 0 n := fun h => ⟨by simpa using h, .inl rfl⟩
  have h1 : 2 ^ 23 ≤ n → n < 2 ^ 24 → Normal 256 (2 ^ 23) 1 n := fun h h' =>
    ⟨by rw [pow_one]; omega, .inr (by rw [pow_one]; omega)⟩
  have exact_of : ∀ s w, w < 2 ^ 23 → n < 2 ^ 23 → ofParts s w = n →
      w < 2 ^ 23 ∧ ∃ e, Normal 256 (2 ^ 23) e n ∧ ofParts s w = cut 256 e n :=
    fun s w hw hlt he => ⟨hw, 0, h0 hlt, he.trans cut_zero.symm⟩
  unfold toParts
  generalize numBytes n = s at h hn
  obtain rfl | rfl | rfl | rfl : s = 0 ∨ s = 1 ∨ s = 2 ∨ s = 3 := by omega
  all_goals
    simp only [Nat.le_refl, Nat.reduceLeDiff, Nat.reduceSub, Nat.reduceMul, Nat.reducePow,
      Nat.reduceAdd, if_true] at hn ⊢
    split_ifs with hbit
  · omega
  · exact exact_of _ _ (by dsimp only; omega) (by omega) (by simp [ofParts])
  · exact exact_of _ _ (by dsimp only; omega) (by omega) (by simp [ofParts]; omega)
  · exact exact_of _ _ (by dsimp only; omega) (by omega) (by simp [ofParts])
  · exact exact_of _ _ (by dsimp only; omega) (by omega) (by simp [ofParts])
  · exact exact_of _ _ (by dsimp only; omega) (by omega) (by simp [ofParts])
  · refine ⟨by dsimp only; omega, 1, h1 (by omega) (by omega), by simp [cut, ofParts]⟩
  · exact exact_of _ _ (by dsimp only; omega) (by omega) (by simp [ofParts])

lemma toParts_eq (h : numBytes n = k + 4) :
    2 ^ 16 ≤ n / 256 ^ (k + 1) ∧ n / 256 ^ (k + 1) < 2 ^ 24 ∧
      toParts n = if n / 256 ^ (k + 1) / 2 ^ 23 % 2 = 1
        then (k + 5, n / 256 ^ (k + 1) / 256) else (k + 4, n / 256 ^ (k + 1)) := by
  have hpos : 0 < 256 ^ (k + 1) := Nat.pow_pos (by decide)
  refine ⟨?_, ?_, ?_⟩
  · rw [Nat.le_div_iff_mul_le hpos]
    calc 2 ^ 16 * 256 ^ (k + 1) = 256 ^ (k + 3) := by rw [pow_succ, pow_add 256 k 3]; ring
      _ ≤ n := pow_le_of_numBytes h
  · rw [Nat.div_lt_iff_lt_mul hpos]
    calc n < 256 ^ (k + 4) := h ▸ lt_pow_numBytes n
      _ = 2 ^ 24 * 256 ^ (k + 1) := by rw [pow_succ 256 k, pow_add 256 k 4]; ring
  · unfold toParts
    rw [h]
    simp only [show ¬ k + 4 ≤ 3 by omega, if_false, show k + 4 - 3 = k + 1 by omega, two_pow_mul]

lemma toParts_large (h : numBytes n = k + 4) : (toParts n).2 < 2 ^ 23 ∧
    ∃ e, Normal 256 (2 ^ 23) e n ∧ ofParts (toParts n).1 (toParts n).2 = cut 256 e n := by
  obtain ⟨hlow, hhigh, hword⟩ := toParts_eq h
  rw [hword]
  split_ifs with hbit
  · -- the top bit is the sign
    have he : n / 256 ^ (k + 1) / 256 = n / 256 ^ (k + 2) := by
      rw [Nat.div_div_eq_div_mul, ← pow_succ]
    refine ⟨by dsimp only; omega, k + 2, ⟨by omega, .inr (by omega)⟩, ?_⟩
    rw [he, cut, ofParts, if_neg (by omega), show k + 5 - 3 = k + 2 by omega, two_pow_mul]
  · refine ⟨by dsimp only; omega, k + 1, ⟨by omega, .inr (by omega)⟩, ?_⟩
    rw [cut, ofParts, if_neg (by omega), show k + 4 - 3 = k + 1 by omega, two_pow_mul]

lemma toParts_spec (n : ℕ) : (toParts n).2 < 2 ^ 23 ∧
    ∃ e, Normal 256 (2 ^ 23) e n ∧ ofParts (toParts n).1 (toParts n).2 = cut 256 e n := by
  rcases le_or_gt (numBytes n) 3 with h | h
  · exact toParts_small h
  · obtain ⟨k, hk⟩ := Nat.exists_eq_add_of_lt h
    exact toParts_large (k := k) (by omega)

lemma setCompact_getCompact_natCast (n : ℕ) :
    ∃ e, Normal 256 (2 ^ 23) e n ∧ setCompact (getCompact n) = cut 256 e n := by
  obtain ⟨hw, e, he, hcut⟩ := toParts_spec n
  refine ⟨e, he, ?_⟩
  rw [getCompact_parts, if_neg (by omega), add_zero, Int.natAbs_natCast, setCompact_parts hw, hcut]

lemma setCompact_getCompact_le (hx : 0 ≤ x) : setCompact (getCompact x) ≤ x := by
  obtain ⟨n, rfl⟩ := Int.eq_ofNat_of_zero_le hx
  obtain ⟨e, -, he⟩ := setCompact_getCompact_natCast n
  rw [he]
  exact_mod_cast cut_le

lemma setCompact_getCompact_nonneg (hx : 0 ≤ x) : 0 ≤ setCompact (getCompact x) := by
  obtain ⟨n, rfl⟩ := Int.eq_ofNat_of_zero_le hx
  obtain ⟨e, -, he⟩ := setCompact_getCompact_natCast n
  rw [he]
  exact Int.natCast_nonneg _

lemma setCompact_getCompact_loss (hx : 0 ≤ x) : 2 ^ 15 * (x - setCompact (getCompact x)) ≤ x := by
  obtain ⟨n, rfl⟩ := Int.eq_ofNat_of_zero_le hx
  obtain ⟨e, he, hcut⟩ := setCompact_getCompact_natCast n
  have hloss : 2 ^ 15 * (n - cut 256 e n) ≤ n := he.loss
  have hle : cut 256 e n ≤ n := cut_le
  rw [hcut, ← Nat.cast_sub hle]
  exact_mod_cast hloss

/-- **A target that was read from a compact form is at most what is read back of a number exactly
if it is at most the number.** -/
theorem le_setCompact_getCompact_iff {c : ℕ} (hc : 0 < setCompact c) :
    setCompact c ≤ setCompact (getCompact x) ↔ setCompact c ≤ x := by
  obtain ⟨v, hv, hrep⟩ := representable_setCompact hc.le
  rcases lt_or_ge x 0 with hx | hx
  · -- the sign is kept
    have hneg : setCompact (getCompact x) ≤ 0 := by
      rw [getCompact_parts, if_pos hx]
      exact setCompact_sign (toParts_spec _).1
    constructor <;> intro h <;> omega
  · obtain ⟨n, rfl⟩ := Int.eq_ofNat_of_zero_le hx
    obtain ⟨e, he, hcut⟩ := setCompact_getCompact_natCast n
    rw [hv, hcut, Nat.cast_le, Nat.cast_le]
    exact he.le_cut_iff hrep

/-! ### Rounding -/

lemma toParts_mantissa (hn : 0 < n) :
    2 ^ 15 ≤ (toParts n).2 ∧ 256 ^ (3 - (toParts n).1) ∣ (toParts n).2 := by
  rcases le_or_gt (numBytes n) 3 with h | h
  · have hhigh := lt_pow_numBytes n
    obtain ⟨k, hk⟩ : ∃ k, numBytes n = k + 1 := by
      refine Nat.exists_eq_succ_of_ne_zero fun h0 => ?_
      rw [h0, pow_zero] at hhigh
      omega
    have hlow := pow_le_of_numBytes hk
    unfold toParts
    rw [hk] at h hhigh ⊢
    obtain rfl | rfl | rfl : k = 0 ∨ k = 1 ∨ k = 2 := by omega
    all_goals
      simp only [Nat.reduceLeDiff, Nat.reduceSub, Nat.reduceMul, Nat.reducePow, Nat.reduceAdd,
        if_true, Nat.le_refl] at hlow hhigh ⊢
      split_ifs with hbit
      all_goals
        simp only [Nat.reduceSub, Nat.reducePow]
        omega
  · obtain ⟨k, hk⟩ : ∃ k, numBytes n = k + 4 := ⟨numBytes n - 4, by omega⟩
    obtain ⟨hlow, hhigh, hword⟩ := toParts_eq hk
    rw [hword]
    split_ifs with hbit
    · refine ⟨by dsimp only; omega, ?_⟩
      rw [show 3 - (k + 5) = 0 by omega, pow_zero]
      exact one_dvd _
    · refine ⟨by dsimp only; omega, ?_⟩
      rw [show 3 - (k + 4) = 0 by omega, pow_zero]
      exact one_dvd _

lemma ofParts_mul {s w : ℕ} (h : 256 ^ (3 - s) ∣ w) : ofParts s w * 256 ^ 3 = w * 256 ^ s := by
  unfold ofParts
  rw [two_pow_mul, two_pow_mul]
  split_ifs with hs
  · obtain ⟨v, rfl⟩ := h
    rw [Nat.mul_div_cancel_left _ (Nat.pow_pos (by decide)), mul_right_comm, ← pow_add,
      Nat.sub_add_cancel hs, mul_comm]
  · rw [mul_assoc, ← pow_add, Nat.sub_add_cancel (by omega)]

lemma toParts_inj {m : ℕ} (hn : 0 < n) (hm : 0 < m)
    (h : ofParts (toParts n).1 (toParts n).2 = ofParts (toParts m).1 (toParts m).2) :
    toParts n = toParts m := by
  obtain ⟨hlow, hdvd⟩ := toParts_mantissa hn
  obtain ⟨hlow', hdvd'⟩ := toParts_mantissa hm
  have heq : (toParts n).2 * 256 ^ (toParts n).1 = (toParts m).2 * 256 ^ (toParts m).1 := by
    rw [← ofParts_mul hdvd, ← ofParts_mul hdvd', h]
  obtain ⟨hs, hw⟩ := unique_of_mantissa (L := 2 ^ 15) (by decide) ⟨hlow, (toParts_spec n).1⟩
    ⟨hlow', (toParts_spec m).1⟩ heq
  exact Prod.ext hs hw

lemma getCompact_setCompact_getCompact (n : ℕ) :
    getCompact (setCompact (getCompact n)) = getCompact n := by
  obtain ⟨e, he, hcut⟩ := setCompact_getCompact_natCast n
  obtain ⟨e', he', hcut'⟩ := setCompact_getCompact_natCast (cut 256 e n)
  have hsame : cut 256 e' (cut 256 e n) = cut 256 e n :=
    le_antisymm cut_le ((he'.le_cut_iff he.representable).mpr le_rfl)
  rw [hcut]
  rcases Nat.eq_zero_or_pos n with rfl | hn
  · rw [cut, Nat.zero_div, zero_mul]
  · have hpos : 0 < cut 256 e n := by
      have hone : Representable 256 (2 ^ 23) 1 := ⟨1, 0, by decide, rfl⟩
      exact (he.le_cut_iff hone).mpr hn
    have hread : ∀ k : ℕ, setCompact (getCompact k) = ofParts (toParts k).1 (toParts k).2 := by
      intro k
      rw [getCompact_parts, if_neg (by omega), add_zero, Int.natAbs_natCast,
        setCompact_parts (toParts_spec k).1]
    have hparts : toParts (cut 256 e n) = toParts n := by
      refine toParts_inj hpos hn ?_
      rw [← Nat.cast_inj (R := ℤ), ← hread, ← hread, hcut', hcut, hsame]
    rw [getCompact_parts, getCompact_parts, if_neg (by omega), if_neg (by omega),
      Int.natAbs_natCast, Int.natAbs_natCast, hparts]

lemma getCompact_lt (hn : n < 2 ^ 2032) : getCompact n < 2 ^ 32 := by
  have hsize : numBytes n ≤ 254 := by
    by_contra hlong
    obtain ⟨k, hk⟩ : ∃ k, numBytes n = k + 255 := ⟨numBytes n - 255, by omega⟩
    have hlow := pow_le_of_numBytes hk
    have hpow : 256 ^ 254 ≤ 256 ^ (k + 254) := Nat.pow_le_pow_right (by decide) (by omega)
    omega
  have hfirst : (toParts n).1 ≤ numBytes n + 1 := by
    unfold toParts
    dsimp only
    split_ifs <;> dsimp only <;> omega
  have hsecond := (toParts_spec n).1
  rw [getCompact_parts, if_neg (by omega), Int.natAbs_natCast]
  omega

/-- **Compact targets are a monotone rounding.** What is read back of a number of at most 254 bytes
is not above it and misses at most one part in `2 ^ 15`; rounding twice changes nothing more, and
the order of numbers is kept. -/
theorem setCompact_getCompact_rounds {n m : ℤ} (hn : 0 ≤ n) (hn' : n < 2 ^ 2032) (hm : 0 ≤ m)
    (hm' : m < 2 ^ 2032) :
    getCompact n < 2 ^ 32 ∧ getCompact m < 2 ^ 32 ∧
      setCompact (getCompact n) ≤ n ∧
      2 ^ 15 * (n - setCompact (getCompact n)) ≤ n ∧
      getCompact (setCompact (getCompact n)) = getCompact n ∧
      (n ≤ m → setCompact (getCompact n) ≤ setCompact (getCompact m)) := by
  obtain ⟨n, rfl⟩ := Int.eq_ofNat_of_zero_le hn
  obtain ⟨m, rfl⟩ := Int.eq_ofNat_of_zero_le hm
  obtain ⟨e, he, hcut⟩ := setCompact_getCompact_natCast n
  obtain ⟨e', he', hcut'⟩ := setCompact_getCompact_natCast m
  refine ⟨getCompact_lt (by exact_mod_cast hn'), getCompact_lt (by exact_mod_cast hm'),
    setCompact_getCompact_le hn, setCompact_getCompact_loss hn, getCompact_setCompact_getCompact n,
    fun hle => ?_⟩
  rw [hcut, hcut']
  exact_mod_cast he.cut_le_cut he' (by exact_mod_cast hle)

/-- Two numbers of four bytes, the first with its top bit set. -/
theorem setCompact_getCompact_rounds_fourBytes : setCompact (getCompact 0xc0de1234) = 0xc0de0000 ∧
      getCompact (setCompact (getCompact 0xc0de1234)) = 0x0500c0de ∧
      setCompact (getCompact 0xc0de1234) ≤ setCompact (getCompact 0xc0df0000) := by
  have hpow : (2 : ℤ) ^ 32 ≤ 2 ^ 2032 := pow_le_pow_right₀ (by decide) (by decide)
  have h := setCompact_getCompact_rounds (n := 0xc0de1234) (m := 0xc0df0000) (by decide)
    (lt_of_lt_of_le (by decide) hpow) (by decide) (lt_of_lt_of_le (by decide) hpow)
  have hcompact : getCompact 0xc0de1234 = 0x0500c0de := by decide +kernel
  refine ⟨by decide +kernel, ?_, h.2.2.2.2.2 (by decide)⟩
  rw [h.2.2.2.2.1, hcompact]

end FreechCore
