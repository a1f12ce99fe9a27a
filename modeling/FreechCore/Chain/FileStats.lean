import Mathlib.Order.Bounds.Basic
import FreechCore.Chain.BlockFiles

/-!
The statistics of a block file. Its blocks are counted in 32 bits, and the lowest height and the
earliest time start anew when the counter is at zero. A height becomes the last one if it is above
the lowest; whether it is above the last one is not asked.
-/

namespace FreechCore

/-- The statistics after the first blocks of a sequence. -/
def addBlocks (height time : ℕ → ℕ) : ℕ → CBlockFileInfo
  | 0 => .null
  | n + 1 => (addBlocks height time n).addBlock (height n) (time n)

/-- The statistics are the least and the greatest of the heights and of the times. -/
structure CBlockFileInfo.Bounds (info : CBlockFileInfo) (heights times : Set ℕ) : Prop where
  heightFirst : IsLeast heights info.nHeightFirst
  heightLast : IsGreatest heights info.nHeightLast
  timeFirst : IsLeast times info.nTimeFirst
  timeLast : IsGreatest times info.nTimeLast

/-- The blocks up to this one since the counter was zero. -/
def sinceZero (n : ℕ) : Set ℕ := {i | i ≤ n ∧ i / 2 ^ 32 = n / 2 ^ 32}

/-- The block is not the lowest one since the counter was zero. -/
def Climbs (height : ℕ → ℕ) (n : ℕ) : Prop := ∃ i ∈ sinceZero n, height i < height n

variable (height time : ℕ → ℕ) {x : ℕ → ℕ} (n : ℕ)

lemma nBlocks_addBlocks : (addBlocks height time n).nBlocks = n % 2 ^ 32 := by
  induction n with
  | zero => rfl
  | succ n ih =>
    change toUnsigned ((addBlocks height time n).nBlocks + 1) = _
    rw [ih, toUnsigned, Nat.mod_add_mod]

lemma isLeast_sinceZero (first : CBlockFileInfo → ℕ)
    (h : ∀ n, first (addBlocks height time (n + 1)) =
      if (addBlocks height time n).nBlocks = 0 ∨ x n < first (addBlocks height time n) then x n
      else first (addBlocks height time n)) :
    IsLeast (x '' sinceZero n) (first (addBlocks height time (n + 1))) := by
  have hzero : ∀ {n}, n % 2 ^ 32 = 0 →
      IsLeast (x '' sinceZero n) (first (addBlocks height time (n + 1))) := by
    intro n hn
    have hset : sinceZero n = {n} := by
      ext i
      simp only [sinceZero, Set.mem_ofPred_eq, Set.mem_singleton_iff]
      omega
    rw [h, if_pos (Or.inl (by rwa [nBlocks_addBlocks])), hset, Set.image_singleton]
    exact isLeast_singleton
  induction n with
  | zero => exact hzero rfl
  | succ n ih =>
    by_cases hn : (n + 1) % 2 ^ 32 = 0
    · exact hzero hn
    · have hset : sinceZero (n + 1) = insert (n + 1) (sinceZero n) := by
        ext i
        simp only [sinceZero, Set.mem_ofPred_eq, Set.mem_insert_iff]
        omega
      simp only [h (n + 1), nBlocks_addBlocks, hn, false_or, hset, Set.image_insert_eq,
        ← min_def_lt]
      exact ih.insert _

lemma isLeast_Iic_iff {n m : ℕ} (h : IsLeast (x '' sinceZero n) m) :
    IsLeast (x '' Set.Iic n) m ↔ ∃ i ∈ sinceZero n, ∀ j ≤ n, x i ≤ x j := by
  obtain ⟨⟨k, hk, rfl⟩, hle⟩ := h
  constructor
  · intro h
    exact ⟨k, hk, fun j hj => h.2 ⟨j, hj, rfl⟩⟩
  · rintro ⟨i, hi, hleast⟩
    refine ⟨⟨k, hk.1, rfl⟩, Set.forall_mem_image.mpr fun j hj => ?_⟩
    exact (hle ⟨i, hi, rfl⟩).trans (hleast j hj)

lemma isGreatest_nTimeLast :
    IsGreatest (time '' Set.Iic n) (addBlocks height time (n + 1)).nTimeLast := by
  have hmax : ∀ n, (addBlocks height time (n + 1)).nTimeLast =
      max (addBlocks height time n).nTimeLast (time n) := fun n => (max_def_lt _ _).symm
  induction n with
  | zero =>
    have hset : Set.Iic 0 = {0} := by ext; simp
    rw [hmax, hset, Set.image_singleton, addBlocks]
    exact max_eq_right (Nat.zero_le _) ▸ isGreatest_singleton
  | succ n ih =>
    have hset : Set.Iic (n + 1) = insert (n + 1) (Set.Iic n) := by ext; simp; omega
    rw [hmax, hset, Set.image_insert_eq, max_comm]
    exact ih.insert _

lemma isLeast_nHeightFirst :
    IsLeast (height '' sinceZero n) (addBlocks height time (n + 1)).nHeightFirst :=
  isLeast_sinceZero height time n CBlockFileInfo.nHeightFirst fun _ => rfl

/-- The last height is that of the last block that climbs. -/
lemma nHeightLast_addBlocks : (∃ i < n, Climbs height i ∧ (∀ k < n, i < k → ¬Climbs height k) ∧
        (addBlocks height time n).nHeightLast = height i) ∨
      (∀ k < n, ¬Climbs height k) ∧ (addBlocks height time n).nHeightLast = 0 := by
  induction n with
  | zero => exact Or.inr ⟨by simp, rfl⟩
  | succ n ih =>
    obtain ⟨⟨j, hj, hfirst⟩, hle⟩ := isLeast_nHeightFirst height time n
    have hlast : (addBlocks height time (n + 1)).nHeightLast =
        if (addBlocks height time (n + 1)).nHeightFirst < height n then height n
        else (addBlocks height time n).nHeightLast := rfl
    simp only [Nat.lt_succ_iff_lt_or_eq]
    by_cases hn : Climbs height n
    · refine Or.inl ⟨n, Or.inr rfl, hn, fun k hk hnk => absurd hnk (by omega), ?_⟩
      obtain ⟨i, hi, hlt⟩ := hn
      rw [hlast, if_pos ((hle ⟨i, hi, rfl⟩).trans_lt hlt)]
    · rw [hlast, if_neg fun h => hn ⟨j, hj, hfirst ▸ h⟩]
      rcases ih with ⟨i, hi, hc, hno, he⟩ | ⟨hno, he⟩
      · exact Or.inl ⟨i, Or.inl hi, hc,
          fun k hk hik => hk.elim (fun hk => hno k hk hik) fun hk => hk ▸ hn, he⟩
      · exact Or.inr ⟨fun k hk => hk.elim (hno k) fun hk => hk ▸ hn, he⟩

/-- **When the statistics are right.** The lowest height and the earliest time have occurred since
the counter was zero; and the last block that climbs is a highest one, or all heights are zero. -/
theorem addBlocks_bounds_iff :
    (addBlocks height time (n + 1)).Bounds (height '' Set.Iic n) (time '' Set.Iic n) ↔
      (∃ i ∈ sinceZero n, ∀ j ≤ n, height i ≤ height j) ∧
        (∃ i ∈ sinceZero n, ∀ j ≤ n, time i ≤ time j) ∧
          ((∀ j ≤ n, height j = 0) ∨ ∃ i ≤ n, Climbs height i ∧
            (∀ k ≤ n, i < k → ¬Climbs height k) ∧ ∀ j ≤ n, height j ≤ height i) := by
  rw [← isLeast_Iic_iff (isLeast_nHeightFirst height time n),
    ← isLeast_Iic_iff (isLeast_sinceZero height time n CBlockFileInfo.nTimeFirst fun _ => rfl)]
  have hlast := nHeightLast_addBlocks height time (n + 1)
  simp only [Nat.lt_succ_iff] at hlast
  constructor
  · rintro ⟨hh, ⟨-, hle⟩, ht, -⟩
    refine ⟨hh, ht, ?_⟩
    rcases hlast with ⟨i, hi, hc, hno, he⟩ | ⟨-, he⟩
    · exact Or.inr ⟨i, hi, hc, hno, fun j hj => he ▸ hle ⟨j, hj, rfl⟩⟩
    · exact Or.inl fun j hj => Nat.le_zero.mp (he ▸ hle ⟨j, hj, rfl⟩)
  · rintro ⟨hh, ht, hcond⟩
    refine ⟨hh, ?_, ht, isGreatest_nTimeLast height time n⟩
    rcases hcond with h0 | ⟨i, hi, hc, hno, hle⟩
    · have he : (addBlocks height time (n + 1)).nHeightLast = 0 := by
        rcases hlast with ⟨i, hi, -, -, he⟩ | ⟨-, he⟩
        · rw [he, h0 i hi]
        · exact he
      rw [he]
      exact ⟨⟨0, n.zero_le, h0 0 n.zero_le⟩, Set.forall_mem_image.mpr fun j hj => (h0 j hj).le⟩
    · rcases hlast with ⟨i', hi', hc', hno', he⟩ | ⟨hno', -⟩
      · have hi₀ : i' = i := le_antisymm (not_lt.mp fun hlt => hno i' hi' hlt hc')
          (not_lt.mp fun hlt => hno' i hi hlt hc)
        rw [he, hi₀]
        exact ⟨⟨i, hi, rfl⟩, Set.forall_mem_image.mpr hle⟩
      · exact absurd hc (hno' i hi)

/-- The last height is between the others. -/
theorem addBlocks_not_bounds : ¬(addBlocks (fun i => [5, 7, 6].getD i 0) id 3).Bounds
    ((fun i => [5, 7, 6].getD i 0) '' Set.Iic 2) (id '' Set.Iic 2) := by
  intro h
  have hle := h.heightLast.2 ⟨1, by simp, rfl⟩
  exact absurd hle (by decide +kernel)

end FreechCore
