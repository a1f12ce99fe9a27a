import Mathlib.Data.Nat.Find
import Mathlib.Order.Compare
import FreechCore.Lib.Loop

/-!
A search that halves an interval and keeps the point it looked at as an end of it. The last
point of the interval is never looked at, unless it is the only one.
-/

namespace FreechCore.Bisect

open Loop

/-- Look at the middle of an interval: what is searched lies below it, is found, or lies above. -/
def step (probe : ℕ → Ordering) (s : ℕ × ℕ) : (ℕ × ℕ) ⊕ ℕ :=
  match probe ((s.1 + s.2) / 2) with
  | .lt => .inl (s.1, (s.1 + s.2) / 2)
  | .eq => .inr ((s.1 + s.2) / 2)
  | .gt => .inl ((s.1 + s.2) / 2, s.2)

variable {probe : ℕ → Ordering} {t b e m : ℕ}

section

variable (hprobe : ∀ i ≤ m, probe i = compare t i)

include hprobe

lemma step_cases (hb : b ≤ m) (he : e ≤ m) :
    (t < (b + e) / 2 ∧ step probe (b, e) = .inl (b, (b + e) / 2)) ∨
      (t = (b + e) / 2 ∧ step probe (b, e) = .inr t) ∨
      ((b + e) / 2 < t ∧ step probe (b, e) = .inl ((b + e) / 2, e)) := by
  have hmid : probe ((b + e) / 2) = compare t ((b + e) / 2) := hprobe _ (by omega)
  unfold step
  rw [hmid]
  rcases lt_trichotomy t ((b + e) / 2) with h | h | h
  · rw [compare_lt_iff_lt.mpr h]
    exact Or.inl ⟨h, rfl⟩
  · rw [compare_eq_iff_eq.mpr h]
    exact Or.inr (Or.inl ⟨h, by rw [← h]⟩)
  · rw [compare_gt_iff_gt.mpr h]
    exact Or.inr (Or.inr ⟨h, rfl⟩)

lemma eq_of_doWhile (hb : b ≤ m) (he : e ≤ m) {fuel r : ℕ}
    (h : doWhile (step probe) fuel (b, e) = some r) : r = t := by
  refine doWhile_spec (I := fun s => s.1 ≤ m ∧ s.2 ≤ m) (Q := (· = t)) ?_ ?_ ⟨hb, he⟩ h
  · rintro ⟨b, e⟩ s' ⟨hb, he⟩ hs
    rcases step_cases hprobe hb he with ⟨-, hstep⟩ | ⟨-, hstep⟩ | ⟨-, hstep⟩ <;>
      rw [hstep] at hs <;> cases hs
    · exact ⟨hb, by omega⟩
    · exact ⟨by omega, he⟩
  · rintro ⟨b, e⟩ r ⟨hb, he⟩ hs
    rcases step_cases hprobe hb he with ⟨-, hstep⟩ | ⟨-, hstep⟩ | ⟨-, hstep⟩ <;>
      rw [hstep] at hs <;> cases hs
    rfl

lemma doWhile_of_lt (hb : b ≤ t) (ht : t < e)
    (he : e ≤ m) : ∃ fuel, doWhile (step probe) fuel (b, e) = some t := by
  induction hd : e - b using Nat.strong_induction_on generalizing b e with
  | _ d ih =>
    rcases step_cases hprobe (b := b) (e := e) (by omega) he with
      ⟨h, hstep⟩ | ⟨h, hstep⟩ | ⟨h, hstep⟩
    · obtain ⟨fuel, hfuel⟩ := ih ((b + e) / 2 - b) (by omega) hb h (by omega) rfl
      exact ⟨fuel + 1, by rw [doWhile_inl hstep, hfuel]⟩
    · exact ⟨1, doWhile_inr hstep 0⟩
    · obtain ⟨fuel, hfuel⟩ := ih (e - (b + e) / 2) (by omega) h.le ht he rfl
      exact ⟨fuel + 1, by rw [doWhile_inl hstep, hfuel]⟩

lemma doWhile_of_eq (hb : b < t) (ht : t ≤ m)
    (fuel : ℕ) : doWhile (step probe) fuel (b, t) = none := by
  refine doWhile_eq_none (I := fun s => s.1 < t ∧ s.2 = t) ?_ fuel ⟨hb, rfl⟩
  rintro ⟨b, e⟩ ⟨hb, rfl⟩
  rcases step_cases hprobe (b := b) (e := e) (by omega) ht with ⟨h, -⟩ | ⟨h, -⟩ | ⟨h, hstep⟩
  · omega
  · omega
  · exact ⟨_, hstep, h, rfl⟩

end

/-- **The search over `[b, e]` returns** if and only if the target is not the last of several
points. -/
theorem returns_iff (hprobe : ∀ i ≤ e, probe i = compare t i) (hb : b ≤ t) (ht : t ≤ e) :
    (∃ fuel, doWhile (step probe) fuel (b, e) = some t) ↔ t < e ∨ b = e := by
  constructor
  · rintro ⟨fuel, hfuel⟩
    by_contra hno
    obtain rfl : t = e := by omega
    rw [doWhile_of_eq hprobe (by omega) le_rfl] at hfuel
    cases hfuel
  · rintro (h | rfl)
    · exact doWhile_of_lt hprobe hb h le_rfl
    · obtain rfl : t = b := by omega
      rcases step_cases hprobe (b := t) (e := t) le_rfl le_rfl with ⟨h, -⟩ | ⟨-, hstep⟩ | ⟨h, -⟩
      · omega
      · exact ⟨1, doWhile_inr hstep 0⟩
      · omega

section Sums

variable {f : ℕ → ℕ}

lemma le_of_growing (hf : ∀ i < m, f i ≤ f (i + 1)) {i j : ℕ} (hij : i ≤ j) (hj : j ≤ m) :
    f i ≤ f j := by
  induction j with
  | zero => rw [Nat.le_zero.mp hij]
  | succ j ih =>
    rcases Nat.le_succ_iff.mp hij with hij | rfl
    · exact (ih hij (by omega)).trans (hf j (by omega))
    · exact le_rfl

lemma exists_slot {x : ℕ} (hf : ∀ i < m, f i ≤ f (i + 1)) (hx : x < f m) :
    ∃ t ≤ m, ∀ i ≤ m, x < f i ↔ t ≤ i := by
  have hex : ∃ i, x < f i := ⟨m, hx⟩
  have hle : Nat.find hex ≤ m := Nat.find_min' hex hx
  refine ⟨Nat.find hex, hle, fun i hi => ⟨Nat.find_min' hex, fun h => ?_⟩⟩
  exact (Nat.find_spec hex).trans_le (le_of_growing hf h hi)

end Sums

end FreechCore.Bisect
