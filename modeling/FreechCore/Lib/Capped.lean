import Mathlib.Data.List.Sort

/-!
Lists that are kept in an order and cut to a length: a new element is put before the first one that
it does not follow, and what is then too far back is dropped.
-/

namespace FreechCore.Capped

open List

variable {α : Type*} (r : α → α → Prop) [DecidableRel r] (a : α)
variable {l : List α}

lemma orderedInsert_eq_insertIdx (l : List α) :
    orderedInsert r a l = l.insertIdx (l.findIdx fun x => r a x) a := by
  induction l with
  | nil => rfl
  | cons x l ih =>
    rw [orderedInsert, findIdx_cons]
    by_cases hx : r a x
    · simp [hx]
    · simp [hx, ih]

lemma map_orderedInsert_of_iff {β : Type*} {s : β → β → Prop} [DecidableRel s] {f : α → β}
    (h : ∀ x ∈ l, r a x ↔ s (f a) (f x)) :
    (orderedInsert r a l).map f = orderedInsert s (f a) (l.map f) := by
  induction l with
  | nil => rfl
  | cons x l ih =>
    have ih := ih fun y hy => h y (mem_cons_of_mem _ hy)
    rw [orderedInsert, map_cons, orderedInsert]
    by_cases hx : r a x
    · rw [if_pos hx, if_pos ((h x mem_cons_self).mp hx), map_cons, map_cons]
    · rw [if_neg hx, if_neg (mt (h x mem_cons_self).mpr hx), map_cons, ih]

lemma take_orderedInsert_take (k : ℕ) (l : List α) :
    (orderedInsert r a (l.take k)).take k = (orderedInsert r a l).take k := by
  induction l generalizing k with
  | nil => simp
  | cons x l ih =>
    cases k with
    | zero => simp
    | succ k =>
      rw [take_succ_cons, orderedInsert, orderedInsert]
      split_ifs
      · cases k with
        | zero => rfl
        | succ k => simp [take_take]
      · rw [take_succ_cons, take_succ_cons, ih]

lemma mem_take_orderedInsert {a : α} (ha : a ∉ l) (k : ℕ) :
    a ∈ (orderedInsert r a l).take k ↔ l.length < k ∨ ∃ x ∈ l.take k, r a x := by
  induction l generalizing k with
  | nil =>
    cases k with
    | zero => simp
    | succ k => simp [orderedInsert]
  | cons x l ih =>
    obtain ⟨hne, ha⟩ : a ≠ x ∧ a ∉ l := by simpa using ha
    cases k with
    | zero => simp
    | succ k =>
      rw [orderedInsert]
      split_ifs with hx
      · simp [hx]
      · simp [hx, hne, ih ha]

lemma pairwise_orderedInsert {s : α → α → Prop} (hl : l.Pairwise s)
    (hbefore : ∀ x ∈ l, ¬ r a x → s x a) (hbehind : ∀ x ∈ l, r a x → s a x)
    (hr : ∀ x y, s x y → r a x → r a y) : (orderedInsert r a l).Pairwise s := by
  induction l with
  | nil => exact pairwise_singleton _ _
  | cons x l ih =>
    obtain ⟨hx, hl'⟩ := pairwise_cons.mp hl
    rw [orderedInsert]
    split_ifs with hpx
    · refine pairwise_cons.mpr ⟨fun y hy => ?_, hl⟩
      rcases mem_cons.mp hy with rfl | hy'
      · exact hbehind _ mem_cons_self hpx
      · exact hbehind y hy (hr x y (hx y hy') hpx)
    · refine pairwise_cons.mpr ⟨fun y hy => ?_, ih hl'
        (fun y hy => hbefore y (mem_cons_of_mem _ hy))
        (fun y hy => hbehind y (mem_cons_of_mem _ hy))⟩
      rcases mem_cons.mp ((perm_orderedInsert r a l).mem_iff.mp hy) with rfl | hy'
      · exact hbefore x mem_cons_self hpx
      · exact hx y hy'

end FreechCore.Capped
