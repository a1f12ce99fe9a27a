import Mathlib.Algebra.Group.Nat.Defs
import Mathlib.Data.List.Nodup
import Mathlib.Data.Nat.Log

/-!
Hash trees by levels. A level is the list of the values of its nodes; the next level combines
neighbours, and a last odd node with itself. So two different levels may have the same next
level, but not if both are without duplicates and the combination is injective.
-/

namespace FreechCore.Merkle

open List

variable {α : Type*} (f : α → α → α)
variable {n p : ℕ}

def level : List α → List α
  | [] => []
  | [a] => [f a a]
  | a :: b :: l => f a b :: level l

def levels (h : ℕ) (l : List α) : List α := (level f)^[h] l

variable {f} {l l' : List α} {h k : ℕ} {x y : α}

@[simp] lemma levels_zero : levels f 0 l = l := rfl

lemma levels_succ : levels f (h + 1) l = level f (levels f h l) :=
  Function.iterate_succ_apply' (level f) h l

lemma levels_succ' : levels f (h + 1) l = levels f h (level f l) :=
  Function.iterate_succ_apply (level f) h l

lemma levels_add : levels f (h + k) l = levels f h (levels f k l) :=
  Function.iterate_add_apply (level f) h k l

/-! ### Widths -/

lemma length_level (l : List α) : (level f l).length = (l.length + 1) / 2 := by
  induction l using level.induct with
  | case1 => simp [level]
  | case2 a => simp [level]
  | case3 a b l ih =>
    rw [level, length_cons, ih, length_cons, length_cons]
    omega

/-- The width of a level over `n` leaves. -/
def width (n h : ℕ) : ℕ := (n + 2 ^ h - 1) / 2 ^ h

lemma width_zero (n : ℕ) : width n 0 = n := by simp [width]

lemma lt_width_iff : p < width n h ↔ p * 2 ^ h < n := by
  have hpos : 0 < 2 ^ h := Nat.two_pow_pos h
  rw [width, Nat.lt_iff_add_one_le, Nat.le_div_iff_mul_le hpos, Nat.add_mul, Nat.one_mul]
  omega

lemma width_succ (n : ℕ) : width n (h + 1) = (width n h + 1) / 2 := by
  refine eq_of_forall_lt_iff fun p => ?_
  have hhalf : p < (width n h + 1) / 2 ↔ 2 * p < width n h := by omega
  rw [hhalf, lt_width_iff, lt_width_iff, Nat.pow_succ, Nat.mul_comm (2 ^ h), ← Nat.mul_assoc,
    Nat.mul_comm p]

lemma length_levels (l : List α) : (levels f h l).length = width l.length h := by
  induction h with
  | zero => rw [levels_zero, width_zero]
  | succ h ih => rw [levels_succ, length_level, ih, width_succ]

lemma one_lt_width_iff : 1 < width n h ↔ h < Nat.clog 2 n := by
  rw [lt_width_iff, Nat.one_mul, Nat.lt_clog_iff_pow_lt Nat.one_lt_two]

lemma width_clog (hn : 0 < n) : width n (Nat.clog 2 n) = 1 := by
  have h1 : ¬1 < width n (Nat.clog 2 n) := by
    rw [one_lt_width_iff]
    exact lt_irrefl _
  have h0 : 0 < width n (Nat.clog 2 n) := by
    rw [lt_width_iff, Nat.zero_mul]
    exact hn
  omega

/-! ### Nodes -/

lemma getElem?_level (l : List α) (p : ℕ) :
    (level f l)[p]? = (l[2 * p]?).map fun a => f a ((l[2 * p + 1]?).getD a) := by
  induction l using level.induct generalizing p with
  | case1 => simp [level]
  | case2 a => cases p <;> simp [level]
  | case3 a b l ih =>
    cases p with
    | zero => simp [level]
    | succ p =>
      rw [level, List.getElem?_cons_succ, ih]
      have h1 : 2 * (p + 1) = 2 * p + 1 + 1 := by omega
      rw [h1, List.getElem?_cons_succ, List.getElem?_cons_succ, List.getElem?_cons_succ,
        List.getElem?_cons_succ]

lemma mem_level (hy : y ∈ level f l) : ∃ a ∈ l, ∃ b ∈ l, y = f a b := by
  obtain ⟨p, hp⟩ := mem_iff_getElem?.mp hy
  rw [getElem?_level, Option.map_eq_some_iff] at hp
  obtain ⟨a, ha, rfl⟩ := hp
  refine ⟨a, mem_of_getElem? ha, _, ?_, rfl⟩
  cases hb : l[2 * p + 1]? with
  | none => exact mem_of_getElem? ha
  | some b => exact mem_of_getElem? hb

/-! ### Branches -/

section Branch

variable (f)

def flat : ℕ → List α → List α
  | 0, l => l
  | fuel + 1, l => if 1 < l.length then l ++ flat fuel (level f l) else l

def sibling (p : ℕ) : ℕ := if p % 2 = 1 then p - 1 else p + 1

/-- The siblings on the way up from a leaf; a last odd node is its own sibling. -/
def branch : ℕ → List α → ℕ → List α
  | 0, _, _ => []
  | fuel + 1, l, p =>
    if 1 < l.length then
      (l[min (sibling p) (l.length - 1)]?).toList ++ branch fuel (level f l) (p / 2)
    else []

/-- Combine a value with siblings on the way up. -/
def climb (a : α) : ℕ → List α → α
  | _, [] => a
  | p, s :: r => climb (if p % 2 = 1 then f s a else f a s) (p / 2) r

variable {f}

lemma getElem?_level_half {a : α} (ha : l[p]? = some a) :
    ∃ s, l[min (sibling p) (l.length - 1)]? = some s ∧
      (level f l)[p / 2]? = some (if p % 2 = 1 then f s a else f a s) := by
  obtain ⟨hlt, -⟩ := List.getElem?_eq_some_iff.mp ha
  unfold sibling
  by_cases hodd : p % 2 = 1
  · -- a right child stands next to a left one
    have hmin : min (p - 1) (l.length - 1) = p - 1 := by omega
    have h2 : 2 * (p / 2) = p - 1 := by omega
    have h3 : p - 1 + 1 = p := by omega
    have hleft : l[p - 1]? = some l[p - 1] := List.getElem?_eq_getElem _
    refine ⟨l[p - 1], ?_, ?_⟩
    · rw [if_pos hodd, hmin, hleft]
    · rw [if_pos hodd, getElem?_level, h2, h3, ha, hleft]
      rfl
  · have h2 : 2 * (p / 2) = p := by omega
    have hnode : (level f l)[p / 2]? = some (f a ((l[p + 1]?).getD a)) := by
      rw [getElem?_level, h2, ha, Option.map_some]
    by_cases hlast : p + 1 < l.length
    · have hmin : min (p + 1) (l.length - 1) = p + 1 := by omega
      have hright : l[p + 1]? = some l[p + 1] := List.getElem?_eq_getElem _
      refine ⟨l[p + 1], ?_, ?_⟩
      · rw [if_neg hodd, hmin, hright]
      · rw [if_neg hodd, hnode, hright, Option.getD_some]
    · -- the last node of an odd level
      have hmin : min (p + 1) (l.length - 1) = p := by omega
      refine ⟨a, ?_, ?_⟩
      · rw [if_neg hodd, hmin, ha]
      · rw [if_neg hodd, hnode, List.getElem?_eq_none (not_lt.mp hlast), Option.getD_none]

lemma levels_climb_branch {fuel : ℕ} {a : α} (hf : l.length ≤ 2 ^ fuel) (ha : l[p]? = some a) :
    levels f (Nat.clog 2 l.length) l = [climb f a p (branch f fuel l p)] := by
  have hleaf : ∀ {l : List α} {p a}, ¬1 < l.length → l[p]? = some a →
      levels f (Nat.clog 2 l.length) l = [climb f a p []] := by
    intro l p a hone ha
    obtain ⟨hlt, rfl⟩ := List.getElem?_eq_some_iff.mp ha
    obtain ⟨x, rfl⟩ := length_eq_one_iff.mp (show l.length = 1 by omega)
    obtain rfl : p = 0 := by simpa using hlt
    rfl
  induction fuel generalizing l p a with
  | zero => exact hleaf (not_lt.mpr hf) ha
  | succ fuel ih =>
    rw [branch]
    by_cases hone : 1 < l.length
    · obtain ⟨s, hs, hup⟩ := getElem?_level_half (f := f) ha
      have hlen := length_level (f := f) l
      have hf' : (level f l).length ≤ 2 ^ fuel := by
        omega
      have hclog : Nat.clog 2 l.length = Nat.clog 2 (level f l).length + 1 := by
        rw [Nat.clog_of_two_le Nat.one_lt_two hone, hlen]
        rfl
      rw [if_pos hone, hs, Option.toList_some, singleton_append, climb, hclog, levels_succ',
        ih hf' hup]
    · rw [if_neg hone, hleaf hone ha]

end Branch

/-! ### Levels without duplicates -/

section Injective

variable (hf : Function.Injective2 f)

include hf

lemma nodup_level (hl : l.Nodup) : (level f l).Nodup := by
  induction l using level.induct with
  | case1 => simp [level]
  | case2 a => simp [level]
  | case3 a b l ih =>
    rw [level, nodup_cons]
    obtain ⟨ha, hb⟩ := nodup_cons.mp hl
    refine ⟨fun hmem => ?_, ih (nodup_cons.mp hb).2⟩
    obtain ⟨c, hc, d, -, he⟩ := mem_level hmem
    exact ha (mem_cons_of_mem _ ((hf he).1 ▸ hc))

lemma nodup_levels (hl : l.Nodup) : (levels f h l).Nodup := by
  induction h with
  | zero => exact hl
  | succ h ih =>
    rw [levels_succ]
    exact nodup_level hf ih

lemma level_injective (hl : l.Nodup) (hl' : l'.Nodup) (he : level f l = level f l') : l = l' := by
  induction l using level.induct generalizing l' with
  | case1 =>
    match l' with
    | [] => rfl
    | [a] => simp [level] at he
    | a :: b :: l' => simp [level] at he
  | case2 a =>
    match l' with
    | [] => simp [level] at he
    | [b] =>
      simp only [level, List.cons.injEq, and_true] at he
      rw [(hf he).1]
    | b :: c :: l' =>
      -- only a node that is doubled is combined with itself
      simp only [level, List.cons.injEq] at he
      obtain ⟨hb, hc⟩ := hf he.1
      exact absurd (hb.symm.trans hc) (fun h => (nodup_cons.mp hl').1 (h ▸ mem_cons_self))
  | case3 a b l ih =>
    match l' with
    | [] => simp [level] at he
    | [c] =>
      simp only [level, List.cons.injEq] at he
      obtain ⟨ha, hb⟩ := hf he.1
      exact absurd (ha.trans hb.symm) (fun h => (nodup_cons.mp hl).1 (h ▸ mem_cons_self))
    | c :: d :: l' =>
      simp only [level, List.cons.injEq] at he
      obtain ⟨rfl, rfl⟩ := hf he.1
      rw [ih hl.of_cons.of_cons hl'.of_cons.of_cons he.2]

lemma levels_injective (hl : l.Nodup) (hl' : l'.Nodup) (he : levels f h l = levels f h l') :
    l = l' := by
  induction h generalizing l l' with
  | zero => exact he
  | succ h ih =>
    exact level_injective hf hl hl' (ih (nodup_level hf hl) (nodup_level hf hl') he)

end Injective

end FreechCore.Merkle
