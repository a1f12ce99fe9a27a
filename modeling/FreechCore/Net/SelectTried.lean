import Mathlib.Algebra.Order.Ring.Int
import Mathlib.Data.List.GetD
import Mathlib.Data.List.Nodup

/-!
The entry of a full tried bucket that makes room. `SelectTried` shuffles a few random entries to
the front and looks for the one that succeeded longest ago. It remembers the place that entry was
taken from, where another one stands now, and `MakeTried` evicts the entry at that place.
-/

namespace FreechCore

open List

/-- `ADDRMAN_TRIED_ENTRIES_INSPECT_ON_EVICT`. -/
def triedEntriesInspectOnEvict : ℕ := 4

/-- A number below the bound, from what the random source gives. -/
def getRandInt (nRand nMax : ℕ) : ℕ := if nMax = 0 then 0 else nRand % nMax

/-- What a call works on: a bucket, which holds an entry once, when its entries succeeded last,
and what the random source gives in each round. -/
structure TriedCall where
  vTried : List ℕ
  nodup : vTried.Nodup
  nLastSuccess : ℕ → ℤ
  nRand : ℕ → ℕ

namespace TriedCall

variable (c : TriedCall)

def nPos (i : ℕ) : ℕ := getRandInt (c.nRand i) (c.vTried.length - i) + i

/-- One round, with the oldest entry so far and its `nOldestPos`. -/
def round (s : List ℕ × Option (ℕ × ℕ)) (i : ℕ) : List ℕ × Option (ℕ × ℕ) :=
  let nTemp := s.1.getD (c.nPos i) 0
  ((s.1.set (c.nPos i) (s.1.getD i 0)).set i nTemp,
    match s.2 with
    | none => some (nTemp, c.nPos i)
    | some (nOldest, nOldestPos) =>
      if c.nLastSuccess nTemp < c.nLastSuccess nOldest then some (nTemp, c.nPos i)
      else some (nOldest, nOldestPos))

def rounds (n : ℕ) : List ℕ × Option (ℕ × ℕ) := (List.range n).foldl c.round (c.vTried, none)

/-- How many entries are inspected. -/
def count : ℕ := min triedEntriesInspectOnEvict c.vTried.length

/-- The bucket after the call, and the place that is returned; none stands for `-1`. -/
def selectTried : List ℕ × Option ℕ := ((c.rounds c.count).1, (c.rounds c.count).2.map Prod.snd)

def inspected (i : ℕ) : ℕ := (c.rounds i).1.getD (c.nPos i) 0

/-- An entry that was inspected, and none of them is older. -/
def Oldest (x : ℕ) : Prop := (∃ i < c.count, x = c.inspected i) ∧
  ∀ i < c.count, c.nLastSuccess x ≤ c.nLastSuccess (c.inspected i)

/-- Of the first `n` rounds, `o` is the first one that looks at an oldest entry. -/
structure FirstOldest (n o : ℕ) : Prop where
  lt : o < n
  least : ∀ k < n, c.nLastSuccess (c.inspected o) ≤ c.nLastSuccess (c.inspected k)
  first : ∀ k < o, c.nLastSuccess (c.inspected o) < c.nLastSuccess (c.inspected k)

variable {c}

lemma FirstOldest.unique {n o o' : ℕ} (h : c.FirstOldest n o) (h' : c.FirstOldest n o') :
    o = o' := by
  rcases Nat.lt_trichotomy o o' with hlt | heq | hgt
  · exact absurd (h.least o' h'.lt) (not_le.mpr (h'.first o hlt))
  · exact heq
  · exact absurd (h'.least o h.lt) (not_le.mpr (h.first o' hgt))

lemma nPos_range {i : ℕ} (hi : i < c.vTried.length) : i ≤ c.nPos i ∧ c.nPos i < c.vTried.length := by
  have hlt := Nat.mod_lt (c.nRand i) (show 0 < c.vTried.length - i by omega)
  rw [nPos, getRandInt, if_neg (by omega)]
  omega

lemma rounds_succ (n : ℕ) : c.rounds (n + 1) = c.round (c.rounds n) n := by
  rw [rounds, range_succ, foldl_append]
  rfl

lemma rounds_perm {n : ℕ} (hn : n ≤ c.vTried.length) : (c.rounds n).1.Perm c.vTried := by
  induction n with
  | zero => exact List.Perm.refl _
  | succ n ih =>
    have hperm := ih (by omega)
    have hlen := hperm.length_eq
    have hpos := (nPos_range (c := c) (i := n) (by omega)).2
    rw [rounds_succ, round, getD_eq_getElem _ _ (by omega),
      getD_eq_getElem _ _ (by omega)]
    exact (set_set_perm (by omega) (by omega)).trans hperm

lemma rounds_getD {n j : ℕ} (hn : n ≤ c.vTried.length) (hj : j < n) :
    (c.rounds n).1.getD j 0 = c.inspected j := by
  induction n with
  | zero => omega
  | succ n ih =>
    have hlen := (rounds_perm (c := c) (n := n) (by omega)).length_eq
    have hpos := nPos_range (c := c) (i := n) (by omega)
    rw [rounds_succ, round]
    rcases Nat.lt_or_ge j n with hlt | hge
    · rw [← ih (by omega) hlt, getD_eq_getElem _ _ (by simp; omega),
        getElem_set_ne (by omega), getElem_set_ne (by omega)]
      exact (getD_eq_getElem _ _ _).symm
    · obtain rfl : j = n := by omega
      rw [getD_eq_getElem _ _ (by simp; omega), getElem_set_self]
      rfl

lemma rounds_snd (n : ℕ) : ∃ o, c.FirstOldest (n + 1) o ∧
    (c.rounds (n + 1)).2 = some (c.inspected o, c.nPos o) := by
  induction n with
  | zero => exact ⟨0, ⟨by omega, fun k hk => by rw [show k = 0 by omega], by omega⟩, rfl⟩
  | succ n ih =>
    obtain ⟨o, ho, heq⟩ := ih
    have hcases : ∀ k < n + 1 + 1, k < n + 1 ∨ k = n + 1 := by omega
    rw [rounds_succ, round, heq]
    dsimp only
    split_ifs with hless
    · refine ⟨n + 1, ⟨by omega, fun k hk => ?_, fun k hk => ?_⟩, rfl⟩
      · rcases hcases k hk with hk | rfl
        · exact (hless.trans_le (ho.least k hk)).le
        · exact le_refl _
      · exact hless.trans_le (ho.least k hk)
    · refine ⟨o, ⟨ho.lt.trans (by omega), fun k hk => ?_, ho.first⟩, rfl⟩
      rcases hcases k hk with hk | rfl
      · exact ho.least k hk
      · exact not_lt.mp hless

lemma not_oldest_of_le {j : ℕ} (hj : c.count ≤ j) (hlen : j < c.vTried.length) :
    ¬ c.Oldest ((c.rounds c.count).1.getD j 0) := by
  have hle : c.count ≤ c.vTried.length := Nat.min_le_right _ _
  have hperm := rounds_perm hle
  rintro ⟨⟨i, hi, heq⟩, -⟩
  rw [← rounds_getD hle hi, getD_eq_getElem _ _ (by rw [hperm.length_eq]; omega),
    getD_eq_getElem _ _ (by rw [hperm.length_eq]; omega),
    (hperm.nodup_iff.mpr c.nodup).getElem_inj_iff] at heq
  omega

/-- **The place that is returned holds an oldest one of the inspected entries if and only if the
first oldest one was not moved, or what stands at its old place was inspected and is as old.** -/
theorem selectTried_oldest_iff (c : TriedCall) : (∃ nOldestPos, c.selectTried.2 = some nOldestPos ∧
      c.Oldest (c.selectTried.1.getD nOldestPos 0)) ↔
    ∃ o, c.FirstOldest c.count o ∧ (c.nPos o = o ∨
      c.nPos o < c.count ∧ c.nLastSuccess (c.inspected (c.nPos o)) =
        c.nLastSuccess (c.inspected o)) := by
  have hle : c.count ≤ c.vTried.length := Nat.min_le_right _ _
  rcases Nat.eq_zero_or_pos c.count with hzero | hpos
  · -- an empty bucket has no oldest entry
    refine iff_of_false ?_ (fun ⟨o, ho, _⟩ => absurd ho.lt (by omega))
    rintro ⟨_, -, ⟨i, hi, -⟩, -⟩
    omega
  obtain ⟨o, ho, hsnd⟩ := rounds_snd (c := c) (c.count - 1)
  rw [Nat.sub_add_cancel hpos] at ho hsnd
  have hat : ∀ j < c.count, (c.rounds c.count).1.getD j 0 = c.inspected j :=
    fun j hj => rounds_getD hle hj
  simp only [selectTried, hsnd, Option.map_some, Option.some.injEq, exists_eq_left']
  constructor
  · intro hold
    refine ⟨o, ho, Or.inr ?_⟩
    have hlt : c.nPos o < c.count := by
      by_contra hge
      exact not_oldest_of_le (not_lt.mp hge) (nPos_range (ho.lt.trans_le hle)).2 hold
    rw [hat _ hlt] at hold
    exact ⟨hlt, le_antisymm (hold.2 o ho.lt) (ho.least _ hlt)⟩
  · rintro ⟨o', ho', hcase⟩
    obtain rfl := ho.unique ho'
    rcases hcase with heq | ⟨hlt, heq⟩
    · rw [heq, hat o ho.lt]
      exact ⟨⟨o, ho.lt, rfl⟩, ho.least⟩
    · rw [hat _ hlt]
      exact ⟨⟨_, hlt, rfl⟩, fun i hi => heq.le.trans (ho.least i hi)⟩

/-- A full bucket, and the random source gives one each time: the oldest entry is taken from the
second place and put first, and the second place, with a newer entry, is returned. -/
theorem selectTried_not_oldest :
    let c : TriedCall := ⟨range 64, nodup_range, fun id => if id = 1 then 5 else 9, fun _ => 1⟩
    c.selectTried.2 = some 1 ∧ ¬ c.Oldest (c.selectTried.1.getD 1 0) := by
  refine ⟨by decide +kernel, ?_⟩
  rintro ⟨-, hall⟩
  exact absurd (hall 0 (by decide +kernel)) (by decide +kernel)

end TriedCall

end FreechCore
