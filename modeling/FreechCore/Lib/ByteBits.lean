import Mathlib.Algebra.Group.Nat.Defs
import Mathlib.Data.List.Basic

/-!
A vector of bytes as a vector of bits. Access outside the vector has no result.
-/

namespace FreechCore.ByteBits

open List

def bitMask (i : ℕ) : UInt8 := UInt8.ofNat (2 ^ (i % 8))

def testBit (v : List UInt8) (i : ℕ) : Option Bool :=
  match v[i / 8]? with
  | none => none
  | some b => some (b &&& bitMask i ≠ 0)

def setBit (v : List UInt8) (i : ℕ) : Option (List UInt8) :=
  match v[i / 8]? with
  | none => none
  | some b => some (v.set (i / 8) (b ||| bitMask i))

lemma or_and_self (a m : UInt8) : (a ||| m) &&& m = m := by
  apply UInt8.eq_of_toBitVec_eq
  ext i
  simp
  tauto

lemma bitMask_ne_zero (i : ℕ) : bitMask i ≠ 0 := by
  have hi : i % 8 < 8 := Nat.mod_lt _ (by decide)
  unfold bitMask
  generalize i % 8 = k at hi
  match k, hi with
  | 0, _ | 1, _ | 2, _ | 3, _ | 4, _ | 5, _ | 6, _ | 7, _ => decide

variable {v v' : List UInt8} {i j : ℕ}

lemma testBit_isSome (h : i < v.length * 8) : ∃ b, testBit v i = some b := by
  have : i / 8 < v.length := by omega
  exact ⟨_, by rw [testBit, List.getElem?_eq_getElem this]⟩

lemma setBit_isSome (h : i < v.length * 8) : ∃ v', setBit v i = some v' := by
  have : i / 8 < v.length := by omega
  exact ⟨_, by rw [setBit, List.getElem?_eq_getElem this]⟩

lemma setBit_length (h : setBit v i = some v') : v'.length = v.length := by
  unfold setBit at h
  split at h
  · cases h
  · cases h
    simp

lemma bitMask_and_of_ne (h : i % 8 ≠ j % 8) : bitMask i &&& bitMask j = 0 := by
  have hi : i % 8 < 8 := Nat.mod_lt _ (by decide)
  have hj : j % 8 < 8 := Nat.mod_lt _ (by decide)
  have hall : ∀ a < 8, ∀ b < 8, a ≠ b → UInt8.ofNat (2 ^ a) &&& UInt8.ofNat (2 ^ b) = 0 := by
    decide
  exact hall _ hi _ hj h

lemma or_and_of_and_eq_zero {a m m' : UInt8} (h : m' &&& m = 0) : (a ||| m') &&& m = a &&& m := by
  have hd : (a ||| m') &&& m = (a &&& m) ||| (m' &&& m) := by
    apply UInt8.eq_of_toBitVec_eq
    ext k
    simp [Bool.and_or_distrib_right]
  rw [hd, h]
  simp

lemma testBit_setBit (h : setBit v i = some v') :
    testBit v' j = (testBit v j).map fun b => b || decide (i = j) := by
  unfold setBit at h
  split at h
  · cases h
  · rename_i b hb
    cases h
    have hlt := (List.getElem?_eq_some_iff.mp hb).1
    unfold testBit
    by_cases hij : i / 8 = j / 8
    · have hb' : v[j / 8]? = some b := hij ▸ hb
      rw [hij] at hlt
      rw [hij, List.getElem?_set_self hlt, hb']
      by_cases heq : i = j
      · subst heq
        simp [or_and_self, bitMask_ne_zero]
      · have hmod : i % 8 ≠ j % 8 := by omega
        simp [or_and_of_and_eq_zero (bitMask_and_of_ne hmod), heq]
    · have heq : i ≠ j := fun he => hij (he ▸ rfl)
      rw [List.getElem?_set_ne hij]
      cases v[j / 8]? <;> simp [heq]

lemma testBit_setBit_of_true (h : setBit v i = some v') (hj : testBit v j = some true) :
    testBit v' j = some true := by
  rw [testBit_setBit h, hj, Option.map_some, Bool.true_or]

lemma testBit_setBit_self (h : setBit v i = some v') : testBit v' i = some true := by
  have hi : i < v.length * 8 := by
    unfold setBit at h
    split at h
    · cases h
    · rename_i hb
      have hlt := (List.getElem?_eq_some_iff.mp hb).1
      omega
  obtain ⟨b, hb⟩ := testBit_isSome hi
  rw [testBit_setBit h, hb]
  simp

/-! ### Packing -/

/-- Set those bits from position `i` on that are set in a list. -/
def packFrom : ℕ → List Bool → List UInt8 → List UInt8
  | _, [], v => v
  | i, b :: bits, v => packFrom (i + 1) bits (if b then (setBit v i).getD v else v)

/-- Eight bits to a byte, the least significant one first. -/
def pack (bits : List Bool) : List UInt8 :=
  packFrom 0 bits (replicate ((bits.length + 7) / 8) 0)

def unpack (v : List UInt8) : List Bool :=
  (range (v.length * 8)).map fun i => (testBit v i).getD false

lemma length_packFrom (i : ℕ) (bits : List Bool) (v : List UInt8) :
    (packFrom i bits v).length = v.length := by
  induction bits generalizing i v with
  | nil => rfl
  | cons b bits ih =>
    rw [packFrom, ih]
    cases b with
    | false => rfl
    | true =>
      cases hs : setBit v i with
      | none => simp
      | some v' => simpa using setBit_length hs

lemma testBit_packFrom (i : ℕ) (bits : List Bool) (v : List UInt8) (j : ℕ) :
    testBit (packFrom i bits v) j =
      (testBit v j).map fun b => b || (decide (i ≤ j) && (bits[j - i]?).getD false) := by
  induction bits generalizing i v with
  | nil => simp [packFrom]
  | cons c bits ih =>
    have hstep : testBit (if c then (setBit v i).getD v else v) j =
        (testBit v j).map fun b => b || (c && decide (i = j)) := by
      cases c with
      | false => simp
      | true =>
        cases hs : setBit v i with
        | some v' => simpa using testBit_setBit hs
        | none =>
          -- outside the vector there is nothing to set
          have hnone : v[i / 8]? = none := by
            unfold setBit at hs
            split at hs
            · assumption
            · cases hs
          by_cases hij : i = j
          · subst hij
            simp [testBit, hnone]
          · simp [hij]
    rw [packFrom, ih, hstep, Option.map_map]
    congr 1
    funext b
    rcases Nat.lt_trichotomy i j with hlt | rfl | hgt
    · obtain ⟨k, rfl⟩ := Nat.exists_eq_add_of_lt hlt
      have h1 : i + k + 1 - i = k + 1 := by omega
      have h2 : i + k + 1 - (i + 1) = k := by omega
      have h3 : i ≠ i + k + 1 := by omega
      have h4 : i ≤ i + k + 1 := by omega
      have h5 : i + 1 ≤ i + k + 1 := by omega
      simp [h1, h2, h3, h4, h5]
    · have h1 : ¬i + 1 ≤ i := by omega
      simp [h1]
    · have h1 : ¬i ≤ j := by omega
      have h2 : ¬i + 1 ≤ j := by omega
      have h3 : i ≠ j := by omega
      simp [h1, h2, h3]

/-- **What is packed is read back**, with zeros up to the next full byte. -/
lemma unpack_pack (bits : List Bool) : unpack (pack bits) =
    bits ++ replicate ((bits.length + 7) / 8 * 8 - bits.length) false := by
  have hlen : (pack bits).length = (bits.length + 7) / 8 := by
    rw [pack, length_packFrom, length_replicate]
  apply ext_getElem?
  intro j
  have hzero : ∀ j < (bits.length + 7) / 8 * 8,
      testBit (replicate ((bits.length + 7) / 8) 0) j = some false := by
    intro j hj
    have : j / 8 < (bits.length + 7) / 8 := by omega
    simp [testBit, this]
  rw [unpack, List.getElem?_map, hlen]
  by_cases hj : j < (bits.length + 7) / 8 * 8
  · rw [List.getElem?_range hj, Option.map_some, pack, testBit_packFrom, hzero j hj]
    by_cases hb : j < bits.length
    · simp [List.getElem?_append_left hb, hb]
    · rw [Nat.not_lt] at hb
      rw [List.getElem?_append_right hb, List.getElem?_replicate, if_pos (by omega)]
      simp [hb]
  · have h1 : (range ((bits.length + 7) / 8 * 8))[j]? = none := by simp; omega
    rw [h1, Option.map_none, eq_comm, List.getElem?_eq_none_iff, length_append,
      length_replicate]
    omega

end FreechCore.ByteBits
