import Mathlib.Data.List.GetD
import FreechCore.Merkle.Commit

/-!
The Merkle tree of a block as one array, level after level, and the branch of a transaction in it.
The array is kept with the block once it was built.
-/

namespace FreechCore

open Merkle List

/-! ### The array -/

/-- One level of `nSize` nodes that starts at `j`: the parents are pushed to the end. -/
def pushParents (env : Env) (j nSize : ℕ) (vMerkleTree : List ℕ) : List ℕ :=
  (List.range ((nSize + 1) / 2)).foldl (fun v k =>
    let i := 2 * k
    let i2 := min (i + 1) (nSize - 1)
    v ++ [env.hashPair (v.getD (j + i) 0) (v.getD (j + i2) 0)]) vMerkleTree

/-- The levels from one of `nSize` nodes on; a level of `n` has at most `n - 1` above it. -/
def pushLevels (env : Env) : ℕ → ℕ → ℕ → List ℕ → List ℕ
  | 0, _, _, v => v
  | fuel + 1, nSize, j, v =>
    if 1 < nSize then pushLevels env fuel ((nSize + 1) / 2) (j + nSize) (pushParents env j nSize v)
    else v

/-- The array that `BuildMerkleTree` leaves with the block. -/
def vMerkleTree (env : Env) (b : CBlock) : List ℕ :=
  pushLevels env b.vtx.length b.vtx.length 0 (b.vtx.map env.hashTx)

/-! ### The branch -/

/-- A number with its lowest bit turned over. -/
def xorOne (n : ℤ) : ℤ := if n % 2 = 0 then n + 1 else n - 1

def merkleBranchFrom (vMerkleTree : List ℕ) : ℕ → ℕ → ℕ → ℤ → List ℕ
  | 0, _, _, _ => []
  | fuel + 1, nSize, j, nIndex =>
    if 1 < nSize then
      let i := min (xorOne nIndex) (nSize - 1)
      vMerkleTree.getD (j + i).toNat 0 ::
        merkleBranchFrom vMerkleTree fuel ((nSize + 1) / 2) (j + nSize) (nIndex / 2)
    else []

/-- The branch of a transaction. The array is built if the block has none yet. -/
def getMerkleBranch (env : Env) (b : CBlock) (cached : List ℕ) (nIndex : ℤ) : List ℕ :=
  merkleBranchFrom (if cached = [] then vMerkleTree env b else cached) b.vtx.length b.vtx.length 0
    nIndex

def climbBranch (env : Env) (hash : ℕ) : ℤ → List ℕ → ℕ
  | _, [] => hash
  | nIndex, otherside :: vMerkleBranch =>
    climbBranch env (if nIndex % 2 = 1 then env.hashPair otherside hash
      else env.hashPair hash otherside) (nIndex / 2) vMerkleBranch

def checkMerkleBranch (env : Env) (hash : ℕ) (vMerkleBranch : List ℕ) (nIndex : ℤ) : ℕ :=
  if nIndex = -1 then 0 else climbBranch env hash nIndex vMerkleBranch

/-! ### The array has all levels -/

section

variable {env : Env} {pre l : List ℕ}

lemma pushParents_eq : pushParents env pre.length l.length (pre ++ l) =
    pre ++ l ++ level env.hashPair l := by
  -- after `m` parents the array ends with the first `m` nodes of the next level
  have hloop : ∀ m ≤ (l.length + 1) / 2, (List.range m).foldl (fun v k =>
      v ++ [env.hashPair (v.getD (pre.length + 2 * k) 0)
        (v.getD (pre.length + min (2 * k + 1) (l.length - 1)) 0)]) (pre ++ l) =
      pre ++ l ++ (level env.hashPair l).take m := by
    intro m hm
    induction m with
    | zero => simp
    | succ m ih =>
      have hget : ∀ q, q < l.length → ∀ r : List ℕ,
          (pre ++ l ++ r).getD (pre.length + q) 0 = l.getD q 0 := by
        intro q hq r
        rw [append_assoc, getD_append_right _ _ _ _ (by omega),
          getD_append _ _ _ _ (by omega), Nat.add_sub_cancel_left]
      have hm' : m < (level env.hashPair l).length := by
        rw [length_level]
        omega
      have ha : l[2 * m]? = some l[2 * m] := List.getElem?_eq_getElem (by omega)
      have hnode : (level env.hashPair l)[m]? = some (env.hashPair (l.getD (2 * m) 0)
          (l.getD (min (2 * m + 1) (l.length - 1)) 0)) := by
        rw [getElem?_level, ha, Option.map_some, getD_eq_getElem?_getD,
          getD_eq_getElem?_getD, ha]
        by_cases hlast : 2 * m + 1 < l.length
        · rw [min_eq_left (by omega), List.getElem?_eq_getElem hlast]
          rfl
        · rw [min_eq_right (by omega), show l.length - 1 = 2 * m by omega, ha,
            List.getElem?_eq_none (not_lt.mp hlast)]
          rfl
      rw [range_succ, foldl_append, ih (by omega), foldl_cons, foldl_nil,
        hget _ (by omega), hget _ (by omega), append_assoc _ _ [_], take_add_one, hnode]
      rfl
  have hall := hloop ((l.length + 1) / 2) le_rfl
  rwa [← length_level (f := env.hashPair) l, take_length, length_level] at hall

lemma pushLevels_eq (pre l : List ℕ) (fuel : ℕ) : pushLevels env fuel l.length pre.length (pre ++ l) =
    pre ++ flat env.hashPair fuel l := by
  induction fuel generalizing pre l with
  | zero => rfl
  | succ fuel ih =>
    rw [pushLevels, flat]
    split_ifs
    · have hnext := ih (pre ++ l) (level env.hashPair l)
      rw [length_level, length_append] at hnext
      rw [pushParents_eq, hnext, append_assoc]
    · rfl

lemma vMerkleTree_eq (b : CBlock) :
    vMerkleTree env b = flat env.hashPair b.vtx.length (b.vtx.map env.hashTx) := by
  rw [vMerkleTree, ← length_map env.hashTx]
  exact pushLevels_eq [] (b.vtx.map env.hashTx) _

lemma flat_ne_nil {fuel : ℕ} (hl : l ≠ []) : flat env.hashPair fuel l ≠ [] := by
  cases fuel with
  | zero => exact hl
  | succ fuel =>
    rw [flat]
    split_ifs
    · simp [hl]
    · exact hl

lemma getLastD_vMerkleTree (b : CBlock) :
    (vMerkleTree env b).getLastD 0 = buildMerkleTree env b := by
  have hflat : ∀ (fuel : ℕ) (l : List ℕ), l.length ≤ 2 ^ fuel →
      (flat env.hashPair fuel l).getLastD 0 = merkleRoot env fuel l := by
    intro fuel
    induction fuel with
    | zero =>
      intro l hl
      match l, hl with
      | [], _ => rfl
      | [a], _ => rfl
      | a :: b :: l, hl => simp at hl
    | succ fuel ih =>
      intro l hl
      match l, hl with
      | [], _ => rfl
      | [a], _ => rfl
      | a :: b :: l, hl =>
        have hne : level env.hashPair (a :: b :: l) ≠ [] := cons_ne_nil _ _
        have hlen : (level env.hashPair (a :: b :: l)).length ≤ 2 ^ fuel := by
          rw [length_level]
          omega
        rw [merkleRoot, merkleLevel_eq, ← ih _ hlen, flat, if_pos (by simp),
          getLastD_eq_getLast?, getLastD_eq_getLast?,
          List.getLast?_append_of_ne_nil _ (flat_ne_nil hne)]
  rw [vMerkleTree_eq, hflat _ _ (by rw [length_map]; exact Nat.lt_two_pow_self.le)]
  rfl

/-! ### The branch leads to the root -/

section Verify

variable {p : ℕ}

lemma min_xorOne (hl : 1 < l.length) : (pre.length + min (xorOne p) ((l.length : ℤ) - 1)).toNat =
    pre.length + min (sibling p) (l.length - 1) := by
  unfold xorOne sibling
  split_ifs <;> omega

lemma merkleBranchFrom_eq (pre : List ℕ) (fuel : ℕ) (hp : p < l.length) :
    merkleBranchFrom (pre ++ flat env.hashPair fuel l) fuel l.length pre.length p =
      branch env.hashPair fuel l p := by
  induction fuel generalizing pre l p with
  | zero => rfl
  | succ fuel ih =>
    rw [merkleBranchFrom, branch]
    by_cases hone : 1 < l.length
    · have hlt : min (sibling p) (l.length - 1) < l.length := by omega
      have hhalf : p / 2 < (level env.hashPair l).length := by
        rw [length_level]
        omega
      have hnext := ih (pre ++ l) hhalf
      rw [length_level, length_append, append_assoc] at hnext
      have hsib : (pre ++ (l ++ flat env.hashPair fuel (level env.hashPair l))).getD
          (pre.length + min (sibling p) (l.length - 1)) 0 = l[min (sibling p) (l.length - 1)] := by
        rw [getD_append_right _ _ _ _ (by omega), getD_append _ _ _ _ (by omega),
          Nat.add_sub_cancel_left, getD_eq_getElem _ _ hlt]
      rw [if_pos hone, if_pos hone, flat, if_pos hone]
      dsimp only
      rw [min_xorOne hone, hsib, List.getElem?_eq_getElem hlt, Option.toList_some,
        singleton_append, ← hnext]
      rfl
    · rw [if_neg hone, if_neg hone]

lemma climbBranch_eq (hash : ℕ) (vMerkleBranch : List ℕ) :
    climbBranch env hash p vMerkleBranch = climb env.hashPair hash p vMerkleBranch := by
  induction vMerkleBranch generalizing hash p with
  | nil => rfl
  | cons s r ih =>
    have hodd : (p : ℤ) % 2 = 1 ↔ p % 2 = 1 := by omega
    rw [climbBranch, climb, ← ih, if_congr hodd rfl rfl]
    rfl

/-- **Merkle branches verify**: the branch of a transaction leads from its hash to the root,
whether or not the array had been built before. -/
theorem checkMerkleBranch_getMerkleBranch (env : Env) (b : CBlock) {cached : List ℕ}
    (hcached : cached = [] ∨ cached = vMerkleTree env b) {i : ℕ} {tx : CTransaction}
    (hi : b.vtx[i]? = some tx) :
    checkMerkleBranch env (env.hashTx tx) (getMerkleBranch env b cached i) i =
      (vMerkleTree env b).getLastD 0 := by
  have htree : (if cached = [] then vMerkleTree env b else cached) = vMerkleTree env b := by
    rcases hcached with rfl | rfl
    · rw [if_pos rfl]
    · exact ite_eq_left_iff.mpr fun _ => rfl
  obtain ⟨hlt, -⟩ := List.getElem?_eq_some_iff.mp hi
  have hlen : (b.vtx.map env.hashTx).length = b.vtx.length := length_map _
  have hleaf : (b.vtx.map env.hashTx)[i]? = some (env.hashTx tx) := by
    rw [List.getElem?_map, hi, Option.map_some]
  have hpow : (b.vtx.map env.hashTx).length ≤ 2 ^ b.vtx.length := by
    rw [hlen]
    exact Nat.lt_two_pow_self.le
  have hbranch : merkleBranchFrom (flat env.hashPair b.vtx.length (b.vtx.map env.hashTx))
      b.vtx.length (b.vtx.map env.hashTx).length 0 i =
      branch env.hashPair b.vtx.length (b.vtx.map env.hashTx) i :=
    merkleBranchFrom_eq [] b.vtx.length (hlen.symm ▸ hlt)
  have hroot := levels_climb_branch (f := env.hashPair) hpow hleaf
  rw [hlen, levels_buildMerkleTree (ne_nil_of_length_pos (by omega)),
    singleton_inj] at hroot
  rw [hlen, ← vMerkleTree_eq] at hbranch
  have hne : (i : ℤ) ≠ -1 := by omega
  rw [checkMerkleBranch, if_neg hne, getMerkleBranch, htree, hbranch, climbBranch_eq, ← hroot,
    getLastD_vMerkleTree]

end Verify

end

open Toy in
/-- The last of three transactions, which is its own sibling. -/
theorem checkMerkleBranch_last :
    let b := treeBlock 1 [register alice key1, register (ascii "b") key2]
    checkMerkleBranch treeEnv (treeEnv.hashTx (register (ascii "b") key2))
      (getMerkleBranch treeEnv b [] 2) 2 = (vMerkleTree treeEnv b).getLastD 0 :=
  checkMerkleBranch_getMerkleBranch (i := 2) treeEnv _ (Or.inl rfl) rfl

end FreechCore
