import FreechCore.Core.Compact
import FreechCore.Core.ToyEnv
import FreechCore.Registry.Ledger

/-!
How far the target moves from one block to the next. Every 2016 blocks the target is multiplied
with the time the period took, kept within a factor of four, and divided by the time it should
have taken; in between it stays. Writing the result in compact form makes it a little smaller.
-/

namespace FreechCore

open List

variable {nBits : ℕ}

section

variable (env : Env) (span : ℤ) (h : 0 ≤ setCompact nBits)

include h

lemma exists_retarget_eq :
    ∃ bnNew : ℤ, retarget env nBits span = getCompact (min (env.proofOfWorkLimit : ℤ) bnNew) ∧
      setCompact nBits / 4 ≤ bnNew ∧ bnNew ≤ setCompact nBits * 4 := by
  set bound : ℤ → ℤ := fun span =>
    let span := if span < nTargetTimespan / 4 then nTargetTimespan / 4 else span
    if nTargetTimespan * 4 < span then nTargetTimespan * 4 else span with hbound
  have hlow : nTargetTimespan / 4 ≤ bound span := by
    simp only [hbound, nTargetTimespan]
    split_ifs <;> omega
  have hhigh : bound span ≤ nTargetTimespan * 4 := by
    simp only [hbound]
    split_ifs <;> omega
  have h0 : 0 ≤ bound span := le_trans (by decide) hlow
  refine ⟨(setCompact nBits * bound span).tdiv nTargetTimespan, ?_, ?_, ?_⟩
  · rw [min_def_lt]
    split_ifs with hlim
    · rw [retarget, if_pos hlim]
    · rw [retarget, if_neg hlim]
  · -- the target timespan is a multiple of four
    rw [Int.tdiv_eq_ediv_of_nonneg (mul_nonneg h h0), Int.le_ediv_iff_mul_le (by decide)]
    have hquarter : setCompact nBits / 4 * 4 ≤ setCompact nBits := Int.ediv_mul_le _ (by decide)
    calc setCompact nBits / 4 * nTargetTimespan
        = setCompact nBits / 4 * 4 * (nTargetTimespan / 4) := by rw [nTargetTimespan]; omega
      _ ≤ setCompact nBits * (nTargetTimespan / 4) :=
          mul_le_mul_of_nonneg_right hquarter (by decide)
      _ ≤ setCompact nBits * bound span := mul_le_mul_of_nonneg_left hlow h
  · rw [Int.tdiv_eq_ediv_of_nonneg (mul_nonneg h h0)]
    refine Int.ediv_le_of_le_mul (by decide) ?_
    calc setCompact nBits * bound span ≤ setCompact nBits * (nTargetTimespan * 4) :=
          mul_le_mul_of_nonneg_left hhigh h
      _ = setCompact nBits * 4 * nTargetTimespan := by ring

lemma retarget_le : 0 ≤ setCompact (retarget env nBits span) ∧
      setCompact (retarget env nBits span) ≤ setCompact nBits * 4 := by
  obtain ⟨bnNew, hr, hlow, hhigh⟩ := exists_retarget_eq env span h
  have h0 : 0 ≤ min (env.proofOfWorkLimit : ℤ) bnNew := le_min (by omega) (by omega)
  have hle := setCompact_getCompact_le h0
  rw [hr]
  exact ⟨setCompact_getCompact_nonneg h0, by omega⟩

lemma le_retarget (hlim : setCompact nBits ≤ env.proofOfWorkLimit) :
    (2 ^ 15 - 1) * (setCompact nBits / 4) ≤ 2 ^ 15 * setCompact (retarget env nBits span) ∧
      setCompact (retarget env nBits span) ≤ env.proofOfWorkLimit := by
  obtain ⟨bnNew, hr, hlow, hhigh⟩ := exists_retarget_eq env span h
  have hmin : setCompact nBits / 4 ≤ min (env.proofOfWorkLimit : ℤ) bnNew :=
    le_min (by omega) hlow
  have h0 : 0 ≤ min (env.proofOfWorkLimit : ℤ) bnNew := le_trans (by omega) hmin
  have hloss := setCompact_getCompact_loss h0
  have hle := setCompact_getCompact_le h0
  rw [hr]
  exact ⟨by omega, by omega⟩

end

lemma Node.ancestor_eq {n : Node} {q : ℕ} {l : List ℕ} (hl : n.ledger.Chain (q :: l)) (k : ℕ) :
    n.ancestor k q = (q :: l)[k]? := by
  induction k generalizing q l with
  | zero => rfl
  | succ k ih =>
    unfold Node.ancestor
    have hpp : n.pprev q = n.ledger.pprev q := rfl
    cases hl with
    | root hp hq =>
      rw [hpp, Ledger.pprev, hp, Option.bind_some, hq]
      rfl
    | cons hp hq hl =>
      rw [hpp, Ledger.pprev, hp, Option.bind_some, hq, Option.bind_some, ih hl]
      rfl

/-- **Retargeting is bounded.** On the main network the target of the block after a chain is
within the limit, at most four times the target of the last block, and not below a quarter of it
but for what the compact form drops, whatever the times of the blocks are. -/
theorem getNextWorkRequired_bounded {env : Env} {n : Node} (htest : env.testNet = false)
    {q : ℕ} {l : List ℕ} {pq : CBlockIndex} (hl : n.ledger.Chain (q :: l))
    (hheight : pq.nHeight = l.length)
    (hlow : 2 ^ 24 ≤ setCompact pq.nBits) (hlim : setCompact pq.nBits ≤ env.proofOfWorkLimit)
    (nTime : ℕ) :
    ∃ nBits, getNextWorkRequired env n q pq nTime = some nBits ∧
      0 < setCompact nBits ∧ setCompact nBits ≤ env.proofOfWorkLimit ∧
      setCompact nBits ≤ 4 * setCompact pq.nBits ∧
      (2 ^ 15 - 1) * (setCompact pq.nBits / 4) ≤ 2 ^ 15 * setCompact nBits := by
  unfold getNextWorkRequired
  simp only [hheight, htest, Bool.false_eq_true, if_false]
  by_cases hint : (l.length + 1) % nInterval ≠ 0
  · rw [if_pos hint]
    exact ⟨_, rfl, by omega, hlim, by omega, by omega⟩
  · -- a whole period lies below the last block
    rw [if_neg hint]
    have hlong : nInterval - 1 < (q :: l).length := by
      rw [length_cons]
      unfold nInterval at hint ⊢
      omega
    have hfirst := List.getElem?_eq_getElem hlong
    obtain ⟨pf, hpf⟩ := hl.index_eq (getElem_mem hlong)
    have hspan := le_retarget env ((pq.nTime : ℤ) - pf.nTime) (by omega) hlim
    have hgrow := retarget_le env ((pq.nTime : ℤ) - pf.nTime) (by omega : 0 ≤ setCompact pq.nBits)
    refine ⟨retarget env pq.nBits ((pq.nTime : ℤ) - pf.nTime), ?_, by omega, hspan.2, by omega,
      hspan.1⟩
    rw [Node.ancestor_eq hl, hfirst, Option.bind_some, show n.index _ = some pf from hpf,
      Option.map_some]

namespace Toy

/-- The blocks of a chain that were all found at the same time. -/
def hastyEntry (h : ℕ) : CBlockIndex :=
  ⟨if h = 0 then none else some (h - 1), h, ⟨0, h⟩, 1, 2, 0, 0, 0x1f03ffff, h, 0, 0⟩

def hastyNode (k : ℕ) : Node :=
  { Node.start with
    mapBlockIndex := (List.range k).foldl (fun m h => m.insert h (hastyEntry h)) .empty }

lemma index_hastyNode (k h : ℕ) :
    (hastyNode k).index h = if h < k then some (hastyEntry h) else none := by
  induction k with
  | zero => rfl
  | succ k ih =>
    have hstep : (hastyNode (k + 1)).index h =
        if h = k then some (hastyEntry k) else (hastyNode k).index h := by
      unfold Node.index hastyNode
      rw [range_succ, foldl_append]
      exact StdMap.find?_insert _ k h _
    rw [hstep, ih]
    by_cases hk : h = k
    · rw [if_pos hk, if_pos (by omega), hk]
    · by_cases hlt : h < k
      · rw [if_neg hk, if_pos hlt, if_pos (by omega)]
      · rw [if_neg hk, if_neg hlt, if_neg (by omega)]

lemma chain_hastyNode {k h : ℕ} (hk : h < k) :
    (hastyNode k).ledger.Chain (h :: (List.range h).reverse) := by
  induction h with
  | zero => exact .root (p := hastyEntry 0) ((index_hastyNode k 0).trans (if_pos hk)) rfl
  | succ h ih =>
    rw [range_succ, reverse_append]
    exact .cons (p := hastyEntry (h + 1)) ((index_hastyNode k (h + 1)).trans (if_pos hk)) rfl
      (ih (by omega))

lemma ancestor_hastyNode {k h : ℕ} (hk : h < k) :
    ((hastyNode k).ancestor h h).bind (hastyNode k).index = some (hastyEntry 0) := by
  have hlast : (h :: (List.range h).reverse)[h]? = some 0 := by
    have hlist : h :: (List.range h).reverse = (List.range (h + 1)).reverse := by
      rw [range_succ, reverse_append, reverse_singleton, singleton_append]
    rw [hlist, List.getElem?_reverse (by simp), length_range, Nat.add_sub_cancel, Nat.sub_self,
      List.getElem?_range (by omega)]
  rw [Node.ancestor_eq (chain_hastyNode hk), hlast]
  exact (index_hastyNode k 0).trans (if_pos (by omega))

end Toy

open Toy in
/-- A period of 2016 blocks that took no time: the target becomes a quarter, and the compact form
drops the two bits that do not fit. -/
theorem getNextWorkRequired_hasty :
    getNextWorkRequired env (hastyNode 2016) 2015 (hastyEntry 2015) 0 = some 0x1f00ffff ∧
      (2 ^ 15 - 1) * (setCompact 0x1f03ffff / 4) ≤ 2 ^ 15 * setCompact 0x1f00ffff := by
  have hbits : retarget env 0x1f03ffff 0 = 0x1f00ffff := by decide +kernel
  have hnext : getNextWorkRequired env (hastyNode 2016) 2015 (hastyEntry 2015) 0 =
      some 0x1f00ffff := by
    unfold getNextWorkRequired
    rw [if_neg (by decide), show nInterval - 1 = 2015 from rfl,
      ancestor_hastyNode (Nat.lt_succ_self 2015), Option.map_some, ← hbits]
    rfl
  obtain ⟨nBits, hnext', -, -, -, hlow⟩ : ∃ nBits,
      getNextWorkRequired env (hastyNode 2016) 2015 (hastyEntry 2015) 0 = some nBits ∧ _ :=
    getNextWorkRequired_bounded rfl (chain_hastyNode (Nat.lt_succ_self 2015)) (by simp [hastyEntry])
      (by decide +kernel) (by decide +kernel) 0
  rw [hnext, Option.some.injEq] at hnext'
  exact ⟨hnext, hnext' ▸ hlow⟩

end FreechCore
