import Mathlib.Data.Nat.Log
import FreechCore.Chain.MinWork

/-!
Block locators. A node tells another one where its chain is by some of its blocks: the last eleven,
then every second, every fourth and so on, and the genesis block. The other node goes on from the
first of them that is in its own main chain. The distances grow so slowly that this is at most
twice as far back as the block where the two chains part.
-/

namespace FreechCore

open List

variable {i : ℕ} {D : List ℕ} {n : Node} {env : Env}

/-- The loop of `CBlockLocator::Set` from the block `pindex` on, with `nHave` blocks in the
locator. As the heights here, `nStep` is not bounded; in the source it leaves the range of an
`int` only after the last round of a chain whose heights are in that range. -/
def Node.locatorLoop (n : Node) : ℕ → ℕ → ℕ → Option ℕ → List ℕ
  | 0, _, _, _ => []
  | _ + 1, _, _, none => []
  | rounds + 1, nStep, nHave, some pindex =>
    pindex :: n.locatorLoop rounds (if 10 < nHave + 1 then nStep * 2 else nStep) (nHave + 1)
      (n.ancestor nStep pindex)

/-- `CBlockLocator::Set`: every round goes back by a block or more. -/
def Node.setLocator (env : Env) (n : Node) (pindex : ℕ) : List ℕ :=
  n.locatorLoop (n.heightOf pindex + 1) 1 0 (some pindex) ++ [hashGenesisBlock env]

def Node.getBlockIndex (env : Env) (n : Node) (vHave : List ℕ) : ℕ :=
  (vHave.find? fun hash => n.mapBlockIndex.contains hash && n.isInMainChain hash).getD
    (hashGenesisBlock env)

/-! ### The distances -/

/-- How far back the block with number `i` of a locator is. -/
def distanceBack (i : ℕ) : ℕ := if i < 10 then i else 9 + 2 ^ (i - 10)

lemma distanceBack_succ (i : ℕ) : distanceBack (i + 1) = distanceBack i + 2 ^ (i - 10) := by
  unfold distanceBack
  rcases Nat.lt_trichotomy i 9 with h | rfl | h
  · rw [if_pos (by omega), if_pos (by omega), Nat.sub_eq_zero_of_le (by omega), pow_zero]
  · rfl
  · rw [if_neg (by omega), if_neg (by omega), Nat.succ_sub (by omega), pow_succ]
    omega

lemma distanceBack_lt_succ (i : ℕ) : distanceBack i < distanceBack (i + 1) := by
  have hstep := distanceBack_succ i
  have hpos := Nat.two_pow_pos (i - 10)
  omega

lemma distanceBack_mono : Monotone distanceBack :=
  monotone_nat_of_le_succ fun i => (distanceBack_lt_succ i).le

lemma distanceBack_succ_le (i : ℕ) : distanceBack (i + 1) ≤ 2 * (distanceBack i + 1) := by
  rw [distanceBack_succ]
  unfold distanceBack
  split_ifs with h
  · rw [Nat.sub_eq_zero_of_le (by omega), pow_zero]
    omega
  · omega

lemma distanceBack_le_two_mul {g : ℕ} (h : ∀ j < i, distanceBack j < g) :
    distanceBack i ≤ 2 * g := by
  cases i with
  | zero => exact Nat.zero_le _
  | succ j =>
    have hlast := h j (Nat.lt_succ_self j)
    have hnext := distanceBack_succ_le j
    omega

lemma lt_distanceBack_log (h : ℕ) : h + 1 < distanceBack (12 + Nat.log 2 (h + 1)) := by
  have hlog := Nat.lt_pow_succ_log_self (by decide : 1 < 2) (h + 1)
  have hexp : 12 + Nat.log 2 (h + 1) - 10 = (Nat.log 2 (h + 1)).succ + 1 := by omega
  rw [distanceBack, if_neg (by omega), hexp, pow_succ]
  omega

/-! ### The blocks of a locator -/

lemma Ledger.Chain.of_getElem? {L : Ledger} (hD : L.Chain D) {d q : ℕ} (hq : D[d]? = some q) :
    D.drop d = q :: D.drop (d + 1) ∧ L.Chain (q :: D.drop (d + 1)) := by
  obtain ⟨hlt, hget⟩ := List.getElem?_eq_some_iff.mp hq
  have hdrop : D.drop d = q :: D.drop (d + 1) := by rw [drop_eq_getElem_cons hlt, hget]
  refine ⟨hdrop, hdrop ▸ ?_⟩
  exact Ledger.Chain.of_append (l := D.take d) (by rwa [take_append_drop])
    (by rw [hdrop]; exact cons_ne_nil _ _)

lemma getElem?_distanceBack_eq_none (h : D.length ≤ distanceBack i) (k : ℕ) :
    D[distanceBack (i + k)]? = none :=
  List.getElem?_eq_none (h.trans (distanceBack_mono (Nat.le_add_right i k)))

lemma Node.getElem?_locatorLoop (hD : n.ledger.Chain D) {rounds : ℕ}
    (hr : D.length ≤ rounds + distanceBack i) (k : ℕ) :
    (n.locatorLoop rounds (2 ^ (i - 10)) i D[distanceBack i]?)[k]? = D[distanceBack (i + k)]? := by
  induction rounds generalizing i k with
  | zero => exact (getElem?_distanceBack_eq_none (by omega) k).symm
  | succ rounds ih =>
    cases hq : D[distanceBack i]? with
    | none => exact (getElem?_distanceBack_eq_none (List.getElem?_eq_none_iff.mp hq) k).symm
    | some q =>
      cases k with
      | zero => exact hq.symm
      | succ k =>
        obtain ⟨hdrop, hchain⟩ := hD.of_getElem? hq
        -- the walk goes on where the next block of the locator is
        have hback : n.ancestor (2 ^ (i - 10)) q = D[distanceBack (i + 1)]? := by
          rw [Node.ancestor_eq hchain, ← hdrop, List.getElem?_drop, ← distanceBack_succ]
        have hstep : (if 10 < i + 1 then 2 ^ (i - 10) * 2 else 2 ^ (i - 10)) =
            2 ^ (i + 1 - 10) := by
          split_ifs with h
          · rw [← pow_succ, Nat.succ_sub (by omega)]
          · rw [Nat.sub_eq_zero_of_le (by omega), Nat.sub_eq_zero_of_le (by omega)]
        have hgrow := distanceBack_lt_succ i
        rw [Node.locatorLoop, List.getElem?_cons_succ, hstep, hback, ih (by omega) k,
          show i + 1 + k = i + (k + 1) by omega]

section

variable (T : n.ledger.Tree env) {P : ℕ} {l : List ℕ} (hP : n.ledger.Chain (P :: l))

include T hP

lemma Node.setLocator_eq : ∃ V, n.setLocator env P = V ++ [hashGenesisBlock env] ∧
      ∀ k, V[k]? = (P :: l)[distanceBack k]? := by
  refine ⟨_, rfl, fun k => ?_⟩
  have hheight : n.heightOf P = l.length := hP.height T
  have hget : (n.locatorLoop (l.length + 1) (2 ^ (0 - 10)) 0 (P :: l)[distanceBack 0]?)[k]? =
      (P :: l)[distanceBack (0 + k)]? := Node.getElem?_locatorLoop hP (Nat.le_add_right _ _) k
  rw [Nat.zero_add] at hget
  rw [hheight]
  exact hget

lemma Node.length_setLocator_le : (n.setLocator env P).length ≤ 13 + Nat.log 2 (l.length + 1) := by
  obtain ⟨V, hV, hget⟩ := Node.setLocator_eq T hP
  have hlong := lt_distanceBack_log l.length
  have hend : V[12 + Nat.log 2 (l.length + 1)]? = none := by
    rw [hget, List.getElem?_eq_none_iff, length_cons]
    omega
  rw [hV, length_append, length_singleton]
  have := List.getElem?_eq_none_iff.mp hend
  omega

end

section

variable (T : n.ledger.Tree env) {A : List ℕ} (hA : n.ledger.Chain A)
  (hvec : n.vBlockIndexByHeight = A.reverse.map some)

include T hA hvec

lemma Node.find_locator_iff (x : ℕ) :
    (n.mapBlockIndex.contains x && n.isInMainChain x) = true ↔ x ∈ A := by
  rw [Bool.and_eq_true, hA.isInMainChain_iff T hvec, and_iff_right_iff_imp, StdMap.contains_iff]
  exact hA.index_eq

/-- **What the receiver answers**: the first block of the locator that is in its main chain. -/
lemma Node.getBlockIndex_cases (V : List ℕ) : ∃ i ≤ V.length, (V ++ [hashGenesisBlock env])[i]? =
        some (n.getBlockIndex env (V ++ [hashGenesisBlock env])) ∧
      n.getBlockIndex env (V ++ [hashGenesisBlock env]) ∈ A ∧
      ∀ j < i, ∀ x, V[j]? = some x → x ∉ A := by
  obtain ⟨r, hr⟩ : ∃ r, (V ++ [hashGenesisBlock env]).find?
      (fun x => n.mapBlockIndex.contains x && n.isInMainChain x) = some r := by
    rw [← Option.isSome_iff_exists, List.find?_isSome]
    exact ⟨_, by simp, (Node.find_locator_iff T hA hvec _).mpr (hA.getLast_root T)⟩
  have hfound : n.getBlockIndex env (V ++ [hashGenesisBlock env]) = r := by
    rw [Node.getBlockIndex, hr, Option.getD_some]
  obtain ⟨hrA, i, hi, hri, hbefore⟩ := List.find?_eq_some_iff_getElem.mp hr
  have hile : i ≤ V.length := by
    rw [length_append, length_singleton] at hi
    omega
  rw [hfound]
  refine ⟨i, hile, by rw [List.getElem?_eq_getElem hi, hri],
    (Node.find_locator_iff T hA hvec r).mp hrA, fun j hj x hx hxA => ?_⟩
  obtain ⟨hj', rfl⟩ := List.getElem?_eq_some_iff.mp hx
  have hmiss := hbefore j hj
  rw [getElem_append_left hj', (Node.find_locator_iff T hA hvec _).mpr hxA] at hmiss
  cases hmiss

end

lemma heightOf_eq_of_mem_base {L L' : Ledger} (T : L.Tree env) (T' : L'.Tree env)
    {con dis base : List ℕ} (hD : L.Chain (con ++ base)) (hA : L'.Chain (dis ++ base)) {r : ℕ}
    (hr : r ∈ base) : L'.heightOf r = L.heightOf r := by
  obtain ⟨lo, hi, rfl⟩ := append_of_mem hr
  rw [← append_assoc] at hD hA
  rw [(hA.of_append (cons_ne_nil _ _)).height T', (hD.of_append (cons_ne_nil _ _)).height T]

/-- **Block locators find the fork closely.** The chain of `P` at the sender and the main chain of
the receiver share `base`, whose tip has height `f`. The receiver finds a block of `base`, at most
twice as far below `P` as the fork, and the locator is short. -/
theorem getBlockIndex_setLocator {env : Env} {s n : Node} (hs : s.ledger.Tree env)
    (hn : n.ledger.Tree env) {P f : ℕ} {l con dis base : List ℕ} (hP : s.ledger.Chain (P :: l))
    (hA : n.ledger.Chain (dis ++ base))
    (hvec : n.vBlockIndexByHeight = (dis ++ base).reverse.map some)
    (hshare : P :: l = con ++ base) (hf : base.length = f + 1)
    (hcon : ∀ x ∈ con, x ∉ dis ++ base) :
    n.getBlockIndex env (s.setLocator env P) ∈ base ∧
      s.heightOf P - 2 * (s.heightOf P - f) ≤
        s.heightOf (n.getBlockIndex env (s.setLocator env P)) ∧
      n.heightOf (n.getBlockIndex env (s.setLocator env P)) =
        s.heightOf (n.getBlockIndex env (s.setLocator env P)) ∧
      (s.setLocator env P).length ≤ 13 + Nat.log 2 (s.heightOf P + 1) := by
  have hheight : s.heightOf P = l.length := hP.height hs
  have hlen := Node.length_setLocator_le hs hP
  have hcount : l.length + 1 = con.length + (f + 1) := by
    rw [← hf, ← length_append, ← hshare, length_cons]
  obtain ⟨V, hV, hget⟩ := Node.setLocator_eq hs hP
  obtain ⟨i, hi, hr, hrA, hbefore⟩ := Node.getBlockIndex_cases hn hA hvec V
  rw [← hV] at hr hrA
  obtain ⟨r, hfound⟩ : ∃ r, n.getBlockIndex env (s.setLocator env P) = r := ⟨_, rfl⟩
  rw [hfound] at hr hrA ⊢
  -- it is a block of the chain of `P`, so it lies in the shared part
  have hrD : r ∈ P :: l := by
    rw [hV] at hr
    rcases mem_append.mp (mem_of_getElem? hr) with hx | hx
    · obtain ⟨k, hk⟩ := mem_iff_getElem?.mp hx
      exact mem_of_getElem? ((hget k).symm.trans hk)
    · exact mem_singleton.mp hx ▸ hP.getLast_root hs
  have hrbase : r ∈ base := by
    rw [hshare, mem_append] at hrD
    exact hrD.resolve_left fun hc => hcon r hc hrA
  -- a block of the locator that was missed lies above the fork
  have hdist : distanceBack i ≤ 2 * con.length := by
    refine distanceBack_le_two_mul fun j hj => ?_
    have hx : V[j]? = some V[j] := List.getElem?_eq_getElem (by omega)
    by_contra hge
    have hmiss := hbefore j hj _ hx
    rw [hget, hshare, List.getElem?_append_right (by omega)] at hx
    exact hmiss (mem_append_right _ (mem_of_getElem? hx))
  refine ⟨hrbase, ?_, heightOf_eq_of_mem_base hs hn (hshare ▸ hP) hA hrbase, hheight ▸ hlen⟩
  rcases Nat.lt_or_eq_of_le hi with hlt | heq
  · rw [hV, List.getElem?_append_left hlt, hget] at hr
    have hrheight : s.heightOf r = ((P :: l).drop (distanceBack i + 1)).length :=
      (hP.of_getElem? hr).2.height hs
    rw [length_drop, length_cons] at hrheight
    omega
  · -- the distances ran past the chain, so the bound is nothing
    have hend : (P :: l)[distanceBack i]? = none := by
      rw [← hget, heq, List.getElem?_length]
    have hshort := List.getElem?_eq_none_iff.mp hend
    rw [length_cons] at hshort
    omega

namespace Toy

def upTo (last : ℕ) : List CBlock :=
  [block last 3 3 spam [], block 3 2 2 spam [], block 2 1 1 spam []]

end Toy

open Toy in
/-- Two nodes that part in their last blocks. -/
theorem getBlockIndex_setLocator_lastBlock : ∃ s n, Delivered Toy.env (upTo 5) s ∧
    Delivered Toy.env (upTo 4) n ∧ s.Active [5, 3, 2, 1] ∧ n.Active [4, 3, 2, 1] ∧
      n.getBlockIndex Toy.env (s.setLocator Toy.env 5) ∈ [3, 2, 1] ∧
      1 ≤ s.heightOf (n.getBlockIndex Toy.env (s.setLocator Toy.env 5)) := by
  obtain ⟨s, hs, hsA⟩ := Option.map_eq_some_iff.mp (by decide +kernel :
    (deliverAll (upTo 5)).map activeOf = some (some [5, 3, 2, 1]))
  obtain ⟨n, hn, hnA⟩ := Option.map_eq_some_iff.mp (by decide +kernel :
    (deliverAll (upTo 4)).map activeOf = some (some [4, 3, 2, 1]))
  have hS := active_of_activeOf hsA
  have hN := active_of_activeOf hnA
  have hs' := delivered_of_deliverAll hs
  have hn' := delivered_of_deliverAll hn
  have hTs := hs'.treeReached.judged.tree
  have hshare : [5, 3, 2, 1] = [5] ++ [3, 2, 1] := rfl
  have hA : n.ledger.Chain ([4] ++ [3, 2, 1]) := hN.chain
  obtain ⟨hmem, hheight, -⟩ := getBlockIndex_setLocator hTs hn'.treeReached.judged.tree hS.chain hA
    hN.vec hshare (rfl : [3, 2, 1].length = 2 + 1) (by decide)
  have h5 : s.heightOf 5 = 3 := hS.chain.height hTs
  rw [h5] at hheight
  exact ⟨s, n, hs', hn', hS, hN, hmem, hheight⟩

end FreechCore
