import Mathlib.Data.List.Find
import FreechCore.Registry.Lookups
import FreechCore.Registry.Judge

/-!
Connecting a block and disconnecting it again. The two do not give back the index itself: a
registration leaves an entry under the height of its block, and a name that was new keeps its
newest entry. Yet no lookup can tell. A block that is not on the chain ends every walk that
comes to it, and the key under which the old entry was saved lies above all keys that a walk
on the chain goes through.
-/

namespace FreechCore

open BackLink Loop Option

/-- The node has `A` as its active chain, its index points at registrations of stored blocks, its
undo data fits its blocks, and every lookup returns what `A` has. -/
structure Node.Agrees (n : Node) (env : Env) (A : List ℕ) : Prop where
  tree : n.ledger.Tree env
  sound : n.ledger.Sound env n.txIndex
  chain : n.ledger.Chain A
  vec : n.vBlockIndexByHeight = A.reverse.map some
  best : n.nBestHeight = (A.length : ℤ) - 1
  undo : ∀ h p b k, n.ledger.Stored env h p b → n.undo h = some k → k + 1 = b.vtx.length
  looksUp : n.LooksUp env A

section Agrees

variable {env : Env} {fuel : ℕ} {now : ℤ} {n n' : Node} {A : List ℕ} {x : ℕ} {p : CBlockIndex}
variable {b : CBlock} {u : Bytes} {view view' : Option ℕ} {tx : CTransaction} {res : Check}

lemma Intact.agrees (I : Intact env n A) : n.Agrees env A :=
  ⟨I.settled.working.tree, I.settled.working.sound, I.settled.working.chainA,
    I.settled.working.vec, I.settled.working.best, I.settled.working.undo, I.looksUp⟩

lemma Node.LooksUp.right (h : n.LooksUp env A) (u : Bytes) : n.Right env A u := by
  intro fuel k r hg
  obtain ⟨f, hf⟩ := h u k
  exact getTransaction_unique hg (hf f le_rfl)

namespace Node.Agrees

section

variable (h : n.Agrees env A)

include h

lemma ht_lt {y : ℕ} (hy : y ∈ A) : n.ledger.ht y < A.length := by
  have := h.chain.height_lt_length h.tree hy
  unfold Ledger.ht
  omega

lemma latest_above (u : Bytes) :
    n.ledger.latest u A A.length = n.ledger.latest u A n.nBestHeight := by
  unfold Ledger.latest
  congr 1
  refine List.find?_congr fun y hy => ?_
  have hlt := h.ht_lt hy
  have h1 : n.ledger.ht y ≤ (A.length : ℤ) := hlt.le
  have h2 : n.ledger.ht y ≤ n.nBestHeight := by rw [h.best]; omega
  simp [h1, h2]

lemma checkOverwriteTx_eq
    (hc : checkOverwriteTx env fuel n A.length tx = some (n', res)) : n' = n := by
  obtain ⟨o, ho, ho'⟩ := checkOverwriteTx_returns hc
  have hbest := h.looksUp.right _ _ _ _ ho
  rw [heightBound_neg] at hbest
  cases o with
  | none =>
    rw [checkOverwriteTx_hidden ho, some.injEq, Prod.mk.injEq] at hc
    exact hc.1.symm
  | some f =>
    obtain ⟨o', hH⟩ := ho' (by simp)
    have hat := h.looksUp.right _ _ _ _ hH
    rw [heightBound_of_nonneg (by omega), h.latest_above, ← hbest] at hat
    subst hat
    rw [checkOverwriteTx_found ho hH, some.injEq, Prod.mk.injEq] at hc
    exact hc.1.symm

lemma checkOverwrite_eq {l : List CTransaction}
    (hc : checkOverwrite env fuel A.length n l = some (n', .ok ())) : n' = n := by
  induction l with
  | nil =>
    rw [checkOverwrite, some.injEq, Prod.mk.injEq] at hc
    exact hc.1.symm
  | cons tx l ih =>
    unfold checkOverwrite at hc
    cases h₁ : checkOverwriteTx env fuel n A.length tx with
    | none => simp [h₁] at hc
    | some r =>
      obtain ⟨m, chk⟩ := r
      obtain rfl := h.checkOverwriteTx_eq h₁
      cases chk with
      | error f => simp [h₁] at hc
      | ok v =>
        simp only [h₁] at hc
        exact ih hc

lemma isInMainChain_iff {y : ℕ} : n.isInMainChain y = true ↔ y ∈ A :=
  h.chain.isInMainChain_iff h.tree h.vec

lemma not_mem_of_off
    (hoff : ∀ y, n.entries env u (-1) = some y → n.isInMainChain y = false) {k : ℤ} {z : ℕ}
    (hz : n.entries env u k = some z) : n.isInMainChain z = false := by
  rw [← Bool.not_eq_true, h.isInMainChain_iff]
  intro hzA
  have hnone : getTransaction env 1 n u (-1) = some none := by
    rw [getTransaction_eq h.tree h.sound, walk_off hoff]
    rfl
  have hlatest := h.looksUp.right _ _ _ _ hnone
  -- the registration would be found at the best height
  have hle : n.ledger.ht z ≤ n.nBestHeight := by
    have := h.ht_lt hzA
    rw [h.best]
    omega
  exact Ledger.latest_ne_none hzA (h.sound.registers hz).2 hle hlatest.symm

section

variable (B : n.ledger.Stored env x p b) (hx : n.ledger.Chain (x :: A))

include B hx

lemma walk_eq {e : ℤ → Option ℕ}
    (he : e = if n.ledger.registers u x
      then BackLink.disconnect n.ledger.ht (connect n.ledger.ht (n.entries env u) x) x
      else n.entries env u) (k : ℤ) (g : ℕ) :
    doWhile (walkStep n.ledger.ht e n.isInMainChain k) g (-1) =
      doWhile (walkStep n.ledger.ht (n.entries env u) n.isInMainChain k) g (-1) := by
  have hht := hx.ht_eq h.tree
  have hnotin : x ∉ A := fun hxA => by
    have := h.ht_lt hxA
    omega
  have hoff : n.isInMainChain x = false := by
    rw [← Bool.not_eq_true, h.isInMainChain_iff]
    exact hnotin
  split_ifs at he with hu
  · rw [he]
    refine walk_disconnect_connect (h.tree.height_pos B.index hu) hoff (fun y hy => ?_)
      (fun hoff' y hy => h.not_mem_of_off hoff' hy) g
    rw [hht]
    exact h.ht_lt (h.isInMainChain_iff.mp hy)
  · rw [he]

lemma connectBlock_ok
    (hc : connectBlock env fuel now n view x p b false = some (n', view', .ok ())) :
    p.pprev = view ∧ view' = some x ∧ b.Checked ∧ n'.ledger = n.ledger ∧
      n'.txIndex = n.connected p b ∧ ∃ k, n'.undo x = some k ∧ k + 1 = b.vtx.length := by
  have hroot := hx.pprev_ne_none B h.chain.ne_nil
  have hg : getHash env b ≠ hashGenesisBlock env := by
    rw [B.hash]
    exact fun e => hroot ((h.tree.root_iff B.index).mpr e)
  obtain ⟨n₁, C, hview, hn'⟩ := FreechCore.connectBlock_ok hg hc
  have hover := C.overwrite
  rw [B.height_eq h.tree hx] at hover
  obtain rfl := h.checkOverwrite_eq hover
  obtain ⟨-, hF, U⟩ := Undoable.connectBlock (D := []) ⟨by simp, h.undo⟩ h.tree B hroot hc
  have B' : n'.ledger.Stored env x p b := hF.ledger.symm ▸ B
  obtain ⟨k, hk⟩ := isSome_iff_exists.mp (U.solid x (by simp) p b B' hroot).undo
  refine ⟨C.parent, hview, checkBlock_checked C.check, hF.ledger, ?_, k, hk, U.undo x p b k B' hk⟩
  rw [hn', Node.connected, ← (writeUndo_written n₁ x b.nUndo).txIndex]
  rfl

end

end

end Node.Agrees

def Node.withVector (n : Node) (vec : List (Option ℕ)) (height : ℤ) : Node :=
  { n with vBlockIndexByHeight := vec, nBestHeight := height }

/-- **Connecting a block and disconnecting it again** goes through, and every lookup then returns
what it returned before, whatever the block registers and whatever the main-chain vector is in
between. -/
theorem getTransaction_disconnect_connect (h : n.Agrees env A) (B : n.ledger.Stored env x p b)
    (hx : n.ledger.Chain (x :: A))
    (hc : connectBlock env fuel now n view x p b false = some (n', view', .ok ()))
    (vec : List (Option ℕ)) (height : ℤ) :
    ∃ m, disconnectBlock (n'.withVector vec height) view' x p b false = some (m, view, .ok ()) ∧
      ∀ g u k, getTransaction env g (m.withVector n.vBlockIndexByHeight n.nBestHeight) u k =
        getTransaction env g n u k := by
  obtain ⟨hview, hview', hb, hL, hidx, j, hj, hlen⟩ := h.connectBlock_ok B hx hc
  have B' : n'.ledger.Stored env x p b := hL.symm ▸ B
  have S' : n'.ledger.Sound env n'.txIndex := by
    rw [hL, hidx]
    exact sound_connected B hb h.sound
  have hrun := disconnectBlock_ok (n := n'.withVector vec height) (p := p) hview' hj hlen
  rw [hview] at hrun
  refine ⟨_, hrun, fun g u k => ?_⟩
  -- the node at the end, with its own lookups as walks
  set r := Node.withVector { n'.withVector vec height with
    txIndex := (n'.withVector vec height).disconnected b } n.vBlockIndexByHeight n.nBestHeight
  have hLr : r.ledger = n.ledger := hL
  have Tr : r.ledger.Tree env := hLr.symm ▸ h.tree
  have Sr : r.ledger.Sound env r.txIndex := sound_disconnected S'
  have hmain : r.isInMainChain = n.isInMainChain := by
    funext y
    rw [Bool.eq_iff_iff, h.isInMainChain_iff]
    exact Ledger.Chain.isInMainChain_iff (hLr.symm ▸ h.chain) Tr h.vec
  have he : r.entries env u = if n.ledger.registers u x
      then disconnect n.ledger.ht (connect n.ledger.ht (n.entries env u) x) x
      else n.entries env u := by
    have hc' : n'.entries env u = if n.ledger.registers u x
        then connect n.ledger.ht (n.entries env u) x else n.entries env u := by
      rw [← entries_written B hb h.sound u, ← hidx, ← hL]
      rfl
    have hd : r.entries env u = if n'.ledger.registers u x
        then disconnect n'.ledger.ht (n'.entries env u) x else n'.entries env u :=
      entries_restored B' hb S' u
    rw [hd, hc', hL]
    split_ifs <;> rfl
  rw [getTransaction_eq Tr Sr, getTransaction_eq h.tree h.sound, hLr, hmain]
  exact congrArg _ (h.walk_eq B hx he _ g)

end Agrees

namespace Toy

/-- A block that replaces the key of a user and registers another user. -/
def replacing : CBlock := block 3 2 2 spam [replaceKey alice key2 key1, register (ascii "b") key1]

/-- The index entry of the block and the node that connects it. -/
def connectReplacing (n : Node) : Option (CBlockIndex × Node) :=
  (n.index 3).bind fun p =>
    match connectBlock env 5 10000000 n (some 2) 3 p replacing false with
    | some (n', _, .ok ()) => some (p, n')
    | _ => none

lemma connectReplacing_eq {n n' : Node} {p : CBlockIndex}
    (h : connectReplacing n = some (p, n')) : n.index 3 = some p ∧
      ∃ view', connectBlock env 5 10000000 n (some 2) 3 p replacing false =
        some (n', view', .ok ()) := by
  obtain ⟨q, hq, hc⟩ := bind_eq_some_iff.mp h
  split at hc
  · rename_i m view' hm
    cases hc
    exact ⟨hq, view', hm⟩
  · cases hc

end Toy

open Toy in
/-- A node replaces the key of a user and takes the replacement back. -/
theorem getTransaction_replacing_back : ∃ n A p n' view', n.Agrees Toy.env A ∧
    n.ledger.Stored Toy.env 3 p replacing ∧ n.ledger.Chain (3 :: A) ∧
    connectBlock Toy.env 5 10000000 n (some 2) 3 p replacing false = some (n', view', .ok ()) ∧
    getTransaction Toy.env 5 (n'.withVector [some 1, some 2, some 3] 2) alice (-1) =
      some (some (replaceKey alice key2 key1, 3)) ∧
    ∃ m, disconnectBlock (n'.withVector [some 1, some 2, some 3] 2) view' 3 p replacing false =
        some (m, some 2, .ok ()) ∧
      ∀ g u k, getTransaction Toy.env g
        (m.withVector n.vBlockIndexByHeight n.nBestHeight) u k = getTransaction Toy.env g n u k := by
  have h : userInTip.map (fun n => ((n.store Toy.env replacing ⟨0, 3⟩).pindexBest,
      fitsIn Toy.env n replacing)) = some (some 2, true) := by
    decide +kernel
  have h' : (userInTip.bind fun n => connectReplacing (n.store Toy.env replacing ⟨0, 3⟩)).map
      (fun r => (r.1.pprev, r.1.blockPos, r.1.nHeight)) = some (some 2, ⟨0, 3⟩, 2) := by
    decide +kernel
  have h'' : (userInTip.bind fun n => connectReplacing (n.store Toy.env replacing ⟨0, 3⟩)).map
      (fun r => getTransaction Toy.env 5 (r.2.withVector [some 1, some 2, some 3] 2) alice (-1)) =
        some (some (some (replaceKey alice key2 key1, 3))) := by
    decide +kernel
  obtain ⟨n₀, hn₀, he⟩ := map_eq_some_iff.mp h
  rw [Prod.mk.injEq] at he
  obtain ⟨hbest, hfit⟩ := he
  rw [hn₀, bind_some] at h' h''
  obtain ⟨⟨p, n'⟩, hr, hp⟩ := map_eq_some_iff.mp h'
  rw [hr, map_some, some.injEq] at h''
  simp only [Prod.mk.injEq] at hp
  obtain ⟨hprev, hpos, hheight⟩ := hp
  obtain ⟨hindex, view', hc⟩ := connectReplacing_eq hr
  have hreach := (reached_userInTip hn₀).steps (.single (.store (fitsIn_of_eq hfit)))
  obtain ⟨A, I⟩ := hreach.intact
  obtain ⟨l, rfl⟩ := List.head?_eq_some_iff.mp (I.settled.active.best.symm.trans hbest)
  have B : (n₀.store Toy.env replacing ⟨0, 3⟩).ledger.Stored Toy.env 3 p replacing :=
    ⟨hindex, by rw [hpos]; exact (store_blockFiles _).trans (if_pos rfl), by decide,
      by rw [hheight]; rfl⟩
  have hx := Ledger.Chain.cons hindex hprev I.settled.active.chain
  exact ⟨_, _, p, n', view', I.agrees, B, hx, hc, h'',
    getTransaction_disconnect_connect I.agrees B hx hc _ _⟩

end FreechCore
