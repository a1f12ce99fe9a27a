import FreechCore.Checkpoint.Aligned

/-!
Is the soft checkpoint followed? `SetBestChain` refuses a branch that is shorter than the one
it is to replace, and the block of a soft checkpoint is older than the best block as a rule.
And `ConnectBestBlock` goes by work alone. So the block gets into the active chain, and stays
there, if it is not lower than the best block and all chains with more work go through it.
-/

namespace FreechCore

open Option Relation

/-- The block of the soft checkpoint can be followed: neither it nor an ancestor has failed,
and if it is not in the active chain, it is not lower than the best block and its chain can be
read back from disk. -/
structure Node.SoftCPWithin (n : Node) (env : Env) : Prop where
  unfailed : n.SoftCPUnfailed
  reach : ∀ l, n.ledger.Chain (n.lastSoftCP.2 :: l) → n.isInMainChain n.lastSoftCP.2 = false →
    n.nBestHeight ≤ n.heightOf n.lastSoftCP.2 ∧
      ∀ x ∈ n.lastSoftCP.2 :: l, n.readBlockFromDisk env x ≠ none

/-- Every candidate with more work than the best block descends from the block of the soft
checkpoint, once that is in the active chain. -/
def Node.SoftCPBacked (n : Node) : Prop :=
  n.isInMainChain n.lastSoftCP.2 = true → ∀ t ∈ n.setBlockIndexValid, ∀ l,
    n.ledger.Chain (t :: l) → (∀ a ∈ n.pindexBest, n.chainWork a < n.chainWork t) →
      n.lastSoftCP.2 ∈ t :: l

/-- Moves that leave the soft checkpoint as it is. -/
def StayMove (env : Env) (C F : Node → Prop) (n n' : Node) : Prop :=
  Move env C F n n' ∧ n'.lastSoftCP = n.lastSoftCP

section Followed

variable {env : Env} {fuel rounds : ℕ} {now : ℤ} {fIBD : Bool} {n n' n'' : Node} {A A' : List ℕ}

lemma Aligned.mem_of_leaves (S : Aligned env n A) (hC : n.SoftCPBacked)
    (hc : n.lastSoftCP.2 ∈ A) (hl : n.Leaves A A') : n.lastSoftCP.2 ∈ A' := by
  obtain ⟨x, m, t, l, rfl, ht, htl, ⟨hi, hhi⟩, hw⟩ := hl
  obtain ⟨a, A₀, rfl⟩ := List.exists_cons_of_ne_nil S.chain.ne_nil
  replace hw : n.chainWork a < n.chainWork x := hw a rfl
  have hxt : n.chainWork x ≤ n.chainWork t :=
    S.work.chainWork_le htl x (by rw [← hhi]; simp)
  have hmem : n.lastSoftCP.2 ∈ t :: l := by
    refine hC (S.isInMainChain_iff.mpr hc) t ht l htl fun b hb => ?_
    rw [S.best] at hb
    cases hb
    omega
  rw [← hhi] at hmem htl
  rcases List.mem_append.mp hmem with hmem | hmem
  · -- a block above `x` has more work than all of the old chain
    obtain ⟨p, q, rfl⟩ := List.append_of_mem hmem
    have hch : n.ledger.Chain (n.lastSoftCP.2 :: (q ++ x :: m)) := by
      refine Ledger.Chain.of_append (l := p) ?_ (by simp)
      simpa using htl
    have h1 := S.work.chainWork_le hch x (by simp)
    have h2 := S.work.chainWork_le S.chain _ hc
    omega
  · exact hmem

/-- **Once followed, always followed**: no move leaves the block of the soft checkpoint. -/
lemma Aligned.stay (S : Aligned env n A) (hc : n.lastSoftCP.2 ∈ A)
    (hm : StayMove env Node.SoftCPBacked (Node.SoftCPWithin · env) n n') :
    ∃ A', Aligned env n' A' ∧ n'.lastSoftCP.2 ∈ A' := by
  obtain ⟨hmove, hcp⟩ := hm
  rw [hcp]
  cases hmove with
  | store hfit => exact ⟨A, S.store hfit, hc⟩
  | connect hC h =>
    obtain ⟨A', S', rfl | hl⟩ := S.connectBestBlock h
    · exact ⟨_, S', hc⟩
    · exact ⟨A', S', S.mem_of_leaves hC hc hl⟩
  | adopt cp => exact ⟨A, S.softCP cp, hc⟩
  | follow hF h =>
    rcases S.setSoftCPBestChain hF.unfailed h with ⟨rfl, -⟩ | ⟨l, -, hoff, -⟩
    · exact ⟨A, S, hc⟩
    · rw [S.isInMainChain_iff.mpr hc] at hoff
      cases hoff

lemma Aligned.follow (S : Aligned env n A) (hF : n.SoftCPWithin env)
    (h : FreechCore.setSoftCPBestChain env fuel rounds now fIBD n = some n')
    (hset : n.lastSoftCP.1 ≠ 0) (hknown : (n'.index n'.lastSoftCP.2).isSome = true)
    (hun : n'.SoftCPUnfailed) : ∃ A', Aligned env n' A' ∧ n'.lastSoftCP.2 ∈ A' := by
  have hsame := setSoftCPBestChain_sameTree h
  rw [hsame.softCP] at hknown ⊢
  rcases S.setSoftCPBestChain hF.unfailed h with ⟨rfl, h0 | hno | hc⟩ | ⟨l, hl, hoff, S' | ⟨S', hb⟩⟩
  · exact absurd h0 hset
  · rw [hno] at hknown
    cases hknown
  · exact ⟨A, S, hc⟩
  · exact ⟨_, S', List.mem_cons_self⟩
  · exfalso
    obtain ⟨hheight, hread⟩ := hF.reach l hl hoff
    rcases hb with hlen | ⟨bad, hbad, hfailed | hno⟩
    · have hh : n.heightOf n.lastSoftCP.2 = l.length := hl.height S.tree
      rw [S.height, hh] at hheight
      simp only [List.length_cons] at hlen
      omega
    · have := hun l (by rw [hsame.ledger, hsame.softCP]; exact hl) bad (by rw [hsame.softCP]; exact hbad)
      rw [hfailed] at this
      cases this
    · exact hread bad hbad hno

/-- **Soft checkpoints are followed** in every run in which the block of the soft checkpoint is
not lower than the best block when it is to be joined, and all candidates with more work
descend from it afterwards: after `SetSoftCPBestChain` it is in the active chain, if it is
known and neither it nor an ancestor has failed, and it stays there as long as it is the soft
checkpoint. -/
theorem softCP_followed
    (hr : MovedTo env Node.SoftCPBacked (Node.SoftCPWithin · env) n) (hF : n.SoftCPWithin env)
    (h : setSoftCPBestChain env fuel rounds now fIBD n = some n') (hset : n.lastSoftCP.1 ≠ 0)
    (hknown : (n'.index n'.lastSoftCP.2).isSome = true) (hun : n'.SoftCPUnfailed)
    (hrun : ReflTransGen (StayMove env Node.SoftCPBacked (Node.SoftCPWithin · env)) n' n'') :
    n''.isInMainChain n''.lastSoftCP.2 = true := by
  obtain ⟨A, S⟩ := hr.aligned fun _ hm => hm.unfailed
  suffices H : ∃ A', Aligned env n'' A' ∧ n''.lastSoftCP.2 ∈ A' by
    obtain ⟨A', S', hc⟩ := H
    exact S'.isInMainChain_iff.mpr hc
  induction hrun with
  | refl => exact S.follow hF h hset hknown hun
  | tail _ hstep ih =>
    obtain ⟨A', S', hc⟩ := ih
    exact S'.stay hc hstep

end Followed

namespace Toy

def softWithin (n : Node) : Bool :=
  softUnfailed n && (n.isInMainChain n.lastSoftCP.2 ||
    (decide (n.nBestHeight ≤ n.heightOf n.lastSoftCP.2) &&
      ((softChain n).getD []).all fun x => (n.readBlockFromDisk cpEnv x).isSome))

lemma within_of_softWithin {n : Node} (h : softWithin n = true) : n.SoftCPWithin cpEnv := by
  simp only [softWithin, Bool.and_eq_true, Bool.or_eq_true, decide_eq_true_eq] at h
  obtain ⟨hun, hcase⟩ := h
  refine ⟨unfailed_of_softUnfailed hun, fun l hl hoff => ?_⟩
  obtain ⟨hheight, hread⟩ := hcase.resolve_left (by simp [hoff])
  refine ⟨hheight, fun x hx => ?_⟩
  cases hD : softChain n with
  | none => simp [softUnfailed, hD] at hun
  | some D =>
    rw [hD, getD_some, List.all_eq_true] at hread
    exact isSome_iff_ne_none.mp (hread x (eq_of_softChain hD hl ▸ hx))

def softBacked (n : Node) : Bool :=
  !n.isInMainChain n.lastSoftCP.2 || n.setBlockIndexValid.all fun t =>
    (n.pindexBest.any fun a => decide (n.chainWork t ≤ n.chainWork a)) ||
      ((n.ledger.path 20 t).any fun D => D.contains n.lastSoftCP.2)

lemma backed_of_softBacked {n : Node} (h : softBacked n = true) : n.SoftCPBacked := by
  intro hmain t ht l hl hw
  simp only [softBacked, hmain, Bool.not_true, Bool.false_or, List.all_eq_true] at h
  have := h t ht
  rw [Bool.or_eq_true, any_eq_true, any_eq_true] at this
  rcases this with ⟨a, ha, hle⟩ | ⟨D, hD, hc⟩
  · exact absurd (hw a ha) (not_lt.mpr (of_decide_eq_true hle))
  · obtain ⟨hch, hhead⟩ := Ledger.chain_of_path hD
    obtain ⟨l', rfl⟩ := List.head?_eq_some_iff.mp hhead
    rw [← hch.unique hl]
    simpa using hc

/-- What is looked at after `SetSoftCPBestChain`, a further block on its block, and
`ConnectBestBlock`. -/
def followFacts (n : Node) : Option (ℕ × Bool × Bool × Option ℕ) :=
  if softWithin n then
    (setSoftCPBestChain cpEnv 20 20 10000000 false n).bind fun n₁ =>
      (MoveAct.perform softBacked softWithin n₁ (.store (cpBlock 4 3 2 spam []))).bind fun n₂ =>
        (MoveAct.perform softBacked softWithin n₂ .connect).bind fun n₃ =>
          if n₂.lastSoftCP = n₁.lastSoftCP ∧ n₃.lastSoftCP = n₂.lastSoftCP
          then some (n.lastSoftCP.1, (n₁.index n₁.lastSoftCP.2).isSome, softUnfailed n₁,
            n₃.pindexBest)
          else none
  else none

end Toy

open Toy in
/-- The node moves to the block of its soft checkpoint, and on from there. -/
theorem softCP_followed_twoBlocks : ∃ n, MovedTo cpEnv Node.SoftCPBacked
    (Node.SoftCPWithin · cpEnv) n ∧ n.pindexBest = some 4 ∧ n.lastSoftCP = (1, 3) ∧
      n.isInMainChain 3 = true := by
  obtain ⟨n, hn, hfacts⟩ := bind_eq_some_iff.mp (by decide +kernel :
    (performMoves softBacked softWithin twoBlocks).bind (fun n => (followFacts n).map
      fun f => (n.lastSoftCP, f)) = some ((1, 3), 1, true, true, some 4))
  obtain ⟨f, hf, he⟩ := map_eq_some_iff.mp hfacts
  obtain ⟨hcp, rfl⟩ := Prod.mk.inj he
  have hC : ∀ n, softBacked n = true → n.SoftCPBacked := fun _ => backed_of_softBacked
  have hF : ∀ n, softWithin n = true → n.SoftCPWithin cpEnv := fun _ => within_of_softWithin
  have hm := movedTo_of_performMoves hC hF hn
  unfold followFacts at hf
  split_ifs at hf with hwithin
  obtain ⟨n₁, h₁, hf⟩ := bind_eq_some_iff.mp hf
  obtain ⟨n₂, h₂, hf⟩ := bind_eq_some_iff.mp hf
  obtain ⟨n₃, h₃, hf⟩ := bind_eq_some_iff.mp hf
  split_ifs at hf with hstay
  simp only [some.injEq, Prod.mk.injEq] at hf
  obtain ⟨h0, hknown, hun, hbest⟩ := hf
  have hm₂ := move_of_perform hC hF h₂
  have hm₃ := move_of_perform hC hF h₃
  have hmain := softCP_followed hm (hF n hwithin) h₁ (by rw [h0]; decide) hknown
    (unfailed_of_softUnfailed hun) (.head ⟨hm₂, hstay.1⟩ (.single ⟨hm₃, hstay.2⟩))
  have hcp₃ : n₃.lastSoftCP = (1, 3) := by
    rw [hstay.2, hstay.1, (setSoftCPBestChain_sameTree h₁).softCP, hcp]
  obtain ⟨n₀, hn₀, hrun⟩ := hm
  refine ⟨n₃, ⟨n₀, hn₀, ((hrun.tail (.follow (hF n hwithin) h₁)).tail hm₂).tail hm₃⟩, hbest,
    hcp₃, ?_⟩
  rw [hcp₃] at hmain
  exact hmain

namespace Toy

lemma chain_of_softUnfailed {n : Node} {cp : Checkpoint} (h : softUnfailed n = true)
    (hcp : n.lastSoftCP = cp) :
    ∃ l, n.ledger.Chain (cp.2 :: l) ∧ ∀ x ∈ cp.2 :: l, (n.nStatus x).failed = false := by
  have hun := unfailed_of_softUnfailed h
  unfold softUnfailed at h
  split at h
  · rename_i D hD
    obtain ⟨hch, hhead⟩ := Ledger.chain_of_path hD
    obtain ⟨l, rfl⟩ := List.head?_eq_some_iff.mp hhead
    rw [← hcp]
    exact ⟨l, hch, hun l hch⟩
  · cases h

def branches : List Delivery :=
  .block electorate :: blocksOn 2 2 [3, 4, 5, 6, 7] ++ blocksOn 2 2 [13, 14, 15, 16, 17]

def further : Delivery := .block (cpBlock 8 7 7 spam [])

/-- The soft checkpoint, whether its chain is known and without failed blocks, and whether its
block is in the active chain. -/
def followed (s : SoftNode) : Checkpoint × Bool × Bool :=
  (s.node.lastSoftCP, softUnfailed s.node, s.node.isInMainChain s.node.lastSoftCP.2)

lemma followed_facts :
    (receiveFresh (branches ++ further :: votes (6, 17))).map followed = some ((6, 17), true, false) ∧
    (receiveFresh (branches ++ votes (6, 17))).bind (fun s => (receive s further).map fun s' =>
      (followed s, followed s')) = some (((6, 17), true, true), (6, 17), true, false) := by
  decide +kernel

end Toy

open Toy in
/-- Three users vote for a block at height six while the node is on another branch. If that
branch is one block longer, the node does not follow; and if it gets longer later, the node
leaves the block again. -/
theorem softCP_not_followed :
    (∃ s, SoftReached cpEnv (signedIn (branches ++ further :: votes (6, 17))) s ∧
      s.node.lastSoftCP = (6, 17) ∧
        (∃ l, s.node.ledger.Chain (17 :: l) ∧ ∀ x ∈ 17 :: l, (s.node.nStatus x).failed = false) ∧
          s.node.isInMainChain 17 = false) ∧
    ∃ s s', SoftReached cpEnv (signedIn (branches ++ votes (6, 17))) s ∧
      s.node.lastSoftCP = (6, 17) ∧ s.node.isInMainChain 17 = true ∧
        receive s further = some s' ∧ s'.node.lastSoftCP = (6, 17) ∧
          (∃ l, s'.node.ledger.Chain (17 :: l) ∧
            ∀ x ∈ 17 :: l, (s'.node.nStatus x).failed = false) ∧
            s'.node.isInMainChain 17 = false := by
  obtain ⟨hshort, hleft⟩ := followed_facts
  constructor
  · obtain ⟨s, hs, he⟩ := map_eq_some_iff.mp hshort
    simp only [followed, Prod.mk.injEq] at he
    obtain ⟨hcp, hun, hmain⟩ := he
    rw [hcp] at hmain
    exact ⟨s, softReached_of_receiveFresh hs, hcp, chain_of_softUnfailed hun hcp, hmain⟩
  · obtain ⟨s, hs, he⟩ := bind_eq_some_iff.mp hleft
    obtain ⟨s', hs', he⟩ := map_eq_some_iff.mp he
    simp only [followed, Prod.mk.injEq] at he
    obtain ⟨⟨hcp, -, hmain⟩, hcp', hun', hmain'⟩ := he
    rw [hcp] at hmain
    rw [hcp'] at hmain'
    exact ⟨s, s', softReached_of_receiveFresh hs, hcp, hmain, hs', hcp',
      chain_of_softUnfailed hun' hcp', hmain'⟩

end FreechCore
