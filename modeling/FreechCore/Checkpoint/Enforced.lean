import FreechCore.Checkpoint.Moves

/-!
Is the soft checkpoint enforced? `AcceptBlock` asks the hard checkpoints, and these ask the
soft one, but only after they have found an entry of their own at the height of the block.
Without one, any block is let through.
-/

namespace FreechCore

open Option

section Enforced

variable {env : Env} {fuel rounds : ℕ} {now : ℤ} {fIBD : Bool} {n n' : Node} {b : CBlock}
variable {pos : CDiskBlockPos} {p : CBlockIndex} {H : ℕ}

lemma checkpointsCheckBlock_eq_true {hash nHeight : ℕ} (hcp : n.lastSoftCP = (nHeight + 1, H))
    (hH : hash ≠ H) : checkpointsCheckBlock env n (nHeight + 1) hash = true ↔
      ∀ cp ∈ env.mapCheckpoints, cp.1 ≠ nHeight + 1 := by
  have hsoft : softCheckBlock n (nHeight + 1) hash = false := by
    simp [softCheckBlock, hcp, hH]
  unfold checkpointsCheckBlock
  rw [hsoft]
  cases hfind : env.mapCheckpoints.find? fun cp => cp.1 = nHeight + 1 with
  | none => simpa using hfind
  | some cp =>
    simp only [Bool.and_false, Bool.false_eq_true, false_iff, not_forall, not_not]
    exact ⟨cp, List.mem_of_find?_eq_some hfind, by simpa using List.find?_some hfind⟩

/-- The other checks of a block against its parent. -/
structure Node.PassesContext (n : Node) (b : CBlock) (p : CBlockIndex) (nBits : ℕ) : Prop where
  bits : b.nBits = nBits
  time : n.getMedianTimePast b.hashPrevBlock < b.nTime
  version : 2 ≤ b.nVersion
  height : b.nHeight = (p.nHeight + 1 : ℕ)

lemma checkContext_eq_ok (hcp : n.lastSoftCP = (p.nHeight + 1, H)) (hH : getHash env b ≠ H) :
    checkContext env n b p = some (.ok ()) ↔
      ∃ nBits, getNextWorkRequired env n b.hashPrevBlock p b.nTime = some nBits ∧
        n.PassesContext b p nBits ∧ ∀ cp ∈ env.mapCheckpoints, cp.1 ≠ p.nHeight + 1 := by
  unfold checkContext
  rw [map_eq_some_iff]
  refine exists_congr fun nBits => and_congr_right fun _ => ?_
  simp only [check_bind_eq_ok, ensure_eq_ok, checkpointsCheckBlock_eq_true hcp hH]
  constructor
  · rintro ⟨h1, h2, h3, h4, h5⟩
    exact ⟨⟨h1, h2, h4, h5⟩, h3⟩
  · rintro ⟨⟨h1, h2, h4, h5⟩, h3⟩
    exact ⟨h1, h2, h3, h4, h5⟩

lemma index_of_addToBlockIndex {res : Check}
    (h : connectBestBlock env fuel now fIBD rounds (n.store env b pos) = some (n', res)) :
    (n'.index (getHash env b)).isSome = true := by
  rw [Node.index_congr (connectBestBlock_sameTree h).ledger, store_index, if_pos rfl]
  rfl

/-- **Soft checkpoints are enforced only at the height of a hard one.** A block at the height
of the soft checkpoint and with another hash is rejected if and only if it is known already,
or there is a hard checkpoint of the same height, or it fails one of the other checks against
its parent. -/
theorem softCP_rejects_iff (hg : (n.index (hashGenesisBlock env)).isSome = true)
    (hp : n.index b.hashPrevBlock = some p) (hcp : n.lastSoftCP = (p.nHeight + 1, H))
    (hH : getHash env b ≠ H) :
    (∃ f, acceptBlock env fuel rounds now fIBD n b pos = some (n, .error f)) ↔
      n.mapBlockIndex.contains (getHash env b) = true ∨
        ∃ nBits, getNextWorkRequired env n b.hashPrevBlock p b.nTime = some nBits ∧
          ((∃ cp ∈ env.mapCheckpoints, cp.1 = p.nHeight + 1) ∨ ¬ n.PassesContext b p nBits) := by
  unfold acceptBlock
  by_cases hk : n.mapBlockIndex.contains (getHash env b) = true
  · rw [if_pos hk]
    exact ⟨fun _ => Or.inl hk, fun _ => ⟨_, rfl⟩⟩
  have hgen : getHash env b ≠ hashGenesisBlock env := fun e => hk (by rw [e]; exact hg)
  rw [if_neg hk, if_neg hgen]
  simp only [hp, hk, Bool.false_eq_true, false_or]
  cases hc : checkContext env n b p with
  | none =>
    -- the check of the work does not return
    have hw : getNextWorkRequired env n b.hashPrevBlock p b.nTime = none :=
      map_eq_none_iff.mp hc
    simp [hw]
  | some chk =>
    obtain ⟨nBits, hw, -⟩ := map_eq_some_iff.mp hc
    have hiff := checkContext_eq_ok (b := b) hcp hH
    rw [hc] at hiff
    cases chk with
    | error f =>
      refine ⟨fun _ => ⟨nBits, hw, ?_⟩, fun _ => ⟨f, rfl⟩⟩
      by_contra hno
      rw [not_or, not_not, not_exists] at hno
      have := hiff.mpr ⟨nBits, hw, hno.2, fun cp hm he => hno.1 cp ⟨hm, he⟩⟩
      cases this
    | ok u =>
      obtain ⟨nBits', hw', hpass, hno⟩ := hiff.mp rfl
      constructor
      · -- the block has become part of the tree
        rintro ⟨f, hf⟩
        exfalso
        simp only [addToBlockIndex_store hk] at hf
        split at hf
        · cases hf
        · rename_i n₁ f₁ hr
          have hn : n₁ = n := congrArg Prod.fst (some.inj hf)
          exact hk (hn ▸ index_of_addToBlockIndex hr)
        · obtain ⟨n₂, -, he⟩ := map_eq_some_iff.mp hf
          cases he
      · rintro ⟨k, hk', hcase⟩
        exfalso
        cases hw'.symm.trans hk'
        rcases hcase with ⟨cp, hm, he⟩ | hfail
        · exact hno cp hm he
        · exact hfail hpass

end Enforced

namespace Toy

/-- A chain of five blocks, and three votes for a block at height six. -/
def voted : List Delivery :=
  .block electorate :: blocksOn 2 2 [3, 4, 5, 6] ++ votes (6, 100)

def otherBlock : CBlock := cpBlock 200 6 6 spam []

/-- What becomes of the other block: whether it is accepted, and the best block then. -/
def offer (s : SoftNode) : Option (Option ℕ) :=
  match acceptBlock cpEnv 20 20 10000000 false s.node otherBlock ⟨0, 200⟩ with
  | some (n, .ok ()) => some n.pindexBest
  | _ => none

lemma voted_facts : (receiveFresh voted).map (fun s => (s.node.lastSoftCP,
    (s.node.index otherBlock.hashPrevBlock).map CBlockIndex.nHeight, offer s)) =
      some ((6, 100), some 5, some (some 200)) := by
  decide +kernel

end Toy

open Toy in
/-- The condition, at a block that is not the one voted for. -/
theorem softCP_rejects_other : ∃ s p, SoftReached cpEnv (signedIn voted) s ∧
    s.node.lastSoftCP = (6, 100) ∧ s.node.index otherBlock.hashPrevBlock = some p ∧
      p.nHeight + 1 = 6 ∧
        ((∃ f, acceptBlock cpEnv 20 20 10000000 false s.node otherBlock ⟨0, 200⟩ =
            some (s.node, .error f)) ↔
          s.node.mapBlockIndex.contains (getHash cpEnv otherBlock) = true ∨
            ∃ nBits, getNextWorkRequired cpEnv s.node otherBlock.hashPrevBlock p
                otherBlock.nTime = some nBits ∧
              ((∃ cp ∈ cpEnv.mapCheckpoints, cp.1 = p.nHeight + 1) ∨
                ¬ s.node.PassesContext otherBlock p nBits)) := by
  obtain ⟨s, hs, he⟩ := map_eq_some_iff.mp voted_facts
  simp only [Prod.mk.injEq] at he
  obtain ⟨hcp, hheight, -⟩ := he
  obtain ⟨p, hp, hh⟩ := map_eq_some_iff.mp hheight
  have hreach := softReached_of_receiveFresh hs
  refine ⟨s, p, hreach, hcp, hp, by rw [hh], ?_⟩
  exact softCP_rejects_iff hreach.movedTo.genesis hp (by rw [hcp, hh]) (by decide)

open Toy in
/-- Three users vote for a block at height six. Another block of that height is accepted, and
becomes the best block. -/
theorem softCP_accepts_other : ∃ s p n', SoftReached cpEnv (signedIn voted) s ∧
    s.node.lastSoftCP = (6, 100) ∧ s.node.index otherBlock.hashPrevBlock = some p ∧
      p.nHeight + 1 = 6 ∧ getHash cpEnv otherBlock ≠ 100 ∧
        acceptBlock cpEnv 20 20 10000000 false s.node otherBlock ⟨0, 200⟩ = some (n', .ok ()) ∧
          n'.pindexBest = some (getHash cpEnv otherBlock) := by
  obtain ⟨s, hs, he⟩ := map_eq_some_iff.mp voted_facts
  simp only [Prod.mk.injEq] at he
  obtain ⟨hcp, hheight, hoffer⟩ := he
  obtain ⟨p, hp, hh⟩ := map_eq_some_iff.mp hheight
  unfold offer at hoffer
  split at hoffer
  · rename_i n' hacc
    rw [some.injEq] at hoffer
    exact ⟨s, p, n', softReached_of_receiveFresh hs, hcp, hp, by rw [hh], by decide, hacc, hoffer⟩
  · cases hoffer

end FreechCore
