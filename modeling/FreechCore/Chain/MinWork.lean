import FreechCore.Chain.Retarget
import FreechCore.Chain.Process
import FreechCore.Checkpoint.Moves

/-!
How strict the check against blocks with too little work is. The target that `ComputeMinWork`
allows is four times as large for every eight weeks, or a part of them, since the last hard
checkpoint. The target of a block follows from that of the checkpoint by the retargets on the
chain between them, and these depend on the times of the blocks only. So the check can be
compared with what `AcceptBlock` asks for, block by block.
-/

namespace FreechCore

open Relation List Option

variable {nTime : ℤ} {nBits : ℕ}

/-! ### What is allowed -/

/-- The periods of four times the normal length that have begun. -/
def periods (nTime : ℤ) : ℕ :=
  ((nTime + (nTargetTimespan * 4 - 1)) / (nTargetTimespan * 4)).toNat

lemma periods_of_nonpos (h : nTime ≤ 0) : periods nTime = 0 := by
  unfold periods nTargetTimespan
  omega

lemma periods_of_pos (h : 0 < nTime) :
    periods nTime = periods (nTime - nTargetTimespan * 4) + 1 := by
  unfold periods nTargetTimespan
  omega

lemma raiseTarget_eq {bnLimit : ℤ} (hlim : 0 ≤ bnLimit) {left : ℕ} {v : ℤ}
    (hleft : nTime.toNat ≤ left) :
    min bnLimit (raiseTarget bnLimit left nTime v) = min bnLimit (v * 4 ^ periods nTime) := by
  induction left generalizing nTime v with
  | zero => rw [raiseTarget, periods_of_nonpos (by omega), pow_zero, mul_one]
  | succ left ih =>
    unfold raiseTarget
    split_ifs with h
    · have hspan : 0 < nTargetTimespan * 4 := by decide
      rw [ih (by omega), periods_of_pos h.1, pow_succ', mul_assoc]
    · rcases le_or_gt nTime 0 with ht | ht
      · rw [periods_of_nonpos ht, pow_zero, mul_one]
      · -- the limit is reached, and is not left again
        have hv : bnLimit ≤ v := by
          by_contra hv
          exact h ⟨ht, by omega⟩
        have hpow : (1 : ℤ) ≤ 4 ^ periods nTime := one_le_pow₀ (by decide)
        have hle : v ≤ v * 4 ^ periods nTime := le_mul_of_one_le_right (hlim.trans hv) hpow
        rw [min_eq_left hv, min_eq_left (hv.trans hle)]

section

variable {env : Env} {n n' : Node} {b : CBlock} {pos : CDiskBlockPos} {l : List ℕ} {p : CBlockIndex}
  {fuel rounds : ℕ} {now : ℤ} {fIBD : Bool} {s : SoftNode}

/-- **What `ComputeMinWork` allows** a target that is within the limit. -/
lemma le_computeMinWork_iff {nBase : ℕ} (hpos : 0 < setCompact nBits)
    (hlim : setCompact nBits ≤ env.proofOfWorkLimit) :
    setCompact nBits ≤ setCompact (computeMinWork env nBase nTime) ↔
      (env.testNet = true ∧ nTargetSpacing * 2 < nTime) ∨
        setCompact nBits ≤ setCompact nBase * 4 ^ periods nTime := by
  have hmin : ∀ x : ℤ, (if (env.proofOfWorkLimit : ℤ) < x then (env.proofOfWorkLimit : ℤ) else x) =
      min (env.proofOfWorkLimit : ℤ) x := fun x => by
    split_ifs <;> omega
  unfold computeMinWork
  split_ifs with htest
  · simp only [htest, and_self, true_or, iff_true]
    exact (le_setCompact_getCompact_iff hpos).mpr hlim
  · rw [le_setCompact_getCompact_iff hpos, hmin, raiseTarget_eq (by omega) le_rfl, le_min_iff]
    simp only [htest, false_or, hlim, true_and]

/-! ### What is asked for -/

/-- The time of the block `i` places below the tip of a chain. -/
def Node.timeBelow (n : Node) (chain : List ℕ) (i : ℕ) : ℕ :=
  ((chain[i]?.bind n.index).map CBlockIndex.nTime).getD 0

/-- The compact target of the block on top of a chain whose tip has the target `nBits`. -/
def Node.adjust (n : Node) (env : Env) (nBits : ℕ) (chain : List ℕ) : ℕ :=
  if chain.length % nInterval ≠ 0 then nBits
  else retarget env nBits ((n.timeBelow chain 0 : ℤ) - n.timeBelow chain (nInterval - 1))

/-- The compact target of the block on top of a chain, from the target `nBits` of one of its
blocks on: the times of the blocks decide about it. -/
def Node.targetSince (n : Node) (env : Env) (c nBits : ℕ) : List ℕ → ℕ
  | [] => nBits
  | h :: l => n.adjust env (if h = c then nBits else n.targetSince env c nBits l) (h :: l)

/-- Every block has the target that its parent's chain asks for. -/
def Node.Demanded (n : Node) (env : Env) : Prop :=
  ∀ h q p pq l, n.ledger.Chain (h :: q :: l) → n.index h = some p → n.index q = some pq →
    p.nBits = n.adjust env pq.nBits (q :: l)

/-- **What `GetNextWorkRequired` asks for** on the main network. -/
lemma getNextWorkRequired_eq (T : n.ledger.Tree env) (htest : env.testNet = false) {q : ℕ}
    {pq : CBlockIndex} (hl : n.ledger.Chain (q :: l)) (hq : n.index q = some pq) {nTime : ℕ}
    (h : getNextWorkRequired env n q pq nTime = some nBits) :
    nBits = n.adjust env pq.nBits (q :: l) := by
  have hheight : pq.nHeight = l.length := by
    rw [← hl.height T, Ledger.heightOf_eq hq]
  unfold getNextWorkRequired at h
  simp only [hheight, htest, Bool.false_eq_true, if_false] at h
  unfold Node.adjust
  rw [length_cons]
  by_cases hint : (l.length + 1) % nInterval ≠ 0
  · rw [if_pos hint] at h ⊢
    exact (some.inj h).symm
  · rw [if_neg hint] at h ⊢
    obtain ⟨pf, hpf, rfl⟩ := map_eq_some_iff.mp h
    rw [Node.ancestor_eq hl] at hpf
    have h0 : n.timeBelow (q :: l) 0 = pq.nTime := by simp [Node.timeBelow, hq]
    have h1 : n.timeBelow (q :: l) (nInterval - 1) = pf.nTime := by
      rw [Node.timeBelow, hpf]
      rfl
    rw [h0, h1]

lemma Node.Demanded.adjust_eq (D : n.Demanded env) {c h : ℕ} {pc : CBlockIndex}
    (hl : n.ledger.Chain (h :: l)) (hc : c ∈ h :: l) (hpc : n.index c = some pc)
    (hp : n.index h = some p) :
    n.adjust env p.nBits (h :: l) = n.targetSince env c pc.nBits (h :: l) := by
  induction l generalizing h p with
  | nil =>
    obtain rfl := mem_singleton.mp hc
    rw [hpc, some.injEq] at hp
    rw [Node.targetSince, if_pos rfl, hp]
  | cons q l ih =>
    unfold Node.targetSince
    split_ifs with he
    · subst he
      rw [hpc, some.injEq] at hp
      rw [hp]
    · have hl' := hl.of_cons (by simp)
      obtain ⟨pq, hpq⟩ := hl'.index_eq mem_cons_self
      rw [D _ _ _ _ _ hl hp hpq, ih hl' ((mem_cons.mp hc).resolve_left fun e => he e.symm) hpq]

lemma Node.adjust_congr {chain : List ℕ} (h : ∀ x ∈ chain, n'.index x = n.index x) :
    n'.adjust env nBits chain = n.adjust env nBits chain := by
  have htime : ∀ i, n'.timeBelow chain i = n.timeBelow chain i := by
    intro i
    unfold Node.timeBelow
    cases hi : chain[i]? with
    | none => rfl
    | some x => rw [bind_some, bind_some, h x (mem_of_getElem? hi)]
  unfold Node.adjust
  rw [htime, htime]

lemma checkContext_bits (h : checkContext env n b p = some (.ok ())) :
    getNextWorkRequired env n b.hashPrevBlock p b.nTime = some b.nBits := by
  obtain ⟨nBits, hw, hc⟩ := map_eq_some_iff.mp h
  simp only [check_bind_eq_ok, ensure_eq_ok] at hc
  rw [hw, hc.1]

lemma Node.Demanded.store (D : n.Demanded env) (T : n.ledger.Tree env) (htest : env.testNet = false)
    (F : n.Fits env b pos) (hp : n.index b.hashPrevBlock = some p)
    (hctx : checkContext env n b p = some (.ok ())) : (n.store env b pos).Demanded env := by
  intro h q ph pq l hl hph hpq
  have hold : ∀ {x m}, n.ledger.Chain (x :: m) → ∀ y ∈ x :: m,
      (n.store env b pos).index y = n.index y := by
    intro x m hm y hy
    obtain ⟨py, hpy⟩ := hm.index_eq hy
    exact (F.grows.index hpy).trans hpy.symm
  have hl' := hl.of_cons (by simp)
  by_cases he : h = getHash env b
  · -- the new block
    subst he
    rw [store_index, if_pos rfl, some.injEq] at hph
    subst hph
    have hq : q = b.hashPrevBlock := by
      have := hl.pprev_eq
      rw [Ledger.pprev, show (n.store env b pos).ledger.index (getHash env b) =
        some (n.newBlockIndex b pos) from (store_index _).trans (if_pos rfl)] at this
      simpa [Node.newBlockIndex, hp] using this.symm
    subst hq
    have hne : b.hashPrevBlock ≠ getHash env b := fun e => by
      rw [e, F.hash] at hp
      cases hp
    have hchain := F.chain_old T hl' hne
    rw [hold hchain _ mem_cons_self, hp, some.injEq] at hpq
    subst hpq
    rw [Node.adjust_congr (hold hchain)]
    exact getNextWorkRequired_eq T htest hchain hp (checkContext_bits hctx)
  · have hchain := F.chain_old T hl he
    have hchain' := hchain.of_cons (by simp)
    rw [hold hchain _ mem_cons_self] at hph
    rw [hold hchain' _ mem_cons_self] at hpq
    rw [Node.adjust_congr (hold hchain')]
    exact D _ _ _ _ _ hchain hph hpq

/-! ### The trees of nodes -/

/-- What becomes of the tree of a node: it stays as it is, or gets a block that passes the checks
against its parent. -/
inductive TreeStep (env : Env) : Node → Node → Prop
  | same {n n' : Node} : n'.ledger = n.ledger → TreeStep env n n'
  | block {n n' : Node} {b : CBlock} {pos : CDiskBlockPos} {p : CBlockIndex} :
      n.Fits env b pos → n.index b.hashPrevBlock = some p →
      checkContext env n b p = some (.ok ()) → n'.ledger = (n.store env b pos).ledger →
      TreeStep env n n'

/-- The nodes whose tree was made by such steps. -/
def TreeReached (env : Env) (n : Node) : Prop :=
  ∃ n₀, Started env n₀ ∧ ReflTransGen (TreeStep env) n₀ n

lemma acceptBlock_treeStep {res : Check} (hg : (n.index (hashGenesisBlock env)).isSome = true)
    (hpos : n.blockFiles pos = none)
    (h : acceptBlock env fuel rounds now fIBD n b pos = some (n', res)) : TreeStep env n n' := by
  rcases acceptBlock_cases h hg hpos with
    ⟨rfl, -⟩ | ⟨hfit, ⟨p, hp, hctx⟩, n₁, r, hr, ⟨rfl, -⟩ | ⟨-, -, hf⟩⟩
  · exact .same rfl
  · exact .block hfit hp hctx (connectBestBlock_sameTree hr).ledger
  · exact .block hfit hp hctx
      ((connectBestBlock_sameTree hr).trans (setSoftCPBestChain_sameTree hf)).ledger

lemma castVoteSoftCheckpoint_ledger {s' : SoftNode} {vote : CSoftCheckpoint} {r : Bool}
    (h : castVoteSoftCheckpoint env fuel rounds now fIBD s vote = some (s', r)) :
    s'.node.ledger = s.node.ledger := by
  rcases castVoteSoftCheckpoint_cases h with ⟨he, -⟩ | ⟨-, ⟨-, rfl⟩ | ⟨-, rfl | ⟨-, hu⟩⟩⟩
  · rw [he]
  · rfl
  · rfl
  · obtain ⟨n', hf, rfl⟩ := map_eq_some_iff.mp hu
    exact (setSoftCPBestChain_sameTree hf).ledger

/-- What holds of the tree of every node: it is well formed, with the genesis block in it, and on
the main network every block has the target that was asked for. -/
structure Node.Judged (n : Node) (env : Env) : Prop where
  tree : n.ledger.Tree env
  genesis : (n.index (hashGenesisBlock env)).isSome = true
  demanded : env.testNet = false → n.Demanded env

lemma Node.Judged.congr (J : n.Judged env) (h : n'.ledger = n.ledger) : n'.Judged env := by
  have hidx : n'.index = n.index := Node.index_congr h
  refine ⟨h ▸ J.tree, hidx ▸ J.genesis, fun htest x q p pq l hl hp hq => ?_⟩
  rw [hidx] at hp hq
  rw [Node.adjust_congr fun x _ => congrFun hidx x]
  exact J.demanded htest _ _ _ _ _ (h ▸ hl) hp hq

lemma Node.Judged.step (J : n.Judged env) (hs : TreeStep env n n') : n'.Judged env := by
  cases hs with
  | same h => exact J.congr h
  | block F hp hctx h =>
    obtain ⟨g, hg⟩ := isSome_iff_exists.mp J.genesis
    refine Node.Judged.congr ⟨F.tree J.tree J.genesis, ?_, fun htest => ?_⟩ h
    · exact isSome_iff_exists.mpr ⟨g, F.grows.index hg⟩
    · exact (J.demanded htest).store J.tree htest F hp hctx

lemma TreeReached.judged (hr : TreeReached env n) : n.Judged env := by
  obtain ⟨n₀, h₀, hrun⟩ := hr
  induction hrun with
  | refl =>
    have F := h₀.fresh
    refine ⟨F.settled.working.tree, F.settled.genesis, fun _ h q p pq l hl hp hq => ?_⟩
    -- only the genesis block is there
    have hlen := hl.height F.settled.working.tree
    have hroot := F.settled.working.tree.root_iff hp
    rw [F.only hp] at hroot
    rw [Ledger.heightOf_eq hp, F.settled.working.tree.root_height hp (hroot.mpr rfl)] at hlen
    simp at hlen
  | tail _ hstep ih => exact ih.step hstep

lemma TreeReached.tail (hr : TreeReached env n) (hs : TreeStep env n n') : TreeReached env n' := by
  obtain ⟨n₀, h₀, hrun⟩ := hr
  exact ⟨n₀, h₀, hrun.tail hs⟩

lemma Delivered.treeReached {bs : List CBlock} (h : Delivered env bs n) : TreeReached env n := by
  induction h with
  | start hn => exact ⟨_, hn, .refl⟩
  | block _ hpos hacc ih => exact ih.tail (acceptBlock_treeStep ih.judged.genesis hpos hacc)

variable {signed : Bytes → Checkpoint → Prop}

/-- **A node that receives votes and blocks** has such a tree at any time. -/
theorem SoftReached.treeReached (h : SoftReached env signed s) : TreeReached env s.node := by
  obtain ⟨n₀, h₀, hrun⟩ := h
  induction hrun with
  | refl => exact ⟨_, h₀, .refl⟩
  | tail _ hstep ih =>
    cases hstep with
    | vote _ hv => exact ih.tail (.same (castVoteSoftCheckpoint_ledger hv))
    | block hpos _ hr =>
      obtain ⟨n, s₁, ha, hvote, hdrop⟩ := receiveBlock_cases hr
      have hacc := ih.tail (acceptBlock_treeStep ih.judged.genesis hpos ha)
      have h₁ : TreeReached env s₁.node := by
        rcases hvote with rfl | ⟨-, vote, r, -, hc⟩
        · exact hacc
        · exact hacc.tail (.same (castVoteSoftCheckpoint_ledger hc))
      rcases hdrop with rfl | rfl <;> exact h₁

/-- **No block gets by with less work.** Whatever blocks and votes a node of the main network
receives, every block of its tree has the target that the chain below it asks for. -/
theorem demanded_of_softReached (h : SoftReached env signed s) (htest : env.testNet = false) :
    s.node.Demanded env :=
  h.treeReached.judged.demanded htest

end

open Toy in
/-- A node that receives a block and a vote. -/
theorem demanded_voted : ∃ s, SoftReached cpEnv (signedIn [.block electorate, .vote 0 (6, 100)]) s ∧
    s.node.Demanded cpEnv := by
  have h : (receiveFresh [.block electorate, .vote 0 (6, 100)]).isSome = true := by decide +kernel
  obtain ⟨s, hs⟩ := isSome_iff_exists.mp h
  have hr := softReached_of_receiveFresh hs
  exact ⟨s, hr, demanded_of_softReached hr rfl⟩

/-! ### How strict the check is -/

section Strict

variable {env : Env} {n : Node} {b : CBlock} {p pcheckpoint : CBlockIndex} {c : ℕ} {l : List ℕ}
variable {now : ℤ}

lemma checkBlock_target (hb : checkBlock env now true true b = .ok ()) :
    0 < setCompact b.nBits ∧ setCompact b.nBits ≤ env.proofOfWorkLimit := by
  have hpow := checkBlock_work hb
  simp only [checkProofOfWork, decide_eq_true_eq] at hpow
  exact ⟨hpow.1, hpow.2.1⟩

lemma preliminaryCheck_eq_ok (hcp : n.getLastCheckpoint env = some pcheckpoint) :
    preliminaryCheck env n b = .ok () ↔ b.hashPrevBlock = n.pindexBest.getD 0 ∨
      (0 ≤ (b.nTime : ℤ) - pcheckpoint.nTime ∧ setCompact b.nBits ≤
        setCompact (computeMinWork env pcheckpoint.nBits ((b.nTime : ℤ) - pcheckpoint.nTime))) := by
  unfold preliminaryCheck
  rw [hcp]
  dsimp only
  split_ifs with hbest
  · simp [hbest]
  · simp only [hbest, false_or, check_bind_eq_ok, ensure_eq_ok]

/-- **How strict the check is.** A block that descends from the last hard checkpoint and that the
checks of `AcceptBlock` let pass is kept if it is on top of the best chain, or if it is not older
than the checkpoint and the retargets since then have not raised the target by more than a factor
of four for every eight weeks that have begun. On the test network a block that comes twenty
minutes after the checkpoint passes as well. -/
theorem preliminaryCheck_iff (hr : TreeReached env n)
    (hcp : n.getLastCheckpoint env = some pcheckpoint) (hc : n.index c = some pcheckpoint)
    (hl : n.ledger.Chain (b.hashPrevBlock :: l)) (hmem : c ∈ b.hashPrevBlock :: l)
    (hp : n.index b.hashPrevBlock = some p) (hb : checkBlock env now true true b = .ok ())
    (hctx : checkContext env n b p = some (.ok ())) :
    preliminaryCheck env n b = .ok () ↔ b.hashPrevBlock = n.pindexBest.getD 0 ∨
      (pcheckpoint.nTime ≤ b.nTime ∧
        ((env.testNet = true ∧ nTargetSpacing * 2 < (b.nTime : ℤ) - pcheckpoint.nTime) ∨
          setCompact (if env.testNet = true then b.nBits
              else n.targetSince env c pcheckpoint.nBits (b.hashPrevBlock :: l)) ≤
            setCompact pcheckpoint.nBits * 4 ^ periods ((b.nTime : ℤ) - pcheckpoint.nTime))) := by
  have J := hr.judged
  obtain ⟨hpos, hlim⟩ := checkBlock_target hb
  have hbits : (if env.testNet = true then b.nBits
      else n.targetSince env c pcheckpoint.nBits (b.hashPrevBlock :: l)) = b.nBits := by
    split_ifs with htest
    · rfl
    · have htest' : env.testNet = false := Bool.eq_false_iff.mpr htest
      rw [← (J.demanded htest').adjust_eq hl hmem hc hp]
      exact (getNextWorkRequired_eq J.tree htest' hl hp (checkContext_bits hctx)).symm
  rw [preliminaryCheck_eq_ok hcp, hbits, le_computeMinWork_iff hpos hlim]
  have htime : 0 ≤ (b.nTime : ℤ) - pcheckpoint.nTime ↔ pcheckpoint.nTime ≤ b.nTime := by omega
  rw [htime]

end Strict

namespace Toy

/-- The small instance with a hard checkpoint at height two. -/
def lateEnv : Env := { env with mapCheckpoints := [(2, 3)] }

def lateBlocks : List CBlock :=
  [{ block 4 3 3 spam [] with nTime := 101 }, { block 3 2 2 spam [] with nTime := 100 },
    block 2 1 1 spam []]

def besideBest (nTime : ℕ) : CBlock := { block 14 3 3 spam [] with nTime := nTime }

/-- The run, and a block that descends from the checkpoint and passes the checks of
`AcceptBlock`. -/
structure Beside (n : Node) (nTime : ℕ) (pcheckpoint : CBlockIndex) : Prop where
  delivered : Delivered lateEnv lateBlocks n
  checkpoint : n.getLastCheckpoint lateEnv = some pcheckpoint
  entry : n.index 3 = some pcheckpoint
  chain : n.ledger.Chain [3, 2, 1]
  block : checkBlock lateEnv 10000000 true true (besideBest nTime) = .ok ()
  context : checkContext lateEnv n (besideBest nTime) pcheckpoint = some (.ok ())

def answers (nTime : ℕ) : Option (Check × Option Check) :=
  (deliverAllIn lateEnv lateBlocks).bind fun n =>
    match n.index 3 with
    | none => none
    | some p =>
      if n.getLastCheckpoint lateEnv = some p ∧ n.ledger.path 20 3 = some [3, 2, 1] ∧
          checkBlock lateEnv 10000000 true true (besideBest nTime) = .ok () ∧
          checkContext lateEnv n (besideBest nTime) p = some (.ok ()) then
        some (preliminaryCheck lateEnv n (besideBest nTime),
          (acceptBlock lateEnv 20 20 10000000 false n (besideBest nTime) ⟨0, 14⟩).map Prod.snd)
      else none

lemma beside_of_answers {nTime : ℕ} {r : Check} {a : Option Check}
    (h : answers nTime = some (r, a)) : ∃ n p, Beside n nTime p ∧
      preliminaryCheck lateEnv n (besideBest nTime) = r ∧
      (acceptBlock lateEnv 20 20 10000000 false n (besideBest nTime) ⟨0, 14⟩).map Prod.snd = a := by
  obtain ⟨n, hn, hm⟩ := bind_eq_some_iff.mp h
  split at hm
  · cases hm
  · rename_i p hp
    split_ifs at hm with hc
    obtain ⟨hcp, hpath, hb, hctx⟩ := hc
    cases hm
    exact ⟨n, p, ⟨delivered_of_deliverAllIn hn, hcp, hp, (Ledger.chain_of_path hpath).1, hb, hctx⟩,
      rfl, rfl⟩

end Toy

open Toy in
/-- A block beside the tip, a little later than the checkpoint. -/
theorem preliminaryCheck_beside : ∃ n p, Beside n 150 p ∧
    (3 = n.pindexBest.getD 0 ∨ (p.nTime ≤ 150 ∧
      ((false = true ∧ nTargetSpacing * 2 < ((150 : ℕ) : ℤ) - p.nTime) ∨
        setCompact (n.targetSince lateEnv 3 p.nBits [3, 2, 1]) ≤
          setCompact p.nBits * 4 ^ periods (((150 : ℕ) : ℤ) - p.nTime)))) := by
  have h : answers 150 = some (.ok (), some (.ok ())) := by decide +kernel
  obtain ⟨n, p, B, hok, -⟩ := beside_of_answers h
  exact ⟨n, p, B, (preliminaryCheck_iff B.delivered.treeReached B.checkpoint B.entry B.chain
    mem_cons_self B.entry B.block B.context).mp hok⟩

open Toy in
/-- **A block that is refused.** The checkpoint has a late time, and a block on top of it has one
that lies after the median but before the checkpoint. `AcceptBlock` takes it, and the check
refuses it with a penalty of 100. -/
theorem preliminaryCheck_refuses : ∃ n p n', Beside n 50 p ∧
    acceptBlock lateEnv 20 20 10000000 false n (besideBest 50) ⟨0, 14⟩ = some (n', .ok ()) ∧
    preliminaryCheck lateEnv n (besideBest 50) = .error (.invalid 100
      ["ProcessBlock() : block with timestamp before last checkpoint"]) := by
  have h : answers 50 = some (.error (.invalid 100
      ["ProcessBlock() : block with timestamp before last checkpoint"]), some (.ok ())) := by
    decide +kernel
  obtain ⟨n, p, B, hr, ha⟩ := beside_of_answers h
  obtain ⟨⟨n', r⟩, hacc, rfl⟩ := map_eq_some_iff.mp ha
  exact ⟨n, p, n', B, hacc, hr⟩

end FreechCore
