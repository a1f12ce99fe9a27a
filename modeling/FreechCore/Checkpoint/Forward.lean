import FreechCore.Checkpoint.Agreement

/-!
The soft checkpoint of a node only moves forward. A vote for its height never replaces it, and a
vote for a lower one is not looked at. The signatures that are kept for it were all verified for
this very block, whether they came before it was adopted or after.
-/

namespace FreechCore

open Relation

/-- What happens to a node and its votes: a vote is cast, from elsewhere or by the node itself; a
block arrives; the votes that were put aside are dropped. -/
inductive CountStep (env : Env) : SoftNode → SoftNode → Prop
  | vote {s s' : SoftNode} {fuel rounds : ℕ} {now : ℤ} {fIBD : Bool} {vote : CSoftCheckpoint}
      {r : Bool} : castVoteSoftCheckpoint env fuel rounds now fIBD s vote = some (s', r) →
      CountStep env s s'
  | accept {s : SoftNode} {fuel rounds : ℕ} {now : ℤ} {fIBD : Bool} {b : CBlock}
      {pos : CDiskBlockPos} {n : Node} {res : Check} :
      acceptBlock env fuel rounds now fIBD s.node b pos = some (n, res) →
      CountStep env s { s with node := n }
  | drop {s : SoftNode} : CountStep env s { s with uncheckedCandidates := .empty }

/-- The signature of a user for a block was verified at some time between two states. -/
def VerifiedBetween (env : Env) (s s' : SoftNode) (cp : Checkpoint) (username sign : Bytes) :
    Prop :=
  ∃ (s₁ : SoftNode) (fuel : ℕ), ReflTransGen (CountStep env) s s₁ ∧
    ReflTransGen (CountStep env) s₁ s' ∧
      verifySignature env fuel s₁.node (cpToString cp) username sign (-1) = some true

section Forward

variable {env : Env} {signed : Bytes → Checkpoint → Prop} {s₀ s s' s'' : SoftNode}
variable {cp : Checkpoint} {username sign : Bytes}

lemma SoftStep.countSteps (h : SoftStep env signed s s') : ReflTransGen (CountStep env) s s' := by
  cases h with
  | vote _ hv => exact .single (.vote hv)
  | block _ _ hr =>
    obtain ⟨n, s₁, ha, hvote, hdrop⟩ := receiveBlock_cases hr
    have h₁ : ReflTransGen (CountStep env) s s₁ := by
      rcases hvote with rfl | ⟨-, vote, r, -, hc⟩
      · exact .single (.accept ha)
      · exact .head (.accept ha) (.single (.vote hc))
    rcases hdrop with rfl | rfl
    · exact h₁
    · exact h₁.tail .drop

lemma VerifiedBetween.tail (h : VerifiedBetween env s₀ s cp username sign)
    (hs : CountStep env s s') : VerifiedBetween env s₀ s' cp username sign := by
  obtain ⟨s₁, fuel, h₁, h₂, hv⟩ := h
  exact ⟨s₁, fuel, h₁, h₂.tail hs, hv⟩

lemma castVoteSoftCheckpoint_low {fuel rounds : ℕ} {now : ℤ} {fIBD : Bool} {vote : CSoftCheckpoint}
    (h : vote.nHeight < s.node.lastSoftCP.1) :
    castVoteSoftCheckpoint env fuel rounds now fIBD s vote = some (s, false) := by
  unfold castVoteSoftCheckpoint
  split_ifs <;> rfl

/-! ### One step -/

/-- The soft checkpoint of a node does not fall behind another one, and has enough votes if it is
not the same. -/
structure SoftNode.Ahead (s : SoftNode) (cp : Checkpoint) : Prop where
  height : cp.1 ≤ s.node.lastSoftCP.1
  hash : s.node.lastSoftCP.1 = cp.1 → s.node.lastSoftCP = cp
  voters : s.node.lastSoftCP ≠ cp → softQuorum < s.lastSoftCPSigs.size

lemma SoftNode.Ahead.congr (h : s.Ahead cp) (hl : s'.node.lastSoftCP = s.node.lastSoftCP)
    (hs : s'.lastSoftCPSigs = s.lastSoftCPSigs) : s'.Ahead cp := by
  refine ⟨?_, ?_, ?_⟩
  · rw [hl]; exact h.height
  · rw [hl]; exact h.hash
  · rw [hl, hs]; exact h.voters

lemma SoftNode.Ahead.step (h : s.Ahead cp) (hs : CountStep env s s') : s'.Ahead cp := by
  cases hs with
  | accept ha => exact h.congr (acceptBlock_softCP ha) rfl
  | drop => exact h.congr rfl rfl
  | @vote _ fuel rounds now fIBD vote r hv =>
    by_cases hlow : vote.nHeight < s.node.lastSoftCP.1
    · rw [castVoteSoftCheckpoint_low hlow] at hv
      cases hv
      exact h
    rcases castVoteSoftCheckpoint_cases hv with ⟨hn, hsame⟩ | ⟨-, ⟨-, rfl⟩ | ⟨hne, rfl | ⟨hq, hu⟩⟩⟩
    · exact h.congr (by rw [hn]) hsame.sigs
    · exact ⟨h.height, h.hash, fun hcp => (h.voters hcp).trans_le (StdMap.size_le_size_insert _ _ _)⟩
    · exact h.congr rfl rfl
    · -- the adopted block is higher
      obtain ⟨n', hf, rfl⟩ := Option.map_eq_some_iff.mp hu
      have hcp : n'.lastSoftCP = vote.checkpoint := (setSoftCPBestChain_sameTree hf).softCP
      have hheight : cp.1 < vote.checkpoint.1 := by
        have h1 := h.height
        have h2 : vote.checkpoint.1 = vote.nHeight.toNat := rfl
        omega
      refine ⟨?_, ?_, fun _ => hq⟩
      · rw [hcp]
        exact hheight.le
      · rw [hcp]
        exact fun he => absurd he hheight.ne'

/-- The signatures that a node keeps, for its soft checkpoint and for candidates, were verified
since some state. -/
structure SoftNode.Verified (env : Env) (s₀ s : SoftNode) : Prop where
  last : ∀ u sign, s.lastSoftCPSigs.find? u = some sign →
    isVoter u = true ∧ VerifiedBetween env s₀ s s.node.lastSoftCP u sign
  candidates : ∀ cp u sign, (s.sigsFor cp).find? u = some sign →
    isVoter u = true ∧ VerifiedBetween env s₀ s cp u sign

lemma SoftNode.Verified.idle {n : Node} : SoftNode.Verified env (.idle n) (.idle n) :=
  ⟨fun _ _ h => (by cases h), fun _ _ _ h => (by cases h)⟩

lemma SoftNode.Verified.congr (h : SoftNode.Verified env s₀ s) (hs : CountStep env s s')
    (hl : s'.node.lastSoftCP = s.node.lastSoftCP) (hsame : s.SameVotes s') :
    SoftNode.Verified env s₀ s' := by
  refine ⟨fun u sign hu => ?_, fun cp u sign hu => ?_⟩
  · rw [hsame.sigs] at hu
    rw [hl]
    exact (h.last u sign hu).imp_right fun hv => hv.tail hs
  · rw [SoftNode.sigsFor_congr hsame.candidates] at hu
    exact (h.candidates cp u sign hu).imp_right fun hv => hv.tail hs

lemma SoftNode.Verified.step (h : SoftNode.Verified env s₀ s)
    (hrun : ReflTransGen (CountStep env) s₀ s) (hs : CountStep env s s') :
    SoftNode.Verified env s₀ s' := by
  cases hs with
  | accept ha => exact h.congr (.accept ha) (acceptBlock_softCP ha) ⟨rfl, rfl⟩
  | drop => exact h.congr .drop rfl ⟨rfl, rfl⟩
  | @vote _ fuel rounds now fIBD vote r hv =>
    have hstep : CountStep env s s' := .vote hv
    rcases castVoteSoftCheckpoint_cases hv with ⟨hn, hsame⟩ | ⟨htakes, hcases⟩
    · exact h.congr hstep (by rw [hn]) hsame
    have hnew : isVoter vote.vchUsername = true ∧
        VerifiedBetween env s₀ s' vote.checkpoint vote.vchUsername vote.vchSign :=
      ⟨htakes.voter, s, fuel, hrun, .single hstep, htakes.verified⟩
    have hvote : ∀ cp u sign, ((s.withVote vote.checkpoint vote.vchUsername vote.vchSign).sigsFor
        cp).find? u = some sign → isVoter u = true ∧ VerifiedBetween env s₀ s' cp u sign := by
      intro cp u sign hu
      rcases SoftNode.find?_sigsFor_withVote hu with hu | ⟨rfl, rfl, rfl⟩
      · exact (h.candidates cp u sign hu).imp_right fun hv => hv.tail hstep
      · exact hnew
    rcases hcases with ⟨hcp, rfl⟩ | ⟨-, rfl | ⟨-, hu⟩⟩
    · refine ⟨fun u sign hu => ?_, fun cp u sign hu => ?_⟩
      · replace hu : (s.lastSoftCPSigs.insert vote.vchUsername vote.vchSign).find? u = some sign := hu
        rw [StdMap.find?_insert] at hu
        split_ifs at hu with he
        · rw [he, ← Option.some.inj hu]
          exact hcp ▸ hnew
        · exact (h.last u sign hu).imp_right fun hv => hv.tail hstep
      · exact (h.candidates cp u sign hu).imp_right fun hv => hv.tail hstep
    · exact ⟨fun u sign hu => (h.last u sign hu).imp_right fun hv => hv.tail hstep, hvote⟩
    · obtain ⟨n', hf, rfl⟩ := Option.map_eq_some_iff.mp hu
      have hcp : n'.lastSoftCP = vote.checkpoint := (setSoftCPBestChain_sameTree hf).softCP
      refine ⟨fun u sign hu => ?_, fun cp u sign hu => (by cases hu)⟩
      have hlast := hvote vote.checkpoint u sign hu
      exact hcp.symm ▸ hlast

/-! ### Whole runs -/

lemma SoftNode.Verified.run {n : Node} (hrun : ReflTransGen (CountStep env) (.idle n) s) :
    SoftNode.Verified env (.idle n) s := by
  induction hrun with
  | refl => exact .idle
  | tail hrun hs ih => exact ih.step hrun hs

lemma SoftNode.Ahead.run (hrun : ReflTransGen (CountStep env) s s') :
    s'.Ahead s.node.lastSoftCP := by
  induction hrun with
  | refl => exact ⟨le_rfl, fun _ => rfl, fun h => absurd rfl h⟩
  | tail _ hs ih => exact ih.step hs

/-- **Soft checkpoints only move forward.** In every run, the height of the soft checkpoint never
decreases, and its hash does not change while the height stays the same. Every signature that is
kept for it was verified in the run for this very block, by a user of one of the lists, and once
a block is adopted, there are signatures of more than half as many users as there are on the first
list. -/
theorem softCP_forward {n : Node} (h : ReflTransGen (CountStep env) (.idle n) s)
    (h' : ReflTransGen (CountStep env) s s') :
    s.node.lastSoftCP.1 ≤ s'.node.lastSoftCP.1 ∧
    (s'.node.lastSoftCP.1 = s.node.lastSoftCP.1 → s'.node.lastSoftCP = s.node.lastSoftCP) ∧
    (∀ u sign, s'.lastSoftCPSigs.find? u = some sign →
      isVoter u = true ∧ VerifiedBetween env (.idle n) s' s'.node.lastSoftCP u sign) ∧
    (s'.node.lastSoftCP ≠ s.node.lastSoftCP →
      uniqueUsersList.length < 2 * s'.lastSoftCPSigs.size) := by
  have ha := SoftNode.Ahead.run h'
  refine ⟨ha.height, ha.hash, (SoftNode.Verified.run (h.trans h')).last, fun hne => ?_⟩
  have hq := ha.voters hne
  unfold softQuorum at hq
  omega

end Forward

open Toy in
/-- Three users of the first list vote for a block, and then a fourth one. -/
theorem softCP_forward_election : ∃ n s, Started cpEnv n ∧
    ReflTransGen (CountStep cpEnv) (.idle n) s ∧ s.node.lastSoftCP = (6, 100) ∧
      s.lastSoftCPSigs.size = 4 ∧ ∀ u sign, s.lastSoftCPSigs.find? u = some sign →
        isVoter u = true ∧ VerifiedBetween cpEnv (.idle n) s (6, 100) u sign := by
  obtain ⟨s, hs, he⟩ := Option.map_eq_some_iff.mp (by decide +kernel :
    (receiveFresh (election [0, 1, 2, 3] (6, 100))).map (fun s =>
      (s.node.lastSoftCP, s.lastSoftCPSigs.size)) = some ((6, 100), 4))
  rw [Prod.mk.injEq] at he
  obtain ⟨n, hn, hall⟩ := Option.bind_eq_some_iff.mp hs
  have hrun : ReflTransGen (CountStep cpEnv) (.idle n) s := by
    have hsteps := steps_of_receiveAll (fun _ _ => id) hall
    clear hs he hall
    induction hsteps with
    | refl => exact .refl
    | tail _ hstep ih => exact ih.trans hstep.countSteps
  refine ⟨n, s, startedIn_of_eq hn, hrun, he.1, he.2, ?_⟩
  exact (softCP_forward .refl hrun).2.2.1

end FreechCore
