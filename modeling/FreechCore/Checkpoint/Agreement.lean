import FreechCore.Lib.Quorum
import FreechCore.Checkpoint.Moves

/-!
Do all nodes adopt the same soft checkpoints? A node adopts a block once it has votes of more
than half as many users as there are on the first list, so that any two majorities of that
list meet. But the votes of the users on the second list count as well. With them there are
enough voters for two quorums without a common member.
-/

namespace FreechCore

open Option Quorum Relation

variable {cp cp' : Checkpoint}

/-! ### Networks -/

/-- A step of a network: one of its nodes receives something. -/
inductive NetStep (env : Env) (signed : Bytes → Checkpoint → Prop) {ι : Type*} [DecidableEq ι] :
    (ι → SoftNode) → (ι → SoftNode) → Prop
  | node {net : ι → SoftNode} (i : ι) {s' : SoftNode} : SoftStep env signed (net i) s' →
      NetStep env signed net (Function.update net i s')

/-- The user is on one of the lists and has signed a vote for the block. -/
def VotesFor (signed : Bytes → Checkpoint → Prop) (u : Bytes) (cp : Checkpoint) : Prop :=
  isVoter u = true ∧ signed u cp

/-- How many votes are not enough. -/
def softQuorum : ℕ := uniqueUsersList.length / 2

/-! ### What a node has adopted was carried by votes -/

/-- Everything a node has counted was signed, and what it has adopted got enough votes. -/
structure SoftNode.Counts (signed : Bytes → Checkpoint → Prop) (s : SoftNode) : Prop where
  candidates : ∀ cp, ∀ u ∈ (s.sigsFor cp).keys, VotesFor signed u cp
  last : s.node.lastSoftCP.1 ≠ 0 → Carried softQuorum (VotesFor signed) s.node.lastSoftCP

section Counts

variable {env : Env} {signed : Bytes → Checkpoint → Prop} {s s' : SoftNode}

lemma SoftNode.Counts.idle {n : Node} (hn : n.lastSoftCP.1 = 0) : (SoftNode.idle n).Counts signed :=
  ⟨fun _ _ hu => (by cases hu), fun h => absurd hn h⟩

lemma SoftNode.sigsFor_congr (h : s'.nextCandidates = s.nextCandidates) (cp : Checkpoint) :
    s'.sigsFor cp = s.sigsFor cp := by
  unfold SoftNode.sigsFor
  rw [h]

lemma SoftNode.Counts.congr (h : s.Counts signed) (hc : s'.nextCandidates = s.nextCandidates)
    (hl : s'.node.lastSoftCP = s.node.lastSoftCP) : s'.Counts signed :=
  ⟨fun cp => by rw [SoftNode.sigsFor_congr hc]; exact h.candidates cp, by rw [hl]; exact h.last⟩

lemma SoftNode.find?_sigsFor_withVote {u username sign sign' : Bytes}
    (h : ((s.withVote cp username sign).sigsFor cp').find? u = some sign') :
    (s.sigsFor cp').find? u = some sign' ∨ (cp' = cp ∧ u = username ∧ sign' = sign) := by
  unfold SoftNode.sigsFor SoftNode.withVote at h
  rw [StdMap.find?_insert] at h
  by_cases hcp : cp' = cp
  · subst hcp
    rw [if_pos rfl, getD_some, StdMap.find?_insert] at h
    split_ifs at h with hu
    · exact Or.inr ⟨rfl, hu, (some.inj h).symm⟩
    · exact Or.inl h
  · rw [if_neg fun he => hcp (toLex_inj.mp he)] at h
    exact Or.inl h

lemma SoftNode.Counts.withVote {vote : CSoftCheckpoint} (h : s.Counts signed)
    (hv : VotesFor signed vote.vchUsername vote.checkpoint) :
    (s.withVote vote.checkpoint vote.vchUsername vote.vchSign).Counts signed := by
  refine ⟨fun cp u hu => ?_, h.last⟩
  obtain ⟨sign, hu⟩ := isSome_iff_exists.mp (StdMap.mem_keys_iff.mp hu)
  rcases SoftNode.find?_sigsFor_withVote hu with hu | ⟨rfl, rfl, -⟩
  · exact h.candidates cp u (StdMap.mem_keys_iff.mpr (isSome_of_eq_some hu))
  · exact hv

lemma SoftNode.Counts.adopt (h : s.Counts signed) (hq : softQuorum < (s.sigsFor cp).size) :
    (s.adopt cp).Counts signed := by
  refine ⟨fun cp' u hu => (by cases hu), fun _ => ⟨(s.sigsFor cp).keys.toFinset, ?_, fun u hu => ?_⟩⟩
  · rwa [List.toFinset_card_of_nodup (StdMap.nodup_keys _), StdMap.length_keys]
  · exact h.candidates cp u (List.mem_toFinset.mp hu)

lemma SoftNode.Counts.vote {fuel rounds : ℕ} {now : ℤ} {fIBD : Bool} {vote : CSoftCheckpoint}
    {r : Bool} (h : s.Counts signed)
    (hauth : s.Takes env fuel vote → signed vote.vchUsername vote.checkpoint)
    (hs : castVoteSoftCheckpoint env fuel rounds now fIBD s vote = some (s', r)) :
    s'.Counts signed := by
  rcases castVoteSoftCheckpoint_cases hs with ⟨hn, hv⟩ | ⟨htakes, hcases⟩
  · exact h.congr hv.candidates (by rw [hn])
  have hvote : VotesFor signed vote.vchUsername vote.checkpoint := ⟨htakes.voter, hauth htakes⟩
  rcases hcases with ⟨-, rfl⟩ | ⟨-, rfl | ⟨hq, hu⟩⟩
  · exact h.congr rfl rfl
  · exact h.withVote hvote
  · obtain ⟨n', hf, rfl⟩ := map_eq_some_iff.mp hu
    exact ((h.withVote hvote).adopt hq).congr rfl (setSoftCPBestChain_sameTree hf).softCP

lemma acceptBlock_softCP {fuel rounds : ℕ} {now : ℤ} {fIBD : Bool} {n n' : Node} {b : CBlock}
    {pos : CDiskBlockPos} {res : Check}
    (h : acceptBlock env fuel rounds now fIBD n b pos = some (n', res)) :
    n'.lastSoftCP = n.lastSoftCP := by
  rcases acceptBlock_sameTree h with hs | hs
  · exact hs.softCP
  · exact hs.softCP.trans (store_stores n env b pos).softCP

lemma SoftNode.Counts.step (h : s.Counts signed) (hs : SoftStep env signed s s') :
    s'.Counts signed := by
  cases hs with
  | vote hauth hv => exact h.vote hauth hv
  | block _ hown hr =>
    obtain ⟨n, s₁, ha, hvote, hdrop⟩ := receiveBlock_cases hr
    have hacc : SoftNode.Counts signed { s with node := n } := h.congr rfl (acceptBlock_softCP ha)
    have h₁ : s₁.Counts signed := by
      rcases hvote with rfl | ⟨rfl, vote, r, hv, hc⟩
      · exact hacc
      · exact hacc.vote (fun _ => hown n vote hv ha) hc
    rcases hdrop with rfl | rfl
    · exact h₁
    · exact h₁.congr rfl rfl

lemma NetStep.run {ι : Type*} [DecidableEq ι] {net : ι → SoftNode} {i : ι}
    (hrun : ReflTransGen (SoftStep env signed) (net i) s) :
    ReflTransGen (NetStep env signed) net (Function.update net i s) := by
  induction hrun with
  | refl => rw [Function.update_eq_self]
  | @tail s₁ s₂ _ hstep ih =>
    have h : NetStep env signed (Function.update net i s₁)
        (Function.update (Function.update net i s₁) i s₂) :=
      .node i (by rw [Function.update_self]; exact hstep)
    rw [Function.update_idem] at h
    exact ih.tail h

lemma counts_of_run {ι : Type*} [DecidableEq ι] {net net' : ι → SoftNode}
    (h : ∀ i, (net i).Counts signed) (hrun : ReflTransGen (NetStep env signed) net net') (i : ι) :
    (net' i).Counts signed := by
  induction hrun generalizing i with
  | refl => exact h i
  | tail _ hstep ih =>
    cases hstep with
    | node j hs =>
      by_cases hij : i = j
      · subst hij
        rw [Function.update_self]
        exact (ih i).step hs
      · rw [Function.update_of_ne hij]
        exact ih i

end Counts

/-! ### Agreement -/

/-- **Agreement on soft checkpoints.** If no user signs two blocks of one height, and fewer
users sign for the height than it takes for two quorums, then no two nodes of a network ever
adopt different blocks of that height. -/
theorem softCP_agree {env : Env} {signed : Bytes → Checkpoint → Prop} {ι : Type*} [DecidableEq ι]
    {start net net' : ι → SoftNode} {i j : ι} {height H H' : ℕ} {U : Finset Bytes}
    (hone : ∀ u, isVoter u = true → ∀ h H H', signed u (h, H) → signed u (h, H') → H = H')
    (hU : ∀ u H, isVoter u = true → signed u (height, H) → u ∈ U)
    (hcard : U.card < 2 * (softQuorum + 1))
    (hstart : ∀ i, ∃ n, Started env n ∧ start i = .idle n)
    (hrun : ReflTransGen (NetStep env signed) start net)
    (hrun' : ReflTransGen (NetStep env signed) net net') (hheight : height ≠ 0)
    (hi : (net i).node.lastSoftCP = (height, H)) (hj : (net' j).node.lastSoftCP = (height, H')) :
    H = H' := by
  have h₀ : ∀ i, (start i).Counts signed := by
    intro i
    obtain ⟨n, hn, he⟩ := hstart i
    rw [he]
    exact .idle (by rw [hn.fresh.softCP])
  have hci := (counts_of_run h₀ hrun i).last (by rw [hi]; exact hheight)
  have hcj := (counts_of_run h₀ (hrun.trans hrun') j).last (by rw [hj]; exact hheight)
  rw [hi] at hci
  rw [hj] at hcj
  obtain ⟨u, hu, hu'⟩ := hci.exists_common hcj
    (fun u hu => hu.elim (fun h => hU u H h.1 h.2) fun h => hU u H' h.1 h.2) hcard
  exact hone u hu.1 height H H' hu.2 hu'.2

namespace Toy

lemma network_of_receiveFresh {signed : Bytes → Checkpoint → Prop} {ds ds' : List Delivery}
    (hds : ∀ u cp, signedIn (ds ++ ds') u cp → signed u cp)
    (h : (receiveFresh ds).map (fun s => s.node.lastSoftCP) = some cp)
    (h' : (receiveFresh ds').map (fun s => s.node.lastSoftCP) = some cp') :
    ∃ start net : Bool → SoftNode, (∀ i, ∃ n, Started cpEnv n ∧ start i = .idle n) ∧
      ReflTransGen (NetStep cpEnv signed) start net ∧ (net false).node.lastSoftCP = cp ∧
        (net true).node.lastSoftCP = cp' := by
  obtain ⟨s, hs, rfl⟩ := map_eq_some_iff.mp h
  obtain ⟨s', hs', rfl⟩ := map_eq_some_iff.mp h'
  obtain ⟨n, hn, hs⟩ := bind_eq_some_iff.mp hs
  obtain ⟨n', hn', hs'⟩ := bind_eq_some_iff.mp hs'
  have hleft : ∀ u cp, signedIn ds u cp → signed u cp := fun u cp ⟨i, hi, hu⟩ =>
    hds u cp ⟨i, List.mem_append_left _ hi, hu⟩
  have hright : ∀ u cp, signedIn ds' u cp → signed u cp := fun u cp ⟨i, hi, hu⟩ =>
    hds u cp ⟨i, List.mem_append_right _ hi, hu⟩
  refine ⟨fun i => bif i then .idle n' else .idle n,
    Function.update (Function.update _ false s) true s', fun i => ?_,
    (NetStep.run (i := false) (steps_of_receiveAll hleft hs)).trans
      (NetStep.run (i := true) (steps_of_receiveAll hright hs')), rfl, rfl⟩
  cases i with
  | false => exact ⟨n, startedIn_of_eq hn, rfl⟩
  | true => exact ⟨n', startedIn_of_eq hn', rfl⟩

/-- The voters of a list vote for a block, once they are registered. -/
def election (voters : List ℕ) (cp : Checkpoint) : List Delivery :=
  .block electorate :: voters.map fun i => .vote i cp

lemma signedIn_elections {is js : List ℕ} {c : Checkpoint} {u : Bytes}
    (h : signedIn (election is cp ++ election js cp') u c) :
    (∃ i ∈ is, (voters.getD i ([], [])).1 = u ∧ c = cp) ∨
      ∃ j ∈ js, (voters.getD j ([], [])).1 = u ∧ c = cp' := by
  obtain ⟨k, hk, rfl⟩ := h
  simp only [election, List.mem_append, List.mem_cons, List.mem_map, reduceCtorEq, false_or,
    Delivery.vote.injEq] at hk
  rcases hk with ⟨i, hi, rfl, rfl⟩ | ⟨i, hi, rfl, rfl⟩
  · exact Or.inl ⟨i, hi, rfl, rfl⟩
  · exact Or.inr ⟨i, hi, rfl, rfl⟩

end Toy

open Toy in
/-- Two majorities of the first list, at two nodes. -/
theorem softCP_agree_majorities : ∃ start net : Bool → SoftNode,
    (∀ i, ∃ n, Started cpEnv n ∧ start i = .idle n) ∧
      ReflTransGen (NetStep cpEnv (signedIn (election [0, 1, 2] (6, 100) ++
        election [2, 3, 4] (6, 100)))) start net ∧
      (net false).node.lastSoftCP = (6, 100) ∧
        ∃ H, (net true).node.lastSoftCP = (6, H) ∧ 100 = H := by
  obtain ⟨start, net, hstart, hrun, hl, hr⟩ := network_of_receiveFresh
    (fun _ _ => id) (by decide +kernel :
      (receiveFresh (election [0, 1, 2] (6, 100))).map (fun s => s.node.lastSoftCP) = some (6, 100))
    (by decide +kernel :
      (receiveFresh (election [2, 3, 4] (6, 100))).map (fun s => s.node.lastSoftCP) = some (6, 100))
  refine ⟨start, net, hstart, hrun, hl, 100, hr, softCP_agree (U := uniqueUsersList.toFinset)
    (fun u _ h H H' hu hu' => ?_) (fun u H _ hu => ?_) (by decide +kernel) hstart hrun .refl
    (by decide) hl hr⟩
  · rcases signedIn_elections hu with ⟨_, -, -, he⟩ | ⟨_, -, -, he⟩ <;>
      rcases signedIn_elections hu' with ⟨_, -, -, he'⟩ | ⟨_, -, -, he'⟩ <;>
      exact (congrArg Prod.snd he).trans (congrArg Prod.snd he').symm
  · have hlist : ∀ i ∈ [0, 1, 2, 3, 4], (voters.getD i ([], [])).1 ∈ uniqueUsersList := by
      decide +kernel
    rcases signedIn_elections hu with ⟨i, hi, rfl, -⟩ | ⟨i, hi, rfl, -⟩ <;>
      exact hlist i (by simp at hi ⊢; omega)

open Toy in
/-- With a user of the second list, six users make two quorums: no user signs two blocks, and
two nodes adopt different blocks of one height. -/
theorem softCP_disagree : ∃ (signed : Bytes → Checkpoint → Prop) (start net : Bool → SoftNode),
    (∀ u, isVoter u = true → ∀ h H H', signed u (h, H) → signed u (h, H') → H = H') ∧
      (∀ i, ∃ n, Started cpEnv n ∧ start i = .idle n) ∧
        ReflTransGen (NetStep cpEnv signed) start net ∧
          (net false).node.lastSoftCP = (6, 100) ∧ (net true).node.lastSoftCP = (6, 200) := by
  obtain ⟨start, net, hstart, hrun, hl, hr⟩ := network_of_receiveFresh
    (fun _ _ => id) (by decide +kernel :
      (receiveFresh (election [0, 1, 2] (6, 100))).map (fun s => s.node.lastSoftCP) = some (6, 100))
    (by decide +kernel :
      (receiveFresh (election [3, 4, 5] (6, 200))).map (fun s => s.node.lastSoftCP) = some (6, 200))
  refine ⟨_, start, net, fun u _ h H H' hu hu' => ?_, hstart, hrun, hl, hr⟩
  have hdisjoint : ∀ i ∈ [0, 1, 2], ∀ j ∈ [3, 4, 5],
      (voters.getD i ([], [])).1 ≠ (voters.getD j ([], [])).1 := by decide +kernel
  rcases signedIn_elections hu with ⟨i, hi, rfl, he⟩ | ⟨i, hi, rfl, he⟩ <;>
    rcases signedIn_elections hu' with ⟨j, hj, hj', he'⟩ | ⟨j, hj, hj', he'⟩
  · exact (congrArg Prod.snd he).trans (congrArg Prod.snd he').symm
  · exact absurd hj'.symm (hdisjoint i hi j hj)
  · exact absurd hj' (hdisjoint j hj i hi)
  · exact (congrArg Prod.snd he).trans (congrArg Prod.snd he').symm

end FreechCore
