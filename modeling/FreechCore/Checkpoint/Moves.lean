import FreechCore.Checkpoint.Votes
import FreechCore.Registry.Across

/-!
The moves of a node that follows soft checkpoints: it stores a block, moves to the best chain
it knows of, adopts a soft checkpoint, or moves to the chain of the one it has. Deliveries of
blocks and of votes are sequences of such moves. None of them takes a block out of the tree,
and only a vote changes the soft checkpoint.
-/

namespace FreechCore

open Option Relation

variable {res : Check} {C F : Node → Prop} {b : CBlock} {pos : CDiskBlockPos}

/-! ### The tree and the soft checkpoint stay -/

/-- Two nodes with the same blocks and the same soft checkpoint. -/
structure Node.SameTree (n n' : Node) : Prop where
  ledger : n'.ledger = n.ledger
  softCP : n'.lastSoftCP = n.lastSoftCP

section

variable {n n' : Node} {env : Env} {fuel rounds : ℕ} {now : ℤ} {fIBD : Bool} {s s' : SoftNode}

namespace Node.SameTree

lemma refl (n : Node) : n.SameTree n := ⟨rfl, rfl⟩

lemma trans {n₁ n₂ n₃ : Node} (h : n₁.SameTree n₂) (h' : n₂.SameTree n₃) : n₁.SameTree n₃ :=
  ⟨h'.ledger.trans h.ledger, h'.softCP.trans h.softCP⟩

lemma of_frame (h : n.Frame n') : n.SameTree n' := ⟨h.ledger, h.softCP⟩

lemma across (env : Env) : Across env Node.SameTree where
  refl := refl
  trans := trans
  disconnect := fun h => of_frame (disconnectBlock_indexOnly h).frame
  connect := fun _ _ h => of_frame (connectBlock_frame h)
  child := fun n h =>
    ⟨(Node.SameChain.markFailedChild n h).ledger, Node.writeBlockIndex_lastSoftCP _ _⟩
  valid := fun n h =>
    ⟨(Marked.markFailedValid n h).same.ledger, Node.writeBlockIndex_lastSoftCP _ _⟩
  switch := fun hs => by
    rw [switchTo_eq hs]
    exact ⟨rfl, rfl⟩

end Node.SameTree

lemma connectBestBlock_sameTree (h : connectBestBlock env fuel now fIBD rounds n = some (n', res)) :
    n.SameTree n' :=
  (Node.SameTree.across env).connectBestBlock h

lemma setSoftCPBestChain_sameTree
    (h : setSoftCPBestChain env fuel rounds now fIBD n = some n') : n.SameTree n' :=
  (Node.SameTree.across env).setSoftCPBestChain h

lemma acceptBlock_sameTree (h : acceptBlock env fuel rounds now fIBD n b pos = some (n', res)) :
    n.SameTree n' ∨ (n.store env b pos).SameTree n' := by
  rcases acceptBlock_outcome h with ⟨rfl, -⟩ | ⟨-, -, n₁, r, hr, ⟨rfl, -⟩ | ⟨-, -, hf⟩⟩
  · exact .inl (.refl _)
  · exact .inr (connectBestBlock_sameTree hr)
  · exact .inr ((connectBestBlock_sameTree hr).trans (setSoftCPBestChain_sameTree hf))

/-! ### What a vote does -/

section Vote

variable {vote : CSoftCheckpoint} {r : Bool}

def CSoftCheckpoint.checkpoint (vote : CSoftCheckpoint) : Checkpoint :=
  (vote.nHeight.toNat, vote.blockHash)

/-- The vote is one that a node takes: its user is on one of the lists, and its signature is
good. -/
structure SoftNode.Takes (env : Env) (fuel : ℕ) (s : SoftNode) (vote : CSoftCheckpoint) : Prop where
  voter : isVoter vote.vchUsername = true
  height : (getHighestCheckpoint env : ℤ) ≤ vote.nHeight
  verified : verifySignature env fuel s.node (cpToString vote.checkpoint) vote.vchUsername
    vote.vchSign (-1) = some true

/-- The votes that count are the same. -/
structure SoftNode.SameVotes (s s' : SoftNode) : Prop where
  sigs : s'.lastSoftCPSigs = s.lastSoftCPSigs
  candidates : s'.nextCandidates = s.nextCandidates

/-- **What a vote does**: it is not counted; or it is one more for the soft checkpoint; or one
more for a candidate, which it may turn into the soft checkpoint. -/
lemma castVoteSoftCheckpoint_cases
    (h : castVoteSoftCheckpoint env fuel rounds now fIBD s vote = some (s', r)) :
    (s'.node = s.node ∧ s.SameVotes s') ∨
      (s.Takes env fuel vote ∧
        ((vote.checkpoint = s.node.lastSoftCP ∧ s' = s.withSig vote.vchUsername vote.vchSign) ∨
          (vote.nHeight.toNat ≠ s.node.lastSoftCP.1 ∧
            (s' = s.withVote vote.checkpoint vote.vchUsername vote.vchSign ∨
              (uniqueUsersList.length / 2 < ((s.withVote vote.checkpoint vote.vchUsername
                  vote.vchSign).sigsFor vote.checkpoint).size ∧
                lastSoftCPUpdated env fuel rounds now fIBD ((s.withVote vote.checkpoint
                  vote.vchUsername vote.vchSign).adopt vote.checkpoint) = some s'))))) := by
  unfold castVoteSoftCheckpoint at h
  split_ifs at h with h1 h2 h3 h4 h5
  -- the vote is dropped before its signature is read
  iterate 5
    · cases h
      exact Or.inl ⟨rfl, rfl, rfl⟩
  dsimp only at h
  split at h
  · cases h
  · cases h
    exact Or.inl ⟨rfl, rfl, rfl⟩
  rename_i hver
  have htakes : s.Takes env fuel vote := ⟨by simpa using h4, not_lt.mp h2, hver⟩
  unfold castVerifiedVote at h
  by_cases h6 : vote.nHeight.toNat = s.node.lastSoftCP.1
  · -- a vote at the height of the soft checkpoint
    rw [if_pos h6] at h
    split_ifs at h with h7 h8
    · cases h
      exact Or.inl ⟨rfl, rfl, rfl⟩
    · cases h
      exact Or.inl ⟨rfl, rfl, rfl⟩
    · cases h
      exact Or.inr ⟨htakes, Or.inl ⟨not_not.mp h8, rfl⟩⟩
  · dsimp only at h
    split_ifs at h with h7 h8
    · cases h
      exact Or.inl ⟨rfl, rfl, rfl⟩
    · obtain ⟨s₁, hs, he⟩ := map_eq_some_iff.mp h
      cases he
      exact Or.inr ⟨htakes, Or.inr ⟨h6, Or.inr ⟨h8, hs⟩⟩⟩
    · cases h
      exact Or.inr ⟨htakes, Or.inr ⟨h6, Or.inl rfl⟩⟩

end Vote

/-! ### Moves -/

/-- The moves of a node. Its calls of `ConnectBestBlock` meet the condition `C`, and those of
`SetSoftCPBestChain` the condition `F`. -/
inductive Move (env : Env) (C F : Node → Prop) : Node → Node → Prop
  | store {n : Node} {b : CBlock} {pos : CDiskBlockPos} :
      n.Fits env b pos → Move env C F n (n.store env b pos)
  | connect {n n' : Node} {fuel rounds : ℕ} {now : ℤ} {fIBD : Bool} {res : Check} : C n →
      connectBestBlock env fuel now fIBD rounds n = some (n', res) → Move env C F n n'
  | adopt {n : Node} (cp : Checkpoint) : Move env C F n { n with lastSoftCP := cp }
  | follow {n n' : Node} {fuel rounds : ℕ} {now : ℤ} {fIBD : Bool} : F n →
      setSoftCPBestChain env fuel rounds now fIBD n = some n' → Move env C F n n'

abbrev AnyMove (env : Env) : Node → Node → Prop := Move env (fun _ => True) fun _ => True

def MovedTo (env : Env) (C F : Node → Prop) (n : Node) : Prop :=
  ∃ n₀, Started env n₀ ∧ ReflTransGen (Move env C F) n₀ n

lemma MovedTo.invariant {X : Node → Prop} (hi : ∀ n, Started env n → X n)
    (hs : ∀ n n', Move env C F n n' → X n → X n') (hr : MovedTo env C F n) : X n := by
  obtain ⟨n₀, h₀, hrun⟩ := hr
  induction hrun with
  | refl => exact hi n₀ h₀
  | tail _ hstep ih => exact hs _ _ hstep ih

section

variable (hg : (n.index (hashGenesisBlock env)).isSome = true) (hpos : n.blockFiles pos = none)

include hg hpos

/-- **Every delivery of a block is a sequence of moves**, whose calls meet their conditions if
the one of `ConnectBestBlock` does and the node it leads to does. -/
theorem acceptBlock_movesOf (hC : C (n.store env b pos))
    (hF : ∀ n₁ r, connectBestBlock env fuel now fIBD rounds (n.store env b pos) = some (n₁, r) →
      F n₁) (h : acceptBlock env fuel rounds now fIBD n b pos = some (n', res)) :
    ReflTransGen (Move env C F) n n' := by
  rcases acceptBlock_cases h hg hpos with
    ⟨rfl, -⟩ | ⟨hfit, -, n₁, r, hr, ⟨rfl, -⟩ | ⟨-, -, hf⟩⟩
  · exact .refl
  · exact .head (.store hfit) (.single (.connect hC hr))
  · exact .head (.store hfit) (.head (.connect hC hr) (.single (.follow (hF _ _ hr) hf)))

theorem acceptBlock_moves (h : acceptBlock env fuel rounds now fIBD n b pos = some (n', res)) :
    ReflTransGen (AnyMove env) n n' :=
  acceptBlock_movesOf hg hpos trivial (fun _ _ _ => trivial) h

end

/-- What becomes of a block that arrives: it is offered to the tree, then the node may vote, and
the votes that were put aside may be dropped. -/
lemma receiveBlock_cases {fImporting : Bool} {wallet : Wallet}
    (h : receiveBlock env fuel rounds now fIBD fImporting wallet s b pos = some (s', res)) :
    ∃ n s₁, acceptBlock env fuel rounds now fIBD s.node b pos = some (n, res) ∧
      (s₁ = { s with node := n } ∨ (res = .ok () ∧ ∃ vote r,
        ownVote env fImporting wallet n = some (some vote) ∧
          castVoteSoftCheckpoint env fuel rounds now fIBD { s with node := n } vote =
            some (s₁, r))) ∧
      (s' = s₁ ∨ s' = { s₁ with uncheckedCandidates := .empty }) := by
  unfold receiveBlock at h
  split at h
  · cases h
  · rename_i n f ha
    cases h
    exact ⟨n, _, ha, .inl rfl, .inl rfl⟩
  · rename_i n ha
    obtain ⟨s₂, hn, he⟩ := map_eq_some_iff.mp h
    cases he
    obtain ⟨s₁, hvoted, rfl⟩ := map_eq_some_iff.mp hn
    refine ⟨n, s₁, ha, ?_, ?_⟩
    · split at hvoted
      · cases hvoted
      · cases hvoted
        exact .inl rfl
      · rename_i vote hvote
        obtain ⟨⟨s₃, r⟩, hc, rfl⟩ := map_eq_some_iff.mp hvoted
        exact .inr ⟨rfl, vote, r, hvote, hc⟩
    · split_ifs
      · exact .inr rfl
      · exact .inl rfl

/-- **Every delivery of a vote is a sequence of moves.** -/
theorem castVoteSoftCheckpoint_moves {vote : CSoftCheckpoint} {r : Bool}
    (h : castVoteSoftCheckpoint env fuel rounds now fIBD s vote = some (s', r)) :
    ReflTransGen (AnyMove env) s.node s'.node := by
  rcases castVoteSoftCheckpoint_cases h with ⟨he, -⟩ | ⟨-, ⟨-, rfl⟩ | ⟨-, rfl | ⟨-, hu⟩⟩⟩
  · rw [he]
  · exact .refl
  · exact .refl
  · obtain ⟨n', hf, rfl⟩ := map_eq_some_iff.mp hu
    exact .head (.adopt vote.checkpoint) (.single (.follow trivial hf))

/-! ### Nodes that receive votes and blocks -/

/-- What a node receives: votes of anyone, in any order and as often as they come, and blocks,
after which it may vote itself. The votes that users have signed are `signed`, and a signature
that the node finds good was made by its user. -/
inductive SoftStep (env : Env) (signed : Bytes → Checkpoint → Prop) : SoftNode → SoftNode → Prop
  | vote {s s' : SoftNode} {fuel rounds : ℕ} {now : ℤ} {fIBD : Bool} {vote : CSoftCheckpoint}
      {r : Bool} :
      (s.Takes env fuel vote → signed vote.vchUsername vote.checkpoint) →
      castVoteSoftCheckpoint env fuel rounds now fIBD s vote = some (s', r) →
        SoftStep env signed s s'
  | block {s s' : SoftNode} {fuel rounds : ℕ} {now : ℤ} {fIBD fImporting : Bool}
      {wallet : Wallet} {b : CBlock} {pos : CDiskBlockPos} {res : Check} :
      s.node.blockFiles pos = none →
      (∀ n vote, ownVote env fImporting wallet n = some (some vote) →
        acceptBlock env fuel rounds now fIBD s.node b pos = some (n, .ok ()) →
          signed vote.vchUsername vote.checkpoint) →
      receiveBlock env fuel rounds now fIBD fImporting wallet s b pos = some (s', res) →
        SoftStep env signed s s'

section Runs

variable {signed : Bytes → Checkpoint → Prop}

lemma MovedTo.genesis (hr : MovedTo env C F n) :
    (n.index (hashGenesisBlock env)).isSome = true := by
  refine hr.invariant (X := fun n => (n.index (hashGenesisBlock env)).isSome = true)
    (fun n hn => hn.fresh.settled.genesis) fun n n' hm hg => ?_
  cases hm with
  | store hfit =>
    obtain ⟨p, hp⟩ := isSome_iff_exists.mp hg
    have hp' : (n.store env _ _).index (hashGenesisBlock env) = some p := hfit.grows.index hp
    rw [hp']
    rfl
  | connect _ h => rw [Node.index_congr (connectBestBlock_sameTree h).ledger]; exact hg
  | adopt cp => exact hg
  | follow _ h => rw [Node.index_congr (setSoftCPBestChain_sameTree h).ledger]; exact hg

/-- **Every step of a node is a sequence of moves.** -/
theorem SoftStep.moves (h : SoftStep env signed s s')
    (hg : (s.node.index (hashGenesisBlock env)).isSome = true) :
    ReflTransGen (AnyMove env) s.node s'.node := by
  cases h with
  | vote _ hv => exact castVoteSoftCheckpoint_moves hv
  | block hpos _ hr =>
    obtain ⟨n, s₁, ha, hvote, hdrop⟩ := receiveBlock_cases hr
    have hnode : s'.node = s₁.node := by rcases hdrop with rfl | rfl <;> rfl
    rw [hnode]
    refine (acceptBlock_moves hg hpos ha).trans ?_
    rcases hvote with rfl | ⟨-, vote, r, -, hc⟩
    · exact .refl
    · exact castVoteSoftCheckpoint_moves hc

/-- The states of a node that receives votes and blocks. -/
def SoftReached (env : Env) (signed : Bytes → Checkpoint → Prop) (s : SoftNode) : Prop :=
  ∃ n, Started env n ∧ ReflTransGen (SoftStep env signed) (.idle n) s

/-- They are reached by moves. -/
theorem SoftReached.movedTo (h : SoftReached env signed s) :
    MovedTo env (fun _ => True) (fun _ => True) s.node := by
  obtain ⟨n, hn, hrun⟩ := h
  induction hrun with
  | refl => exact ⟨n, hn, .refl⟩
  | tail _ hstep ih =>
    obtain ⟨n₀, h₀, hmoves⟩ := ih
    exact ⟨n₀, h₀, hmoves.trans (hstep.moves (MovedTo.genesis ⟨n₀, h₀, hmoves⟩))⟩

end Runs

end

/-! ### Votes with the small instance -/

namespace Toy

/-- The small instance with a hard checkpoint at the genesis block. A transaction is known by
its name, so that its hash stays small. -/
def cpEnv : Env :=
  { env with hashTx := fun tx => code tx.userName, mapCheckpoints := [(0, 1)] }

def cpBlock := blockIn cpEnv

def voters : List (Bytes × Bytes) :=
  [("mf1", 1), ("mf1a", 2), ("mf2", 3), ("mf3", 4), ("omgasm", 5), ("mf2a", 6)].map
    fun v => (ascii v.1, 2 :: List.replicate 32 v.2)

def electorate : CBlock := cpBlock 2 1 1 spam (voters.map fun v => register v.1 v.2)

/-- The vote of a user; a key signs by its name. -/
def voteBy (i : ℕ) (cp : Checkpoint) : CSoftCheckpoint :=
  let v := voters.getD i ([], [])
  ⟨cp.1, cp.2, v.1, v.2⟩

/-- What a node is sent: a block, or a vote of a user. -/
inductive Delivery
  | block (b : CBlock)
  | vote (i : ℕ) (cp : Checkpoint)

/-- Blocks without registrations, one on the other. -/
def blocksOn (prev : ℕ) (height : ℤ) : List ℕ → List Delivery
  | [] => []
  | hash :: l => .block (cpBlock hash prev height spam []) :: blocksOn hash (height + 1) l

def votes (cp : Checkpoint) : List Delivery := [.vote 0 cp, .vote 1 cp, .vote 2 cp]

def receive (s : SoftNode) : Delivery → Option SoftNode
  | .block b =>
    let pos : CDiskBlockPos := ⟨0, getHash cpEnv b⟩
    if (s.node.blockFiles pos).isSome then none
    else (receiveBlock cpEnv 20 20 10000000 false false ⟨[], fun _ _ => []⟩ s b pos).map Prod.fst
  | .vote i cp =>
    (castVoteSoftCheckpoint cpEnv 20 20 10000000 false s (voteBy i cp)).map Prod.fst

def receiveAll : List Delivery → SoftNode → Option SoftNode
  | [], s => some s
  | d :: ds, s => (receive s d).bind (receiveAll ds)

def receiveFresh (ds : List Delivery) : Option SoftNode :=
  (startedIn cpEnv).bind fun n => receiveAll ds (.idle n)

def signedIn (ds : List Delivery) (u : Bytes) (cp : Checkpoint) : Prop :=
  ∃ i, .vote i cp ∈ ds ∧ (voters.getD i ([], [])).1 = u

lemma steps_of_receiveAll {signed : Bytes → Checkpoint → Prop} {ds : List Delivery}
    {s s' : SoftNode} (hsigned : ∀ u cp, signedIn ds u cp → signed u cp)
    (h : receiveAll ds s = some s') : ReflTransGen (SoftStep cpEnv signed) s s' := by
  induction ds generalizing s with
  | nil => cases h; exact .refl
  | cons d ds ih =>
    obtain ⟨s₁, h₁, h₂⟩ := bind_eq_some_iff.mp h
    refine .head ?_ (ih (fun u cp ⟨i, hi, hu⟩ => hsigned u cp ⟨i, List.mem_cons_of_mem _ hi, hu⟩) h₂)
    cases d with
    | block b =>
      simp only [receive] at h₁
      split_ifs at h₁ with hpos
      obtain ⟨⟨s₂, r⟩, hr, rfl⟩ := map_eq_some_iff.mp h₁
      refine .block (not_isSome_iff_eq_none.mp hpos) (fun n vote hv _ => ?_) hr
      -- the wallet is empty
      unfold ownVote at hv
      split_ifs at hv <;> cases hv
    | vote i cp =>
      obtain ⟨⟨s₂, r⟩, hr, rfl⟩ := map_eq_some_iff.mp h₁
      exact .vote (fun _ => hsigned _ _ ⟨i, List.mem_cons_self, rfl⟩) hr

lemma softReached_of_receiveFresh {ds : List Delivery} {s : SoftNode}
    (h : receiveFresh ds = some s) : SoftReached cpEnv (signedIn ds) s := by
  obtain ⟨n, hn, hs⟩ := bind_eq_some_iff.mp h
  exact ⟨n, startedIn_of_eq hn, steps_of_receiveAll (fun _ _ => id) hs⟩

end Toy

end FreechCore
