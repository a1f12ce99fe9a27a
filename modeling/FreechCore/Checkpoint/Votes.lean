import Mathlib.Data.Nat.Digits.Defs
import Mathlib.Data.Prod.Lex
import FreechCore.Post.ChainView

/-!
Soft checkpoints. A few users named in the program vote for a block at every sixth height.
A node counts the votes that it can verify, and adopts the block that gets more than half as
many votes as there are users on the first of the two lists.
-/

namespace FreechCore

/-- Height and hash of a block. -/
abbrev Checkpoint := ℕ × ℕ

abbrev CPSigMap := StdMap Bytes Bytes

/-- A vote as it is sent around. -/
structure CSoftCheckpoint where
  nHeight : ℤ
  blockHash : ℕ
  vchUsername : Bytes
  vchSign : Bytes
  deriving DecidableEq, Repr

def softCheckpointPeriod : ℕ := 6

def uniqueUsersList : List Bytes := ["mf1", "mf1a", "mf2", "mf3", "omgasm"].map ascii

def upcomingUsersList : List Bytes := ["nobody", "mf2a", "lxoliva", "stman", "wrewolf"].map ascii

def isVoter (username : Bytes) : Bool :=
  uniqueUsersList.contains username || upcomingUsersList.contains username

/-- The height of the last hard checkpoint. -/
def getHighestCheckpoint (env : Env) : ℕ := (env.mapCheckpoints.getLast?.map Prod.fst).getD 0

/-! ### What is signed -/

/-- The bytes of a number that is not negative, lowest first, with room for a sign. -/
def getvch (k : ℕ) : Bytes :=
  let vch := (Nat.digits 256 k).map UInt8.ofNat
  if (vch.getLast?.getD 0).toNat < 128 then vch else vch ++ [0]

/-- Push a number that is not negative. -/
def pushInt64 (k : ℕ) : CScript :=
  if 1 ≤ k ∧ k ≤ 16 then [UInt8.ofNat (k + 0x50)]
  else UInt8.ofNat (getvch k).length :: getvch k

def pushUint256 (hash : ℕ) : CScript :=
  32 :: (List.range 32).map fun i => UInt8.ofNat (hash / 256 ^ i)

def cpToString (cp : Checkpoint) : Bytes := pushInt64 cp.1 ++ pushUint256 cp.2

/-! ### Counting votes -/

/-- A node together with the votes it counts. -/
structure SoftNode where
  node : Node
  lastSoftCPSigs : CPSigMap
  nextCandidates : StdMap (ℕ ×ₗ ℕ) CPSigMap
  uncheckedCandidates : StdMap (ℕ ×ₗ ℕ) CPSigMap

namespace SoftNode

/-- A node that has not counted a vote yet. -/
def idle (n : Node) : SoftNode := ⟨n, .empty, .empty, .empty⟩

def withSig (s : SoftNode) (username sign : Bytes) : SoftNode :=
  { s with lastSoftCPSigs := s.lastSoftCPSigs.insert username sign }

def sigsFor (s : SoftNode) (cp : Checkpoint) : CPSigMap :=
  (s.nextCandidates.find? (toLex cp)).getD .empty

def withVote (s : SoftNode) (cp : Checkpoint) (username sign : Bytes) : SoftNode :=
  { s with nextCandidates :=
      s.nextCandidates.insert (toLex cp) ((s.sigsFor cp).insert username sign) }

/-- A candidate becomes the soft checkpoint, with its votes, and all others are dropped. -/
def adopt (s : SoftNode) (cp : Checkpoint) : SoftNode :=
  { s with
    node := { s.node with lastSoftCP := cp }
    lastSoftCPSigs := s.sigsFor cp
    nextCandidates := .empty }

end SoftNode

def lastSoftCPUpdated (env : Env) (fuel rounds : ℕ) (now : ℤ) (fIsInitialDownload : Bool)
    (s : SoftNode) : Option SoftNode :=
  (setSoftCPBestChain env fuel rounds now fIsInitialDownload s.node).map fun n =>
    { s with node := n }

/-- Count a vote whose signature is good; the answer is whether it is new. -/
def castVerifiedVote (env : Env) (fuel rounds : ℕ) (now : ℤ) (fIsInitialDownload : Bool)
    (s : SoftNode) (cp : Checkpoint) (username sign : Bytes) : Option (SoftNode × Bool) :=
  if cp.1 = s.node.lastSoftCP.1 then
    if s.lastSoftCPSigs.contains username then some (s, false)
    else if cp ≠ s.node.lastSoftCP then some (s, false)
    else some (s.withSig username sign, true)
  else if (s.sigsFor cp).contains username then some (s, false)
  else
    let s := s.withVote cp username sign
    if uniqueUsersList.length / 2 < (s.sigsFor cp).size then
      (lastSoftCPUpdated env fuel rounds now fIsInitialDownload (s.adopt cp)).map (·, true)
    else some (s, true)

/-- Count a vote; the answer is whether it is to be sent on. -/
def castVoteSoftCheckpoint (env : Env) (fuel rounds : ℕ) (now : ℤ) (fIsInitialDownload : Bool)
    (s : SoftNode) (vote : CSoftCheckpoint) : Option (SoftNode × Bool) :=
  if vote.nHeight.tmod softCheckpointPeriod ≠ 0 then some (s, false)
  else if vote.nHeight < getHighestCheckpoint env then some (s, false)
  else if vote.nHeight < s.node.lastSoftCP.1 then some (s, false)
  else if isVoter vote.vchUsername = false then some (s, false)
  else
    let cp : Checkpoint := (vote.nHeight.toNat, vote.blockHash)
    if s.node.nBestHeight < getHighestCheckpoint env then
      -- still downloading: the vote is put aside, and is never looked at again
      let sigs := ((s.uncheckedCandidates.find? (toLex cp)).getD .empty).insert
        vote.vchUsername vote.vchSign
      some ({ s with uncheckedCandidates := s.uncheckedCandidates.insert (toLex cp) sigs }, false)
    else
      match verifySignature env fuel s.node (cpToString cp) vote.vchUsername vote.vchSign (-1) with
      | none => none
      | some false => some (s, false)
      | some true =>
        castVerifiedVote env fuel rounds now fIsInitialDownload s cp vote.vchUsername vote.vchSign

/-! ### Blocks -/

/-- The names of the wallet, in the order of their keys, and what signing a text for one of
them gives (nothing if the wallet is locked). -/
structure Wallet where
  usernames : List Bytes
  createSignature : (strMessage strUsername : Bytes) → Bytes

/-- The vote of the node itself after a new block; `none` is a failed assertion. -/
def ownVote (env : Env) (fImporting : Bool) (wallet : Wallet) (n : Node) :
    Option (Option CSoftCheckpoint) :=
  if n.nBestHeight.tmod softCheckpointPeriod = 0 ∧ getHighestCheckpoint env < n.nBestHeight ∧
      n.lastSoftCP.1 + softCheckpointPeriod ≤ n.nBestHeight ∧ fImporting = false then
    match wallet.usernames.find? isVoter with
    | none => some none
    | some username =>
      let height := (n.nBestHeight - softCheckpointPeriod).toNat
      match (n.vBlockIndexByHeight[height]?).join with
      | none => none
      | some hash =>
        let sign := wallet.createSignature (cpToString (height, hash)) username
        some (if sign = [] then none else some ⟨height, hash, username, sign⟩)
  else some none

/-- What is left to do for a new block once the chain follows the soft checkpoint: to vote,
and to drop the votes that were put aside. -/
def newBlockAccepted (env : Env) (fuel rounds : ℕ) (now : ℤ) (fIsInitialDownload : Bool)
    (fImporting : Bool) (wallet : Wallet) (s : SoftNode) : Option SoftNode :=
  let voted := match ownVote env fImporting wallet s.node with
    | none => none
    | some none => some s
    | some (some vote) =>
      (castVoteSoftCheckpoint env fuel rounds now fIsInitialDownload s vote).map Prod.fst
  voted.map fun (s : SoftNode) =>
    if getHighestCheckpoint env < s.node.nBestHeight
    then { s with uncheckedCandidates := .empty } else s

def receiveBlock (env : Env) (fuel rounds : ℕ) (now : ℤ) (fIsInitialDownload : Bool)
    (fImporting : Bool) (wallet : Wallet) (s : SoftNode) (b : CBlock) (pos : CDiskBlockPos) :
    Option (SoftNode × Check) :=
  match acceptBlock env fuel rounds now fIsInitialDownload s.node b pos with
  | none => none
  | some (n, .error f) => some ({ s with node := n }, .error f)
  | some (n, .ok ()) =>
    (newBlockAccepted env fuel rounds now fIsInitialDownload fImporting wallet
      { s with node := n }).map (·, .ok ())

end FreechCore
