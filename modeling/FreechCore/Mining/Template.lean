import Mathlib.Data.List.Destutter
import FreechCore.Chain.BlockFiles
import FreechCore.Core.Push
import FreechCore.Post.Compose

/-!
Putting a block together to be mined. The first transaction carries a promoted message, signed
by a user of the wallet if there is one; then come the registrations of the memory pool that
may stand on top of the chain. What is not known yet, the extra nonce and with it the Merkle
root, is filled in later.
-/

namespace FreechCore

/-- The bytes of a number of at most `w` bytes, least significant first. -/
def numberBytes : ℕ → ℕ → Bytes
  | 0, _ => []
  | w + 1, n => if n = 0 then [] else UInt8.ofNat n :: numberBytes w (n / 256)

/-- The bytes of a number of 32 bits as a script holds it: the highest bit is that of the sign. -/
def bigNumBytes (n : ℕ) : Bytes :=
  let vch := numberBytes 4 n
  match vch.getLast? with
  | some c => if 128 ≤ c.toNat then vch ++ [0] else vch
  | none => vch

/-! ### The message to promote -/

/-- The message that is promoted if none is set. -/
def strSpamMessage : Bytes :=
  ascii ("Promoted posts are needed to run the network infrastructure. If you want to help, " ++
    "start generating blocks and advertise. [en]")

structure SpamSettings where
  strSpamUser : Bytes
  spamMessages : List Bytes

def SpamSettings.default : SpamSettings := ⟨nobody, []⟩

inductive SpamOp
  | add
  | remove
  | replace
  | unknown
  deriving DecidableEq, Repr

/-- Set the message to promote and its user. With an operation that is not known, the user is
set all the same. -/
def setspammsg (st : SpamSettings) (strUsername strMsg : Bytes) (strOp : SpamOp) :
    SpamSettings × Except String (List Bytes) :=
  let spamMsgUtf8Size := Utf8.numCharacters strMsg
  if spamMsgUtf8Size < 0 then (st, .error "spam message invalid utf8")
  else if spamMsgUtf8Size = 0 then (st, .error "empty spam message")
  else if maxSpamMsgSize < spamMsgUtf8Size then (st, .error "spam message too big")
  else
    let result (l : List Bytes) : SpamSettings × Except String (List Bytes) :=
      (⟨strUsername, l⟩, .ok l)
    match strOp with
    | .add => result ((st.spamMessages ++ [strMsg]).destutter (· ≠ ·))
    | .remove => result (st.spamMessages.filter (· ≠ strMsg))
    | .replace => result [strMsg]
    | .unknown => (⟨strUsername, st.spamMessages⟩, .error "unknown operation")

/-- After a block is found, the next message comes first. -/
def SpamSettings.rotate (st : SpamSettings) : SpamSettings :=
  match st.spamMessages with
  | [] => st
  | msg :: l => { st with spamMessages := l ++ [msg] }

/-- The key to sign the message with, if the chain and the wallet both know its user. -/
def spamKeyID (env : Env) (fuel : ℕ) (n : Node) (wallet : CWallet) (strSpamUser : Bytes) :
    Option (Option ℕ) :=
  if strSpamUser = nobody then some none
  else
    match getTransaction env fuel n strSpamUser (-1) with
    | none => none
    | some none => some none
    | some (some _) => some (wallet.getKeyIdFromUsername strSpamUser)

/-- The signature of the message; the identifier zero stands for no key. -/
def spamSignature (S : SignEnv) (wallet : CWallet) (keyID : Option ℕ) (message : CScript) :
    Option Bytes :=
  match keyID with
  | none => some []
  | some id =>
    if id = 0 then some []
    else (wallet.getKey id).bind fun key => S.signCompact key (S.hashMessage message)

/-- The transaction with the message to promote. It is checked, but the outcome is only logged.
The answer `none` means that the lookup of the user does not return, `some none` that the message
could not be signed. -/
def createSpamMsgTx (env : Env) (S : SignEnv) (fuel : ℕ) (n : Node) (wallet : CWallet)
    (st : SpamSettings) (salt : Bytes) : Option (Option CTransaction) :=
  let message := CScript.pushData (st.spamMessages.head?.getD strSpamMessage)
  (spamKeyID env fuel n wallet st.strSpamUser).map fun keyID =>
    let strUsername := if keyID.isSome then st.strSpamUser else nobody
    (spamSignature S wallet keyID message).map fun vchSig =>
      { nVersion := currentTxVersion
        message := message
        userName := CScript.pushData strUsername ++ CScript.pushData vchSig ++
          CScript.pushData salt
        pubKey := []
        nNonce := 0 }

/-! ### The registrations -/

/-- The registrations chosen so far, their size with what is set aside for the rest of the block,
and the hashes of the names that were met. -/
structure Selection where
  nBlockSize : ℕ
  uniqueUsers : List ℕ
  vtx : List CTransaction

def Selection.start : Selection := ⟨1000, [], []⟩

/-- The name of a transaction is free, or its key replaces the one on the chain. -/
def isFreeOrReplacement (env : Env) (fuel : ℕ) (n : Node) (tx : CTransaction) : Option Bool :=
  match getTransaction env fuel n tx.getUsername (-1) with
  | none => none
  | some none => some true
  | some (some _) =>
    (verifyDuplicateOrReplacementTx env fuel n tx false true (-1) false).map Prod.snd

/-- Look at one transaction of the memory pool. -/
def selectTx (env : Env) (fuel : ℕ) (n : Node) (nBlockMaxSize : ℕ) (s : Selection)
    (tx : CTransaction) : Option Selection :=
  if tx.isSpamMessage then some s
  else
    (isFreeOrReplacement env fuel n tx).map fun ok =>
      if ok = false then s
      else if tx.getUsernameHash env ∈ s.uniqueUsers then s
      else
        let s := { s with uniqueUsers := tx.getUsernameHash env :: s.uniqueUsers }
        if nBlockMaxSize ≤ s.nBlockSize + tx.serializeSize then s
        else { s with nBlockSize := s.nBlockSize + tx.serializeSize, vtx := s.vtx ++ [tx] }

def selectAll (env : Env) (fuel : ℕ) (n : Node) (nBlockMaxSize : ℕ) :
    Selection → List CTransaction → Option Selection
  | s, [] => some s
  | s, tx :: l => (selectTx env fuel n nBlockMaxSize s tx).bind fun s' =>
      selectAll env fuel n nBlockMaxSize s' l

/-! ### The block -/

def currentBlockVersion : ℤ := 2

/-- The time of a new block on top of another one. -/
def updateTime (n : Node) (tip : ℕ) (now : ℤ) : ℕ :=
  toUnsigned (max ((n.getMedianTimePast tip : ℤ) + 1) now).toNat

/-- What a call of `CreateNewBlock` ends with. -/
inductive NewBlock
  | null
  | threw (what : String)
  | template (b : CBlock)
  deriving DecidableEq

/-- The largest block to create, by the argument `-blockmaxsize`. -/
def blockMaxSize (arg : ℕ) : ℕ := max 1000 (min (maxBlockSize - 1000) arg)

/-- The answer `none` means that a lookup does not return or an assertion fails. -/
def createNewBlock (env : Env) (S : SignEnv) (fuel : ℕ) (now : ℤ) (n : Node) (wallet : CWallet)
    (st : SpamSettings) (arg : ℕ) (salt : Bytes) : Option (Node × NewBlock) :=
  match createSpamMsgTx env S fuel n wallet st salt with
  | none => none
  | some none => some (n, .null)
  | some (some txNew) => do
    let selection ← selectAll env fuel n (blockMaxSize arg) .start (n.mapTx.entries.map Prod.snd)
    let tip ← n.pindexBest
    let pindexPrev ← n.index tip
    let nTime := updateTime n tip now
    let nBits ← getNextWorkRequired env n tip pindexPrev nTime
    let b : CBlock :=
      { nVersion := currentBlockVersion
        nHeight := pindexPrev.nHeight + 1
        hashPrevBlock := tip
        hashMerkleRoot := 0
        nTime := nTime
        nBits := nBits
        nNonce := 0
        vtx := txNew :: selection.vtx }
    match connectBlock env fuel now n n.coinsTip (getHash env b) (n.newBlockIndex b ⟨0, 0⟩) b
        true with
    | none => none
    | some (n', _, .error _) => some (n', .threw "CreateNewBlock() : ConnectBlock failed")
    | some (n', _, .ok ()) => some (n', .template b)

/-! ### The extra nonce -/

def coinbaseFlags : CScript := CScript.pushData (ascii "/P2SH/")

/-- The counter of the extra nonce, and the block it counts for. -/
structure ExtraNonce where
  hashPrevBlock : ℕ
  nExtraNonce : ℕ
  deriving DecidableEq, Repr

def extraNonceScript (nExtraNonce : ℕ) : CScript :=
  CScript.pushData (bigNumBytes nExtraNonce) ++ coinbaseFlags

def incrementExtraNonce (env : Env) (pindexPrev : CBlockIndex) (s : ExtraNonce) (b : CBlock) :
    ExtraNonce × CBlock :=
  let old := if s.hashPrevBlock ≠ b.hashPrevBlock then 0 else s.nExtraNonce
  let nExtraNonce := toUnsigned (old + 1)
  let vtx := match b.vtx with
    | [] => []
    | tx :: l => { tx with pubKey := extraNonceScript nExtraNonce } :: l
  let b : CBlock := { b with nHeight := pindexPrev.nHeight + 1, vtx := vtx }
  (⟨b.hashPrevBlock, nExtraNonce⟩, { b with hashMerkleRoot := buildMerkleTree env b })

def incrementCalls (env : Env) (pindexPrev : CBlockIndex) :
    ℕ → ExtraNonce → CBlock → ExtraNonce × CBlock
  | 0, s, b => (s, b)
  | k + 1, s, b =>
    let r := incrementExtraNonce env pindexPrev s b
    incrementCalls env pindexPrev k r.1 r.2

end FreechCore
