import FreechCore.Core.Script

/-!
Transactions and blocks. A transaction either registers a user name with a public key or,
as the first one of a block, carries a promoted message. The hash and signature functions
and the parameters of the network are collected in `Env`.
-/

namespace FreechCore

structure CTransaction where
  nVersion : ℤ
  message : CScript
  userName : CScript
  pubKey : CScript
  nNonce : ℕ
  deriving DecidableEq, Repr

structure CBlockHeader where
  nVersion : ℤ
  nHeight : ℤ
  hashPrevBlock : ℕ
  hashMerkleRoot : ℕ
  nTime : ℕ
  nBits : ℕ
  nNonce : ℕ
  deriving DecidableEq, Repr

structure CBlock extends CBlockHeader where
  vtx : List CTransaction
  deriving DecidableEq, Repr

/-- What the program takes from elsewhere: hashes, signatures and the network's parameters. -/
structure Env where
  /-- the hash of a serialised transaction -/
  hashTx : CTransaction → ℕ
  /-- the hash of a serialised user name -/
  hashName : Bytes → ℕ
  /-- the hash of a serialised block header -/
  hashHeader : CBlockHeader → ℕ
  /-- the proof-of-work hash of a block header -/
  hashPow : CBlockHeader → ℕ
  /-- the hash of two hashes put together -/
  hashPair : ℕ → ℕ → ℕ
  /-- the hash of the message magic followed by a text -/
  hashMessage : Bytes → ℕ
  /-- the public key a compact signature of a hash was made with, if it is one -/
  recoverCompact : ℕ → Bytes → Option Bytes
  /-- the identifier of the public key with the given bytes -/
  keyID : Bytes → ℕ
  /-- the only transaction of the genesis block, and the rest of its header -/
  genesisTx : CTransaction
  genesisTime : ℕ
  genesisBits : ℕ
  genesisNonce : ℕ
  proofOfWorkLimit : ℕ
  txBits : ℕ
  testNet : Bool
  /-- the hard checkpoints, in the order of their heights -/
  mapCheckpoints : List (ℕ × ℕ)

/-! ### Transactions -/

namespace CTransaction

def isSpamMessage (tx : CTransaction) : Bool := tx.message ≠ []

/-- The registered name, and the empty text if it is not a small string. -/
def getUsername (tx : CTransaction) : Bytes := CScript.extractSmallString tx.userName

def getUsernameHash (env : Env) (tx : CTransaction) : ℕ :=
  if CScript.isSmallString tx.userName then env.hashName tx.getUsername else 0

end CTransaction

/-! ### Sizes on disk and on the wire -/

def getSizeOfCompactSize (nSize : ℕ) : ℕ :=
  if nSize < 253 then 1 else if nSize ≤ 0xffff then 3 else if nSize ≤ 0xffffffff then 5 else 9

def scriptSize (s : CScript) : ℕ := getSizeOfCompactSize s.length + s.length

namespace CTransaction

def serializeSize (tx : CTransaction) : ℕ :=
  4 + scriptSize tx.message + scriptSize tx.userName + scriptSize tx.pubKey + 4

lemma serializeSize_pos (tx : CTransaction) : 0 < tx.serializeSize := by
  unfold serializeSize; omega

end CTransaction

namespace CBlock

def headerSize : ℕ := 84

def serializeSize (b : CBlock) : ℕ :=
  headerSize + getSizeOfCompactSize b.vtx.length + (b.vtx.map CTransaction.serializeSize).sum

/-- The transactions of a block that register names: all but the first. -/
def registrations (b : CBlock) : List CTransaction := b.vtx.tail

/-- Read the transaction that starts at an offset, in a list that starts at `off`. -/
def readAt (offset : ℕ) : ℕ → List CTransaction → Option CTransaction
  | _, [] => none
  | off, tx :: vtx =>
    if offset = off then some tx else readAt offset (off + tx.serializeSize) vtx

def readTx (b : CBlock) (nTxOffset : ℕ) : Option CTransaction :=
  readAt nTxOffset (getSizeOfCompactSize b.vtx.length) b.vtx

/-- The transactions of a list with their offsets, in a list that starts at `off`. -/
def offsetsFrom : ℕ → List CTransaction → List (ℕ × CTransaction)
  | _, [] => []
  | off, tx :: vtx => (off, tx) :: offsetsFrom (off + tx.serializeSize) vtx

def txOffsets (b : CBlock) : List (ℕ × CTransaction) :=
  offsetsFrom (getSizeOfCompactSize b.vtx.length) b.vtx

variable {o : ℕ} {tx : CTransaction}

section

variable {off : ℕ} {vtx : List CTransaction} (h : (o, tx) ∈ offsetsFrom off vtx)

include h

lemma le_of_mem_offsetsFrom : off ≤ o := by
  induction vtx generalizing off with
  | nil => simp [offsetsFrom] at h
  | cons t vtx ih =>
    rcases List.mem_cons.mp h with h | h
    · have := congrArg Prod.fst h
      simp at this; omega
    · have := ih h; omega

lemma readAt_of_mem :
    readAt o off vtx = some tx := by
  induction vtx generalizing off with
  | nil => simp [offsetsFrom] at h
  | cons t vtx ih =>
    rcases List.mem_cons.mp h with h | h
    · cases h; simp [readAt]
    · have h1 := le_of_mem_offsetsFrom h
      have h2 := t.serializeSize_pos
      have h3 : o ≠ off := by omega
      simpa [readAt, h3] using ih h

end

lemma readTx_of_mem {b : CBlock} (h : (o, tx) ∈ b.txOffsets) :
    b.readTx o = some tx := readAt_of_mem h

@[simp] lemma map_snd_offsetsFrom (off : ℕ) (vtx : List CTransaction) :
    (offsetsFrom off vtx).map Prod.snd = vtx := by
  induction vtx generalizing off with
  | nil => rfl
  | cons t vtx ih => simp [offsetsFrom, ih]

@[simp] lemma map_snd_txOffsets (b : CBlock) : b.txOffsets.map Prod.snd = b.vtx :=
  map_snd_offsetsFrom _ _

end CBlock

/-! ### Merkle trees -/

/-- One level of the tree: neighbours are hashed together, a last odd one with itself. -/
def merkleLevel (env : Env) : List ℕ → List ℕ
  | [] => []
  | [a] => [env.hashPair a a]
  | a :: b :: l => env.hashPair a b :: merkleLevel env l

/-- Level after level until one hash is left; a level of `n` has at most `n - 1` above it. -/
def merkleRoot (env : Env) : ℕ → List ℕ → ℕ
  | _, [] => 0
  | _, [a] => a
  | 0, a :: _ :: _ => a
  | fuel + 1, a :: b :: l => merkleRoot env fuel (merkleLevel env (a :: b :: l))

def buildMerkleTree (env : Env) (b : CBlock) : ℕ :=
  merkleRoot env b.vtx.length (b.vtx.map env.hashTx)

/-! ### Hashes of blocks, and the genesis block -/

def getHash (env : Env) (b : CBlock) : ℕ := env.hashHeader b.toCBlockHeader

def getPoWHash (env : Env) (b : CBlock) : ℕ := env.hashPow b.toCBlockHeader

def genesisBlock (env : Env) : CBlock where
  nVersion := 1
  nHeight := 0
  hashPrevBlock := 0
  hashMerkleRoot := env.hashTx env.genesisTx
  nTime := env.genesisTime
  nBits := env.genesisBits
  nNonce := env.genesisNonce
  vtx := [env.genesisTx]

def hashGenesisBlock (env : Env) : ℕ := getHash env (genesisBlock env)

@[simp] lemma registrations_genesisBlock (env : Env) : (genesisBlock env).registrations = [] := rfl

end FreechCore
