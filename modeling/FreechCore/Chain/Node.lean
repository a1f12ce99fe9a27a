import FreechCore.Lib.StdMap
import FreechCore.Core.Validation

/-!
The state of a node: the block tree, the active chain, and the databases behind them.

A pointer to a block index entry is the hash the entry is filed under. The fields of an
entry that never change after it is made are in `CBlockIndex`; its verification status and
its undo data, which do, are kept in maps of their own.
-/

namespace FreechCore

structure CDiskBlockPos where
  nFile : ℕ
  nPos : ℕ
  deriving DecidableEq, Repr

/-- Where a transaction is stored: a block, and the offset after the block's header. -/
structure CDiskTxPos extends CDiskBlockPos where
  nTxOffset : ℕ
  deriving DecidableEq, Repr

structure CBlockIndex where
  pprev : Option ℕ
  nHeight : ℕ
  blockPos : CDiskBlockPos
  nTx : ℕ
  nVersion : ℤ
  hashMerkleRoot : ℕ
  nTime : ℕ
  nBits : ℕ
  nNonce : ℕ
  nChainWork : ℕ
  nChainTx : ℕ
  deriving DecidableEq, Repr

/-- How far a block was verified, and whether it or an ancestor of it failed. -/
structure BlockStatus where
  valid : ℕ
  failedValid : Bool
  failedChild : Bool
  deriving DecidableEq, Repr

namespace BlockStatus

def validUnknown : ℕ := 0
def validTransactions : ℕ := 3
def validScripts : ℕ := 5

def unknown : BlockStatus := ⟨validUnknown, false, false⟩

def failed (s : BlockStatus) : Bool := s.failedValid || s.failedChild

end BlockStatus

/-- The record of a block in the block-tree database. -/
structure CDiskBlockIndex where
  hashPrev : ℕ
  nHeight : ℕ
  blockPos : CDiskBlockPos
  nTx : ℕ
  nVersion : ℤ
  hashMerkleRoot : ℕ
  nTime : ℕ
  nBits : ℕ
  nNonce : ℕ
  nStatus : BlockStatus
  undo : Option ℕ
  deriving DecidableEq, Repr

/-- A key of the transaction index: a user name and a height, `-1` for the newest. -/
abbrev TxKey := Bytes × ℤ

def writeEntries (idx : TxKey → Option CDiskTxPos) (vPos : List (TxKey × CDiskTxPos)) :
    TxKey → Option CDiskTxPos :=
  vPos.foldl (fun m e k => if k = e.1 then some e.2 else m k) idx

structure Node where
  mapBlockIndex : StdMap ℕ CBlockIndex
  nStatus : ℕ → BlockStatus
  /-- how many transactions the undo data of a block covers, if there is undo data -/
  undo : ℕ → Option ℕ
  setBlockIndexValid : List ℕ
  vBlockIndexByHeight : List (Option ℕ)
  pindexBest : Option ℕ
  nBestHeight : ℤ
  /-- the best block of the coin view in memory -/
  coinsTip : Option ℕ
  /-- the best block in the coin database -/
  coinsDB : Option ℕ
  blockTree : StdMap ℕ CDiskBlockIndex
  txIndex : TxKey → Option CDiskTxPos
  blockFiles : CDiskBlockPos → Option CBlock
  mapTx : StdMap ℕ CTransaction
  /-- height and hash of the last soft checkpoint -/
  lastSoftCP : ℕ × ℕ

namespace Node

/-- The node before its first block. -/
def start : Node where
  mapBlockIndex := .empty
  nStatus := fun _ => .unknown
  undo := fun _ => none
  setBlockIndexValid := []
  vBlockIndexByHeight := []
  pindexBest := none
  nBestHeight := -1
  coinsTip := none
  coinsDB := none
  blockTree := .empty
  txIndex := fun _ => none
  blockFiles := fun _ => none
  mapTx := .empty
  lastSoftCP := (0, 0)

variable (n : Node)

def index (h : ℕ) : Option CBlockIndex := n.mapBlockIndex.find? h

def pprev (h : ℕ) : Option ℕ := (n.index h).bind CBlockIndex.pprev

/-- The height of a block of the tree (that of a block outside it does not matter). -/
def heightOf (h : ℕ) : ℕ := ((n.index h).map CBlockIndex.nHeight).getD 0

def chainWork (h : ℕ) : ℕ := ((n.index h).map CBlockIndex.nChainWork).getD 0

/-- The block stands in the main-chain vector at its height. -/
def isInMainChain (h : ℕ) : Bool :=
  decide (n.vBlockIndexByHeight[n.heightOf h]? = some (some h))

def getNextInMainChain (h : ℕ) : Option ℕ :=
  if n.isInMainChain h then (n.vBlockIndexByHeight[n.heightOf h + 1]?).join else none

/-! ### The databases -/

def diskBlockIndex (h : ℕ) (p : CBlockIndex) : CDiskBlockIndex where
  hashPrev := p.pprev.getD 0
  nHeight := p.nHeight
  blockPos := p.blockPos
  nTx := p.nTx
  nVersion := p.nVersion
  hashMerkleRoot := p.hashMerkleRoot
  nTime := p.nTime
  nBits := p.nBits
  nNonce := p.nNonce
  nStatus := n.nStatus h
  undo := n.undo h

def writeBlockIndex (h : ℕ) : Node :=
  match n.index h with
  | some p => { n with blockTree := n.blockTree.insert h (n.diskBlockIndex h p) }
  | none => n

@[simp] lemma writeBlockIndex_nStatus (h : ℕ) : (n.writeBlockIndex h).nStatus = n.nStatus := by
  unfold writeBlockIndex; split <;> rfl

@[simp] lemma writeBlockIndex_setBlockIndexValid (h : ℕ) :
    (n.writeBlockIndex h).setBlockIndexValid = n.setBlockIndexValid := by
  unfold writeBlockIndex; split <;> rfl

@[simp] lemma writeBlockIndex_lastSoftCP (h : ℕ) :
    (n.writeBlockIndex h).lastSoftCP = n.lastSoftCP := by
  unfold writeBlockIndex; split <;> rfl

def setStatus (h : ℕ) (f : BlockStatus → BlockStatus) : Node :=
  { n with nStatus := fun h' => if h' = h then f (n.nStatus h) else n.nStatus h' }

def readTxIndex (k : TxKey) : Option CDiskTxPos := n.txIndex k

def writeTxIndex (vPos : List (TxKey × CDiskTxPos)) : Node :=
  { n with txIndex := writeEntries n.txIndex vPos }

def eraseTxIndex (k : TxKey) : Node :=
  { n with txIndex := fun k' => if k' = k then none else n.txIndex k' }

def writeBlockToDisk (b : CBlock) (pos : CDiskBlockPos) : Node :=
  { n with blockFiles := fun pos' => if pos' = pos then some b else n.blockFiles pos' }

/-- Read back the block of an index entry; its work and its hash are checked again. -/
def readBlockFromDisk (env : Env) (h : ℕ) : Option CBlock :=
  match n.index h with
  | none => none
  | some p =>
    match n.blockFiles p.blockPos with
    | none => none
    | some b =>
      if checkProofOfWork env (getPoWHash env b) b.nBits ∧ getHash env b = h then some b else none

end Node

end FreechCore
