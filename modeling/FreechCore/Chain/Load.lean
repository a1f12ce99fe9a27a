import FreechCore.Chain.Accept

/-!
A node that is started again. What it had in memory is gone; the block tree is read back from
its database, and the active chain goes down from the best block of the coin database.
-/

namespace FreechCore

/-- What is left of a node when it stops: its databases and its block files. -/
def Node.stopped (n : Node) : Node :=
  { Node.start with
    coinsDB := n.coinsDB
    blockTree := n.blockTree
    txIndex := n.txIndex
    blockFiles := n.blockFiles }

/-! ### The block tree -/

/-- The hash of a record is computed from the header in it. -/
def CDiskBlockIndex.getBlockHash (env : Env) (d : CDiskBlockIndex) : ℕ :=
  env.hashHeader
    { nVersion := d.nVersion
      nHeight := d.nHeight
      hashPrevBlock := d.hashPrev
      hashMerkleRoot := d.hashMerkleRoot
      nTime := d.nTime
      nBits := d.nBits
      nNonce := d.nNonce }

def CBlockIndex.null : CBlockIndex where
  pprev := none
  nHeight := 0
  blockPos := ⟨0, 0⟩
  nTx := 0
  nVersion := 0
  hashMerkleRoot := 0
  nTime := 0
  nBits := 0
  nNonce := 0
  nChainWork := 0
  nChainTx := 0

/-- The entry a hash stands for; there is none for the hash `0`. -/
def blockPtr (hash : ℕ) : Option ℕ := if hash = 0 then none else some hash

def insertBlockIndex (m : StdMap ℕ CBlockIndex) (hash : ℕ) : StdMap ℕ CBlockIndex :=
  if hash = 0 ∨ m.contains hash = true then m else m.insert hash .null

/-- Enter a record into the tree. The entry of its parent is made, too, and filled in when
its own record comes. A record with the hash `0` has no entry to fill. -/
def loadRecord (env : Env) (n : Node) (diskindex : CDiskBlockIndex) : Option Node :=
  let hash := diskindex.getBlockHash env
  let m := insertBlockIndex (insertBlockIndex n.mapBlockIndex hash) diskindex.hashPrev
  match (blockPtr hash).bind m.find? with
  | none => none
  | some pindexNew =>
    some { n with
      mapBlockIndex := m.insert hash { pindexNew with
        pprev := blockPtr diskindex.hashPrev
        nHeight := diskindex.nHeight
        blockPos := diskindex.blockPos
        nTx := diskindex.nTx
        nVersion := diskindex.nVersion
        hashMerkleRoot := diskindex.hashMerkleRoot
        nTime := diskindex.nTime
        nBits := diskindex.nBits
        nNonce := diskindex.nNonce }
      nStatus := fun h => if h = hash then diskindex.nStatus else n.nStatus h
      undo := fun h => if h = hash then diskindex.undo else n.undo h }

def loadRecords (env : Env) : Node → List CDiskBlockIndex → Option Node
  | n, [] => some n
  | n, d :: ds =>
    match loadRecord env n d with
    | none => none
    | some n' => loadRecords env n' ds

def loadBlockIndexGuts (env : Env) (n : Node) : Option Node :=
  loadRecords env n (n.blockTree.entries.map Prod.snd)

/-! ### Work and the active chain -/

def Node.sortedByHeight (n : Node) : List ℕ :=
  n.mapBlockIndex.keys.insertionSort fun a b => n.heightOf a ≤ n.heightOf b

/-- Add up the work and the transactions of a block on top of those of its parent, and take
it as a candidate if it has not failed. -/
def addChainWork (n : Node) (h : ℕ) : Node :=
  match n.index h with
  | none => n
  | some p =>
    let prev := p.pprev.bind n.index
    { n with
      mapBlockIndex := n.mapBlockIndex.insert h { p with
        nChainWork := (prev.map CBlockIndex.nChainWork).getD 0 + getBlockWork p.nBits
        nChainTx := (prev.map CBlockIndex.nChainTx).getD 0 + p.nTx }
      setBlockIndexValid :=
        if BlockStatus.validTransactions ≤ (n.nStatus h).valid ∧ (n.nStatus h).failed = false then
          h :: n.setBlockIndexValid
        else n.setBlockIndexValid }

/-- Enter a chain into the vector, from its tip down. -/
def registerChain (n : Node) : ℕ → Option ℕ → List (Option ℕ) → Option (List (Option ℕ))
  | _, none, v => some v
  | 0, some _, _ => none
  | fuel + 1, some h, v => registerChain n fuel (n.pprev h) (v.set (n.heightOf h) (some h))

/-- Read the databases of a node that was stopped. -/
def loadBlockIndexDB (env : Env) (n : Node) : Option Node :=
  match loadBlockIndexGuts env n with
  | none => none
  | some n =>
    let n := n.sortedByHeight.foldl addChainWork n
    match n.coinsDB with
    | none => some n
    | some best =>
      if n.mapBlockIndex.contains best = false then some n
      else
        let v := resize (n.heightOf best + 1) n.vBlockIndexByHeight
        (registerChain n (n.heightOf best + 1) (some best) v).map fun v =>
          { n with
            coinsTip := some best
            pindexBest := some best
            nBestHeight := n.heightOf best
            vBlockIndexByHeight := v }

end FreechCore
