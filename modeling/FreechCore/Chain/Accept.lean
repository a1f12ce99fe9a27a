import FreechCore.Chain.BestChain

/-!
Accepting a block: it is checked against its parent, stored, added to the block tree, and
the node then moves to the best chain it knows of. A soft checkpoint, once it is adopted,
pulls the node to its block in the same way.
-/

namespace FreechCore

/-! ### Choosing the best chain -/

/-- The order of the candidates: more work first, then the lower hash. -/
def Node.better (n : Node) (a b : ℕ) : Bool :=
  n.chainWork b < n.chainWork a ∨ (n.chainWork a = n.chainWork b ∧ a < b)

def Node.bestCandidate (n : Node) : Option ℕ :=
  n.setBlockIndexValid.foldl
    (fun best h =>
      match best with
      | none => some h
      | some a => if n.better h a then some h else some a) none

/-- Where the walk from a candidate to the main chain ends: at a failed block, below the
blocks listed, or in the chain, with the blocks to switch to, lowest first. -/
inductive Ancestry
  | failed (above : List ℕ)
  | attach (vAttach : List ℕ)

def Node.checkAncestry (n : Node) : ℕ → ℕ → List ℕ → List ℕ → Option Ancestry
  | 0, _, _, _ => none
  | fuel + 1, h, above, vAttach =>
    if (n.nStatus h).failed then some (.failed above)
    else
      let vAttach := match n.pindexBest with
        | none => h :: vAttach
        | some best => if n.chainWork best < n.chainWork h then h :: vAttach else vAttach
      match n.pprev h with
      | none => some (.attach vAttach)
      | some q =>
        if (n.getNextInMainChain h).isSome then some (.attach vAttach)
        else n.checkAncestry fuel q (above ++ [h]) vAttach

/-- Switch to one block after the other, up to the first that fails. -/
def switchAll (switch : Node → ℕ → Option (Node × Check)) :
    Node → List ℕ → Option (Node × Check)
  | n, [] => some (n, .ok ())
  | n, h :: hs =>
    match switch n h with
    | none => none
    | some (n', .error f) => some (n', .error f)
    | some (n', .ok ()) => switchAll switch n' hs

/-- Move to the candidate with the most work. The first number bounds the rounds of this
loop and of those nested in it. -/
def connectBestBlock (env : Env) (fuel : ℕ) (now : ℤ) (fIsInitialDownload : Bool) :
    ℕ → Node → Option (Node × Check)
  | 0, _ => none
  | rounds + 1, n =>
    match n.bestCandidate with
    | none => some (n, .ok ())
    | some pindexNewBest =>
      if n.pindexBest = some pindexNewBest
          ∨ (n.pindexBest.map n.chainWork = some (n.chainWork pindexNewBest)) then
        some (n, .ok ())
      else
        match n.checkAncestry (n.heightOf pindexNewBest + 1) pindexNewBest [] [] with
        | none => none
        | some (.failed above) =>
          connectBestBlock env fuel now fIsInitialDownload rounds (above.foldl markFailedChild n)
        | some (.attach vAttach) =>
          let reconnect := fun n =>
            (connectBestBlock env fuel now fIsInitialDownload rounds n).map Prod.fst
          switchAll (setBestChain env fuel now fIsInitialDownload reconnect) n vAttach

/-! ### Adding a block to the tree -/

def Node.newBlockIndex (n : Node) (b : CBlock) (pos : CDiskBlockPos) : CBlockIndex :=
  let prev := n.index b.hashPrevBlock
  { pprev := prev.map fun _ => b.hashPrevBlock
    nHeight := (prev.map fun p => p.nHeight + 1).getD 0
    blockPos := pos
    nTx := b.vtx.length
    nVersion := b.nVersion
    hashMerkleRoot := b.hashMerkleRoot
    nTime := b.nTime
    nBits := b.nBits
    nNonce := b.nNonce
    nChainWork := (prev.map CBlockIndex.nChainWork).getD 0 + getBlockWork b.nBits
    nChainTx := (prev.map CBlockIndex.nChainTx).getD 0 + b.vtx.length }

/-- Enter a stored block into the tree, as a candidate for the best chain. -/
def Node.insertBlockIndex (n : Node) (env : Env) (b : CBlock) (pos : CDiskBlockPos) : Node :=
  let h := getHash env b
  let p := n.newBlockIndex b pos
  ({ n with
    mapBlockIndex := n.mapBlockIndex.insert h p
    nStatus := fun h' => if h' = h then ⟨BlockStatus.validTransactions, false, false⟩
      else n.nStatus h'
    undo := fun h' => if h' = h then none else n.undo h'
    setBlockIndexValid := h :: n.setBlockIndexValid } : Node).writeBlockIndex h

def addToBlockIndex (env : Env) (fuel rounds : ℕ) (now : ℤ) (fIsInitialDownload : Bool)
    (n : Node) (b : CBlock) (pos : CDiskBlockPos) : Option (Node × Check) :=
  if n.mapBlockIndex.contains (getHash env b) then
    some (n, .error (.invalid 0 ["AddToBlockIndex() : already exists"]))
  else
    connectBestBlock env fuel now fIsInitialDownload rounds (n.insertBlockIndex env b pos)

/-- Start the databases with the genesis block at a position. -/
def initBlockIndex (env : Env) (fuel rounds : ℕ) (now : ℤ) (fIsInitialDownload : Bool)
    (pos : CDiskBlockPos) : Option (Node × Check) :=
  addToBlockIndex env fuel rounds now fIsInitialDownload
    (Node.start.writeBlockToDisk (genesisBlock env) pos) (genesisBlock env) pos

/-! ### Checks against the parent -/

def Node.ancestor (n : Node) : ℕ → ℕ → Option ℕ
  | 0, h => some h
  | k + 1, h => (n.pprev h).bind (n.ancestor k)

/-- The last block below that was not mined under the special rule of the test network. -/
def Node.lastNormalBits (n : Node) (limit : ℕ) : ℕ → ℕ → CBlockIndex → ℕ
  | 0, _, p => p.nBits
  | fuel + 1, h, p =>
    match (n.pprev h).bind fun q => (n.index q).map fun pq => (q, pq) with
    | some (q, pq) =>
      if p.nHeight % nInterval ≠ 0 ∧ p.nBits = limit then n.lastNormalBits limit fuel q pq
      else p.nBits
    | none => p.nBits

/-- The compact target a block after `pindexLast` has to meet; `none` is a failed assertion. -/
def getNextWorkRequired (env : Env) (n : Node) (hLast : ℕ) (pindexLast : CBlockIndex)
    (nTime : ℕ) : Option ℕ :=
  let nProofOfWorkLimit := getCompact env.proofOfWorkLimit
  if (pindexLast.nHeight + 1) % nInterval ≠ 0 then
    if env.testNet then
      if (pindexLast.nTime : ℤ) + nTargetSpacing * 2 < nTime then some nProofOfWorkLimit
      else some (n.lastNormalBits nProofOfWorkLimit (pindexLast.nHeight + 1) hLast pindexLast)
    else some pindexLast.nBits
  else
    ((n.ancestor (nInterval - 1) hLast).bind n.index).map fun pindexFirst =>
      retarget env pindexLast.nBits ((pindexLast.nTime : ℤ) - pindexFirst.nTime)

/-- The times of a block and of up to `k - 1` ancestors. -/
def Node.timesBack (n : Node) : ℕ → Option ℕ → List ℕ
  | 0, _ => []
  | _, none => []
  | k + 1, some h =>
    match n.index h with
    | none => []
    | some p => p.nTime :: n.timesBack k p.pprev

def nMedianTimeSpan : ℕ := 11

def Node.getMedianTimePast (n : Node) (h : ℕ) : ℕ :=
  let times := (n.timesBack nMedianTimeSpan (some h)).insertionSort (· ≤ ·)
  (times[times.length / 2]?).getD 0

/-- The soft checkpoint, if there is one for this height, is this block. -/
def softCheckBlock (n : Node) (nHeight hash : ℕ) : Bool :=
  n.lastSoftCP.1 = 0 ∨ nHeight ≠ n.lastSoftCP.1 ∨ hash = n.lastSoftCP.2

/-- The soft checkpoint is asked only at the height of a hard one. -/
def checkpointsCheckBlock (env : Env) (n : Node) (nHeight hash : ℕ) : Bool :=
  match env.mapCheckpoints.find? fun cp => cp.1 = nHeight with
  | none => true
  | some cp => decide (hash = cp.2) && softCheckBlock n nHeight hash

/-- The checks of a block against its parent. -/
def checkContext (env : Env) (n : Node) (b : CBlock) (p : CBlockIndex) : Option Check :=
  (getNextWorkRequired env n b.hashPrevBlock p b.nTime).map fun nBits => do
    let nHeight := p.nHeight + 1
    ensure (b.nBits = nBits) 100 "AcceptBlock() : incorrect proof of work"
    ensure (n.getMedianTimePast b.hashPrevBlock < b.nTime) 0
      "AcceptBlock() : block's timestamp is too early"
    ensure (checkpointsCheckBlock env n nHeight (getHash env b)) 100
      "AcceptBlock() : rejected by checkpoint lock-in"
    ensure (2 ≤ b.nVersion) 0 "AcceptBlock() : rejected nVersion=1 block"
    ensure (b.nHeight = nHeight) 100 "AcceptBlock() : block height mismatch in coinbase"

/-! ### Soft checkpoints and acceptance -/

/-- The first block on the way down that is in the main chain. -/
def Node.findInMainChain (n : Node) : ℕ → ℕ → Option ℕ
  | 0, _ => none
  | fuel + 1, h =>
    if n.isInMainChain h then some h
    else (n.pprev h).bind (n.findInMainChain fuel)

/-- Switch to the block of the soft checkpoint if it is known and not in the main chain. -/
def setSoftCPBestChain (env : Env) (fuel rounds : ℕ) (now : ℤ) (fIsInitialDownload : Bool)
    (n : Node) : Option Node :=
  let h := n.lastSoftCP.2
  if n.lastSoftCP.1 ≠ 0 ∧ n.mapBlockIndex.contains h = true ∧ n.isInMainChain h = false then
    match n.findInMainChain (n.heightOf h + 1) h with
    | none => some n
    | some _ =>
      let reconnect := fun n =>
        (connectBestBlock env fuel now fIsInitialDownload rounds n).map Prod.fst
      (setBestChain env fuel now fIsInitialDownload reconnect n h).map Prod.fst
  else some n

def acceptBlock (env : Env) (fuel rounds : ℕ) (now : ℤ) (fIsInitialDownload : Bool) (n : Node)
    (b : CBlock) (pos : CDiskBlockPos) : Option (Node × Check) :=
  let hash := getHash env b
  if n.mapBlockIndex.contains hash then
    some (n, .error (.invalid 0 ["AcceptBlock() : block already in mapBlockIndex"]))
  else
    let context := if hash = hashGenesisBlock env then some (.ok ())
      else
        match n.index b.hashPrevBlock with
        | none => some (.error (.invalid 10 ["AcceptBlock() : prev block not found"]))
        | some p => checkContext env n b p
    match context with
    | none => none
    | some (.error f) => some (n, .error f)
    | some (.ok ()) =>
      match addToBlockIndex env fuel rounds now fIsInitialDownload (n.writeBlockToDisk b pos)
          b pos with
      | none => none
      | some (n, .error f) =>
        some (n, .error (f.report 0 "AcceptBlock() : AddToBlockIndex failed"))
      | some (n, .ok ()) =>
        (setSoftCPBestChain env fuel rounds now fIsInitialDownload n).map (·, .ok ())

end FreechCore
