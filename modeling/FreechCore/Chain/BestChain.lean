import FreechCore.Chain.Connect

/-!
Switching the active chain to another block of the tree: find the fork, disconnect what is
above it, connect the new branch, and only then update the main-chain vector and the best
block. The index is written block by block on the way, so that a switch given up half way
leaves its writes behind.
-/

namespace FreechCore

/-! ### The branch to leave and the branch to join -/

/-- Follow a chain down to a height. -/
def descend (n : Node) (height : ℕ) : ℕ → ℕ → Option ℕ
  | 0, _ => none
  | fuel + 1, plonger =>
    if height < n.heightOf plonger then
      match n.pprev plonger with
      | none => none
      | some q => descend n height fuel q
    else some plonger

/-- The fork between the chains of two blocks; there is none before the first block. -/
def findFork (n : Node) : ℕ → Option ℕ → ℕ → Option (Option ℕ)
  | _, none, _ => some none
  | 0, some _, _ => none
  | fuel + 1, some pfork, plonger =>
    if pfork = plonger then some (some pfork)
    else
      match descend n (n.heightOf pfork) (n.heightOf plonger + 1) plonger with
      | none => none
      | some plonger' =>
        if pfork = plonger' then some (some pfork)
        else
          match n.pprev pfork with
          | none => none
          | some q => findFork n fuel (some q) plonger'

/-- The blocks from `cur` down to, and without, `stop`. -/
def walkTo (n : Node) (stop : Option ℕ) : ℕ → Option ℕ → Option (List ℕ)
  | 0, cur => if cur = stop then some [] else none
  | fuel + 1, cur =>
    if cur = stop then some []
    else
      match cur with
      | none => none
      | some h => (walkTo n stop fuel (n.pprev h)).map (h :: ·)

def Node.eraseValid (n : Node) (h : ℕ) : Node :=
  { n with setBlockIndexValid := n.setBlockIndexValid.filter (· ≠ h) }

def markFailedChild (n : Node) (h : ℕ) : Node :=
  ((n.setStatus h fun s => { s with failedChild := true }).eraseValid h).writeBlockIndex h

/-- Add a block to those to connect. A block that failed before marks all above it, and
the list starts again below. -/
def collectStep (s : Node × List ℕ) (h : ℕ) : Node × List ℕ :=
  if (s.1.nStatus h).failed then ((s.2 ++ [h]).foldl markFailedChild s.1, [])
  else (s.1, s.2 ++ [h])

/-! ### The memory pool -/

def currentTxVersion : ℤ := 1
def maxStandardTxSize : ℕ := 140 + 16 + 512 + 32

def isStandardTx (tx : CTransaction) : Bool :=
  tx.nVersion ≤ currentTxVersion ∧ tx.serializeSize < maxStandardTxSize

/-- Accept a loose registration, unless the name is taken; the answer `none` means that the
lookup of the name does not return. -/
def mempoolAccept (env : Env) (fuel : ℕ) (n : Node) (tx : CTransaction) : Option (Node × Bool) :=
  if checkTransaction env tx ≠ .ok () ∨ tx.isSpamMessage
      ∨ (env.testNet = false ∧ isStandardTx tx = false)
      ∨ n.mapTx.contains (env.hashTx tx) then some (n, false)
  else
    let stored : Node := { n with mapTx := n.mapTx.insert (env.hashTx tx) tx }
    match getTransaction env fuel n tx.getUsername (-1) with
    | none => none
    | some none => some (stored, true)
    | some (some _) =>
      match verifyDuplicateOrReplacementTx env fuel n tx false true (-1) false with
      | none => none
      | some (_, true) => some (stored, true)
      | some (_, false) => some (n, false)

def mempoolRemove (env : Env) (n : Node) (tx : CTransaction) : Node :=
  if tx.isSpamMessage then n else { n with mapTx := n.mapTx.erase (env.hashTx tx) }

/-- Bring the transactions of a disconnected branch back, as far as they are accepted. -/
def resurrect (env : Env) (fuel : ℕ) : Node → List CTransaction → Option Node
  | n, [] => some n
  | n, tx :: vtx =>
    match mempoolAccept env fuel n tx with
    | none => none
    | some (n', _) => resurrect env fuel n' vtx

/-! ### The two loops -/

def getTotalBlocksEstimate (env : Env) : ℕ := (env.mapCheckpoints.getLast?.map Prod.fst).getD 0

/-- Disconnect blocks from the tip on; the transactions to bring back are collected. -/
def disconnectAll (env : Env) (n : Node) (view : Option ℕ) :
    List ℕ → Option (Node × Option ℕ × Except Failure (List CTransaction))
  | [] => some (n, view, .ok [])
  | h :: hs =>
    match n.index h, n.readBlockFromDisk env h with
    | some p, some b =>
      match disconnectBlock n view h p b false with
      | none => none
      | some (n', view', .error f) =>
        some (n', view', .error (f.report 0 "SetBestBlock() : DisconnectBlock failed"))
      | some (n', view', .ok ()) =>
        match disconnectAll env n' view' hs with
        | some (n'', view'', .ok vResurrect) =>
          let vtx := b.vtx.filter fun tx =>
            !tx.isSpamMessage && decide (getTotalBlocksEstimate env < p.nHeight)
          some (n'', view'', .ok (vtx ++ vResurrect))
        | r => r
    | _, _ => some (n, view, .error (.error ["Failed to read block"]))

/-- Connect blocks upwards; a failure names the block it happened at. -/
def connectAll (env : Env) (fuel : ℕ) (now : ℤ) (n : Node) (view : Option ℕ) :
    List ℕ → Option (Node × Option ℕ × Except (ℕ × Failure) (List CTransaction))
  | [] => some (n, view, .ok [])
  | h :: hs =>
    match n.index h, n.readBlockFromDisk env h with
    | some p, some b =>
      match connectBlock env fuel now n view h p b false with
      | none => none
      | some (n', view', .error f) => some (n', view', .error (h, f))
      | some (n', view', .ok ()) =>
        match connectAll env fuel now n' view' hs with
        | some (n'', view'', .ok vDelete) => some (n'', view'', .ok (b.vtx ++ vDelete))
        | r => r
    | _, _ => some (n, view, .error (h, .error ["Failed to read block"]))

/-! ### The switch -/

/-- A vector cut or filled up to a length. -/
def resize (k : ℕ) (v : List (Option ℕ)) : List (Option ℕ) :=
  v.take k ++ List.replicate (k - v.length) none

/-- The main-chain vector for a new best block whose branch is `vConnect`. -/
def Node.registerBestChain (n : Node) (pindexNew : ℕ) (vConnect : List ℕ) : Node :=
  let v := resize (n.heightOf pindexNew + 1) n.vBlockIndexByHeight
  { n with vBlockIndexByHeight := vConnect.foldl (fun v h => v.set (n.heightOf h) (some h)) v }

def markFailedValid (n : Node) (h : ℕ) : Node :=
  ((n.setStatus h fun s => { s with failedValid := true }).writeBlockIndex h).eraseValid h

/-- A block turned out invalid. If the main chain goes on from it, the node first has to
reorganise away, which is left to `reconnect`. -/
def invalidBlockFound (reconnect : Node → Option Node) (n : Node) (h : ℕ) : Option Node :=
  let n' := markFailedValid n h
  if (n'.getNextInMainChain h).isSome then reconnect n' else some n'

/-- The view becomes the coin view of the node, and reaches the coin database except during
the initial download. -/
def Node.flushView (n : Node) (view : Option ℕ) (fIsInitialDownload : Bool) : Node :=
  { n with
    coinsTip := view
    coinsDB := if fIsInitialDownload then n.coinsDB else view }

/-- The new best block takes effect: the view and the vector first, then the memory pool,
and the best block last. -/
def switchTo (env : Env) (fuel : ℕ) (fIsInitialDownload : Bool) (n : Node) (view : Option ℕ)
    (pindexNew : ℕ) (vConnect : List ℕ) (vResurrect vDelete : List CTransaction) :
    Option Node :=
  let n := (n.flushView view fIsInitialDownload).registerBestChain pindexNew vConnect
  match resurrect env fuel n vResurrect with
  | none => none
  | some n =>
    let n := vDelete.foldl (mempoolRemove env) n
    some { n with pindexBest := some pindexNew, nBestHeight := n.heightOf pindexNew }

/-- Disconnect one branch, connect the other, and let the new best block take effect. -/
def reorganise (env : Env) (fuel : ℕ) (now : ℤ) (fIsInitialDownload : Bool)
    (reconnect : Node → Option Node) (n : Node) (pindexNew : ℕ) (vDisconnect vConnect : List ℕ) :
    Option (Node × Check) :=
  match disconnectAll env n n.coinsTip vDisconnect with
  | none => none
  | some (n, _, .error f) => some (n, .error f)
  | some (n, view, .ok vResurrect) =>
    match connectAll env fuel now n view vConnect with
    | none => none
    | some (n, _, .error (h, f)) =>
      let failure := f.report 0 "SetBestBlock() : ConnectBlock failed"
      if f.isInvalid then (invalidBlockFound reconnect n h).map (·, .error failure)
      else some (n, .error failure)
    | some (n, view, .ok vDelete) =>
      (switchTo env fuel fIsInitialDownload n view pindexNew vConnect vResurrect vDelete).map
        (·, .ok ())

def shorterChain : Failure :=
  .error ["SetBestChain() : Tried to connect to a shorter chain (invalid blocks)"]

def setBestChain (env : Env) (fuel : ℕ) (now : ℤ) (fIsInitialDownload : Bool)
    (reconnect : Node → Option Node) (n : Node) (pindexNew : ℕ) : Option (Node × Check) :=
  let view := n.coinsTip
  match findFork n (n.heightOf pindexNew + (view.map n.heightOf).getD 0 + 2) view pindexNew with
  | none => none
  | some pfork =>
    match walkTo n pfork ((view.map n.heightOf).getD 0 + 1) view,
        walkTo n pfork (n.heightOf pindexNew + 1) (some pindexNew) with
    | some vDisconnect, some path =>
      let (n, collected) := path.foldl collectStep (n, [])
      let vConnect := collected.reverse
      if vConnect.length < vDisconnect.length then some (n, .error shorterChain)
      else reorganise env fuel now fIsInitialDownload reconnect n pindexNew vDisconnect vConnect
    | _, _ => none

end FreechCore
