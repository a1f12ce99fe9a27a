import FreechCore.Chain.Accept

/-!
What becomes of a block that a node receives. A block whose parent is not known waits in the pool
of orphans, which is kept under the hashes of the orphans and, a second time, under those of their
parents. When a block is accepted, the orphans that waited for it are tried, then those that waited
for an orphan that was accepted, and so on.
-/

namespace FreechCore

/-! ### The check against blocks with too little work -/

/-- Four times the target for every period of four times the normal length, or a part of one,
while the limit is not reached. The number of rounds that are left bounds the loop. -/
def raiseTarget (bnLimit : ℤ) : (left : ℕ) → (nTime bnResult : ℤ) → ℤ
  | 0, _, bnResult => bnResult
  | left + 1, nTime, bnResult =>
    if 0 < nTime ∧ bnResult < bnLimit then
      raiseTarget bnLimit left (nTime - nTargetTimespan * 4) (bnResult * 4)
    else bnResult

/-- The compact form of the largest target that could be asked for some time after the target was
`nBase`. -/
def computeMinWork (env : Env) (nBase : ℕ) (nTime : ℤ) : ℕ :=
  if env.testNet = true ∧ nTargetSpacing * 2 < nTime then getCompact env.proofOfWorkLimit
  else
    let bnResult := raiseTarget env.proofOfWorkLimit nTime.toNat nTime (setCompact nBase)
    getCompact (if (env.proofOfWorkLimit : ℤ) < bnResult then env.proofOfWorkLimit else bnResult)

/-- The entry of the last hard checkpoint that is in the tree. -/
def Node.getLastCheckpoint (n : Node) (env : Env) : Option CBlockIndex :=
  env.mapCheckpoints.reverse.findSome? fun cp => n.index cp.2

/-- A block that is not on top of the best chain is checked against the last hard checkpoint: it
must not be older, and must have the least work that was possible since. -/
def preliminaryCheck (env : Env) (n : Node) (b : CBlock) : Check :=
  match n.getLastCheckpoint env with
  | none => .ok ()
  | some pcheckpoint =>
    if b.hashPrevBlock = n.pindexBest.getD 0 then .ok ()
    else do
      let deltaTime : ℤ := (b.nTime : ℤ) - pcheckpoint.nTime
      ensure (0 ≤ deltaTime) 100 "ProcessBlock() : block with timestamp before last checkpoint"
      ensure (setCompact b.nBits ≤ setCompact (computeMinWork env pcheckpoint.nBits deltaTime)) 100
        "ProcessBlock() : block with too little proof-of-work"

/-! ### Orphans -/

structure OrphanPool where
  mapOrphanBlocks : StdMap ℕ CBlock
  /-- in the order of the parents' hashes, and of their arrival under the same hash -/
  mapOrphanBlocksByPrev : List (ℕ × CBlock)

namespace OrphanPool

def empty : OrphanPool := ⟨.empty, []⟩

def insert (pool : OrphanPool) (env : Env) (b : CBlock) : OrphanPool where
  mapOrphanBlocks :=
    if pool.mapOrphanBlocks.contains (getHash env b) then pool.mapOrphanBlocks
    else pool.mapOrphanBlocks.insert (getHash env b) b
  mapOrphanBlocksByPrev :=
    pool.mapOrphanBlocksByPrev.takeWhile (·.1 ≤ b.hashPrevBlock) ++
      (b.hashPrevBlock, b) :: pool.mapOrphanBlocksByPrev.dropWhile (·.1 ≤ b.hashPrevBlock)

def waiting (pool : OrphanPool) (hashPrev : ℕ) : List CBlock :=
  (pool.mapOrphanBlocksByPrev.filter (·.1 = hashPrev)).map Prod.snd

/-- Nothing waits for the block any more. -/
def erasePrev (pool : OrphanPool) (hashPrev : ℕ) : OrphanPool :=
  { pool with mapOrphanBlocksByPrev := pool.mapOrphanBlocksByPrev.filter (·.1 ≠ hashPrev) }

end OrphanPool

/-- What a call of `AcceptBlock` finds outside the node. -/
structure AcceptInput where
  fuel : ℕ
  rounds : ℕ
  now : ℤ
  fIsInitialDownload : Bool
  pos : CDiskBlockPos

def AcceptInput.accept (i : AcceptInput) (env : Env) (n : Node) (b : CBlock) :
    Option (Node × Check) :=
  acceptBlock env i.fuel i.rounds i.now i.fIsInitialDownload n b i.pos

/-- The state of the work queue: the hashes it still has to go through, and the orphans that were
tried, with the answers of `AcceptBlock`. -/
structure WorkQueue where
  node : Node
  pool : OrphanPool
  vWorkQueue : List ℕ
  tried : List (CBlock × Bool)

/-- Try an orphan. It is taken out of the pool whatever the answer is. -/
def tryOrphan (env : Env) (inputs : ℕ → AcceptInput) (s : WorkQueue) (orphan : CBlock) :
    Option WorkQueue :=
  let hash := getHash env orphan
  ((inputs hash).accept env s.node orphan).map fun (n, r) =>
    { node := n
      pool := { s.pool with mapOrphanBlocks := s.pool.mapOrphanBlocks.erase hash }
      vWorkQueue := if r = .ok () then s.vWorkQueue ++ [hash] else s.vWorkQueue
      tried := s.tried ++ [(orphan, decide (r = .ok ()))] }

def tryOrphans (env : Env) (inputs : ℕ → AcceptInput) :
    WorkQueue → List CBlock → Option WorkQueue
  | s, [] => some s
  | s, orphan :: orphans => (tryOrphan env inputs s orphan).bind (tryOrphans env inputs · orphans)

def workQueueStep (env : Env) (inputs : ℕ → AcceptInput) (s : WorkQueue) :
    WorkQueue ⊕ Option WorkQueue :=
  match s.vWorkQueue with
  | [] => .inr (some s)
  | hashPrev :: rest =>
    match tryOrphans env inputs { s with vWorkQueue := rest } (s.pool.waiting hashPrev) with
    | none => .inr none
    | some s => .inl { s with pool := s.pool.erasePrev hashPrev }

/-! ### The block -/

end FreechCore
