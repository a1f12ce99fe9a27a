import FreechCore.Chain.Accept

/-!
The check of the databases when a node starts. From the tip on, blocks are read and checked, and
from level 3 on disconnected from a view of their own; at level 4 they are disconnected from the
transaction index itself, and connected again afterwards. A check that fails returns at once.
-/

namespace FreechCore

def checkLevel (nCheckLevel : ℤ) : ℤ := max 0 (min 4 nCheckLevel)

/-- The number of blocks under the tip that are checked as well. -/
def Node.checkDepth (n : Node) (nCheckDepth : ℤ) : ℤ :=
  let nCheckDepth := if nCheckDepth ≤ 0 then 1000000000 else nCheckDepth
  if n.nBestHeight < nCheckDepth then n.nBestHeight else nCheckDepth

def hashText (h : ℕ) : String := String.ofList ((Nat.toDigits 16 h).leftpad 64 '0')

def verifyError (what : String) (h : ℕ) (p : CBlockIndex) : Failure :=
  .error ["VerifyDB() : *** " ++ what ++ " at " ++ toString p.nHeight ++ ", hash=" ++ hashText h]

def verifyBlock (env : Env) (now level : ℤ) (n : Node) (h : ℕ) (p : CBlockIndex) :
    Except Failure CBlock :=
  match n.readBlockFromDisk env h with
  | none => .error (verifyError "ReadBlockFromDisk failed" h p)
  | some b =>
    if 1 ≤ level ∧ checkBlock env now true true b ≠ .ok () then
      .error (verifyError "found bad block" h p)
    else if checkpointsCheckBlock env n p.nHeight h = false then
      .error (.error ["VerifyDB() : *** rejected by checkpoint lock-in at " ++ toString p.nHeight])
    else .ok b

/-- The node, the best block of the view that is checked, and the entry it has come to. -/
structure VerifyState where
  node : Node
  coins : Option ℕ
  pindexState : Option ℕ

/-- Check and disconnect blocks from `pindex` down to the height `low`; at least the genesis block
is left. -/
def verifyTips (env : Env) (now level low : ℤ) :
    ℕ → VerifyState → (pindex : Option ℕ) → Option (VerifyState × Check)
  | _, s, none => some (s, .ok ())
  | 0, _, some _ => none
  | fuel + 1, s, some h =>
    match s.node.index h with
    | none => none
    | some p =>
      match p.pprev with
      | none => some (s, .ok ())
      | some q =>
        if p.nHeight < low then some (s, .ok ())
        else
          match verifyBlock env now level s.node h p with
          | .error f => some (s, .error f)
          | .ok b =>
            if 3 ≤ level ∧ s.pindexState = some h then
              match disconnectBlock s.node s.coins h p b (decide (level < 4)) with
              | none => none
              | some (n, _, .error _) =>
                some ({ s with node := n },
                  .error (verifyError "irrecoverable inconsistency in block data" h p))
              | some (n, coins, .ok ()) => verifyTips env now level low fuel ⟨n, coins, some q⟩ (some q)
            else verifyTips env now level low fuel s (some q)

/-- Connect blocks upwards until the best block is reached. -/
def reconnectTips (env : Env) (fuel : ℕ) (now : ℤ) :
    ℕ → VerifyState → Option (VerifyState × Check)
  | rounds, s =>
    if s.pindexState = s.node.pindexBest then some (s, .ok ())
    else
      match rounds with
      | 0 => none
      | rounds + 1 =>
        match s.pindexState.bind s.node.getNextInMainChain with
        | none => none
        | some h =>
          match s.node.index h with
          | none => none
          | some p =>
            match s.node.readBlockFromDisk env h with
            | none => some (s, .error (verifyError "ReadBlockFromDisk failed" h p))
            | some b =>
              match connectBlock env fuel now s.node s.coins h p b false with
              | none => none
              | some (n, _, .error _) =>
                some ({ s with node := n }, .error (verifyError "found unconnectable block" h p))
              | some (n, coins, .ok ()) => reconnectTips env fuel now rounds ⟨n, coins, some h⟩

def verifyDB (env : Env) (fuel : ℕ) (now : ℤ) (n : Node) (nCheckLevel nCheckDepth : ℤ) :
    Option (Node × Check) :=
  match n.pindexBest with
  | none => some (n, .ok ())
  | some best =>
    if n.pprev best = none then some (n, .ok ())
    else
      let level := checkLevel nCheckLevel
      let low := n.nBestHeight - n.checkDepth nCheckDepth
      match verifyTips env now level low (n.heightOf best + 1) ⟨n, n.coinsTip, some best⟩
          (some best) with
      | none => none
      | some (s, .error f) => some (s.node, .error f)
      | some (s, .ok ()) =>
        if 4 ≤ level then
          (reconnectTips env fuel now (n.heightOf best) s).map fun (s, r) => (s.node, r)
        else some (s.node, .ok ())

end FreechCore
