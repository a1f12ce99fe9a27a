import FreechCore.Chain.Registry

/-!
Numbers for users: the number of a user is the place of a transaction with the user's name among
all transactions of the main chain. Going back from a number to a name searches for the block of
the transaction by halving an interval of heights.
-/

namespace FreechCore

def Node.findBlockByHeight (n : Node) (nHeight : ℤ) : Option ℕ :=
  if (n.vBlockIndexByHeight.length : ℤ) ≤ nHeight then none
  else (n.vBlockIndexByHeight[nHeight.toNat]?).join

namespace CBlockIndex

/-- The transactions up to a block, in the 32 bits they are counted with. -/
def chainTx (pindex : CBlockIndex) : UInt32 := UInt32.ofNat pindex.nChainTx

def chainTxBefore (pindex : CBlockIndex) : UInt32 := pindex.chainTx - UInt32.ofNat pindex.nTx

end CBlockIndex

/-- One round of the search: leave with a block, or go on between two heights. An inner `none` means
that there is no block at the height. -/
def txNumStep (n : Node) (txNum : UInt32) (s : ℤ × ℤ) : (ℤ × ℤ) ⊕ Option (ℕ × CBlockIndex) :=
  let (begin, stop) := s
  match (n.findBlockByHeight ((begin + stop) / 2)).bind fun h => (n.index h).map (h, ·) with
  | none => .inr none
  | some (h, pindex) =>
    if txNum < pindex.chainTxBefore then .inl (begin, pindex.nHeight)
    else if txNum < pindex.chainTx then .inr (some (h, pindex))
    else .inl (pindex.nHeight, stop)

/-- The name of a transaction of the main chain; the outer `none` means that the search does not
return, or that it leaves the chain or the block. -/
def txNumToUsername (env : Env) (fuel : ℕ) (n : Node) (txNum : UInt32) : Option (Option Bytes) :=
  match n.pindexBest.bind n.index with
  | none => none
  | some tip =>
    if tip.chainTx ≤ txNum then some none
    else
      match (Loop.doWhile (txNumStep n txNum) fuel (0, n.nBestHeight)).join with
      | none => none
      | some (h, pindex) =>
        match n.readBlockFromDisk env h with
        | none => some none
        | some block =>
          (block.vtx[(txNum - pindex.chainTxBefore).toNat]?).map fun tx => some tx.getUsername

/-- The number of a user; only that of the last registration can be asked for. -/
def usernameToTxNum (env : Env) (fuel : ℕ) (n : Node) (username : Bytes) (last : Bool) :
    Option (Option Int32) :=
  if last = false then some none
  else
    match getTransaction env fuel n username (-1) with
    | none => none
    | some none => some none
    | some (some (_, hashBlock)) =>
      match n.index hashBlock, n.readBlockFromDisk env hashBlock with
      | some pindex, some block =>
        match block.vtx.findIdx? fun tx => tx.getUsername = username with
        | none => some none
        | some txIdx => some (some (pindex.chainTxBefore + UInt32.ofNat txIdx).toInt32)
      | _, _ => some none

end FreechCore
