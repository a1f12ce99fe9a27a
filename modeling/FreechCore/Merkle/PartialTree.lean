import FreechCore.Core.Validation
import FreechCore.Lib.Merkle
import FreechCore.Net.Bloom

/-!
Partial Merkle trees, and the filtered blocks that a peer with a filter is sent. The tree is
walked depth first; a bit is kept for each node, and a hash for each node that is not descended
from.
-/

namespace FreechCore

open ByteBits

structure CPartialMerkleTree where
  nTransactions : ℕ
  vBits : List Bool
  vHash : List ℕ
  fBad : Bool
  deriving DecidableEq, Repr

namespace CPartialMerkleTree

def calcTreeWidth (nTransactions height : ℕ) : ℕ := (nTransactions + 2 ^ height - 1) / 2 ^ height

/-- Go up while a level has more than one node. -/
def treeHeightFrom (nTransactions : ℕ) : ℕ → ℕ → ℕ
  | 0, nHeight => nHeight
  | fuel + 1, nHeight =>
    if 1 < calcTreeWidth nTransactions nHeight then treeHeightFrom nTransactions fuel (nHeight + 1)
    else nHeight

def treeHeight (nTransactions : ℕ) : ℕ := treeHeightFrom nTransactions nTransactions 0

/-! ### Building -/

section Build

variable (env : Env) (vTxid : List ℕ) (vMatch : List Bool)

def calcHash (nTransactions : ℕ) : ℕ → ℕ → ℕ
  | 0, pos => vTxid.getD pos 0
  | height + 1, pos =>
    let left := calcHash nTransactions height (pos * 2)
    let right := if pos * 2 + 1 < calcTreeWidth nTransactions height
      then calcHash nTransactions height (pos * 2 + 1) else left
    env.hashPair left right

/-- Whether a node is above a transaction that matches. -/
def parentOfMatch (nTransactions height pos : ℕ) : Bool :=
  (List.range' (pos * 2 ^ height) (2 ^ height)).any fun p =>
    decide (p < nTransactions) && vMatch.getD p false

def traverseAndBuild : ℕ → ℕ → CPartialMerkleTree → CPartialMerkleTree
  | 0, pos, t =>
    { t with
      vBits := t.vBits ++ [parentOfMatch vMatch t.nTransactions 0 pos]
      vHash := t.vHash ++ [calcHash env vTxid t.nTransactions 0 pos] }
  | height + 1, pos, t =>
    let fParentOfMatch := parentOfMatch vMatch t.nTransactions (height + 1) pos
    let t := { t with vBits := t.vBits ++ [fParentOfMatch] }
    if fParentOfMatch = false then
      { t with vHash := t.vHash ++ [calcHash env vTxid t.nTransactions (height + 1) pos] }
    else
      let t := traverseAndBuild height (pos * 2) t
      if pos * 2 + 1 < calcTreeWidth t.nTransactions height
      then traverseAndBuild height (pos * 2 + 1) t else t

/-- The partial tree for those transactions of a list that match. -/
def ofMatches : CPartialMerkleTree :=
  traverseAndBuild env vTxid vMatch (treeHeight vTxid.length) 0 ⟨vTxid.length, [], [], false⟩

end Build

/-! ### On the wire -/

/-- What is sent: the number of transactions, the hashes, and the bits in bytes. -/
structure Wire where
  nTransactions : ℕ
  vHash : List ℕ
  vBytes : Bytes
  deriving DecidableEq, Repr

def serialize (t : CPartialMerkleTree) : Wire := ⟨t.nTransactions, t.vHash, pack t.vBits⟩

/-- The tree that is read; it has all bits of the bytes. -/
def Wire.unserialize (w : Wire) : CPartialMerkleTree :=
  ⟨w.nTransactions, unpack w.vBytes, w.vHash, false⟩

/-! ### Extracting -/

/-- The state of a walk: the bits and hashes used, the transactions that matched, and whether the
data ran out. -/
structure Extraction where
  nBitsUsed : ℕ
  nHashUsed : ℕ
  vMatch : List ℕ
  fBad : Bool
  deriving DecidableEq, Repr

/-- Use the next hash for a node. At height 0, its transaction may match. -/
def useHash (t : CPartialMerkleTree) (matched : Bool) (s : Extraction) : ℕ × Extraction :=
  match t.vHash[s.nHashUsed]? with
  | none => (0, { s with fBad := true })
  | some hash =>
    (hash, { s with
      nHashUsed := s.nHashUsed + 1
      vMatch := if matched then s.vMatch ++ [hash] else s.vMatch })

/-- The hash of a node. Once data ran out, the walk goes on all the same. -/
def traverseAndExtract (env : Env) (t : CPartialMerkleTree) :
    ℕ → ℕ → Extraction → ℕ × Extraction
  | 0, _, s =>
    match t.vBits[s.nBitsUsed]? with
    | none => (0, { s with fBad := true })
    | some fParentOfMatch =>
      useHash t fParentOfMatch { s with nBitsUsed := s.nBitsUsed + 1 }
  | height + 1, pos, s =>
    match t.vBits[s.nBitsUsed]? with
    | none => (0, { s with fBad := true })
    | some false => useHash t false { s with nBitsUsed := s.nBitsUsed + 1 }
    | some true =>
      let l := traverseAndExtract env t height (pos * 2)
        { s with nBitsUsed := s.nBitsUsed + 1 }
      let r := if pos * 2 + 1 < calcTreeWidth t.nTransactions height
        then traverseAndExtract env t height (pos * 2 + 1) l.2 else l
      (env.hashPair l.1 r.1, r.2)

/-- The Merkle root and the transactions that match; the root zero stands for a failure. -/
def extractMatches (env : Env) (t : CPartialMerkleTree) : CPartialMerkleTree × ℕ × List ℕ :=
  if t.nTransactions = 0 then (t, 0, [])
  -- taken for the least size of a transaction
  else if maxBlockSize / 60 < t.nTransactions then (t, 0, [])
  else if t.nTransactions < t.vHash.length then (t, 0, [])
  else if t.vBits.length < t.vHash.length then (t, 0, [])
  else
    let r := traverseAndExtract env t (treeHeight t.nTransactions) 0 ⟨0, 0, [], t.fBad⟩
    let t' := { t with fBad := r.2.fBad }
    if r.2.fBad then (t', 0, r.2.vMatch)
    else if (r.2.nBitsUsed + 7) / 8 ≠ (t.vBits.length + 7) / 8 then (t', 0, r.2.vMatch)
    else if r.2.nHashUsed ≠ t.vHash.length then (t', 0, r.2.vMatch)
    else (t', r.1, r.2.vMatch)

end CPartialMerkleTree

/-! ### Filtered blocks -/

/-- The bytes of a hash, the least significant one first. -/
def uint256Bytes (hash : ℕ) : Bytes := (List.range 32).map fun i => UInt8.ofNat (hash / 256 ^ i)

structure CMerkleBlock where
  header : CBlockHeader
  txn : CPartialMerkleTree
  vMatchedTxn : List (ℕ × ℕ)

/-- The answer `none` stands for a division by zero in the filter. -/
def cMerkleBlock (env : Env) (b : CBlock) (filter : CBloomFilter) :
    Option (CBloomFilter × CMerkleBlock) :=
  let vHashes := b.vtx.map env.hashTx
  (matchBlock filter (vHashes.map uint256Bytes)).map fun r =>
    (r.1,
      { header := b.toCBlockHeader
        txn := .ofMatches env vHashes r.2
        vMatchedTxn := ((vHashes.zip r.2).zipIdx.filter fun e => e.1.2).map fun e =>
          (e.2, e.1.1) })

end FreechCore
