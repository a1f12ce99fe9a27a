import FreechCore.Core.Block

/-!
Compact targets, proofs of work and the work of a block. A target is a signed number
written as a byte count and three bytes of mantissa, the top bit of which is the sign.
-/

namespace FreechCore

def setCompact (nCompact : ℕ) : ℤ :=
  let nSize := nCompact / 2 ^ 24
  let fNegative := nCompact / 2 ^ 23 % 2 = 1
  let nWord := nCompact % 2 ^ 23
  let bn : ℕ := if nSize ≤ 3 then nWord / 2 ^ (8 * (3 - nSize)) else nWord * 2 ^ (8 * (nSize - 3))
  if fNegative then -(bn : ℤ) else bn

def numBytes (n : ℕ) : ℕ := if n = 0 then 0 else n.log2 / 8 + 1

def getCompact (bn : ℤ) : ℕ :=
  let n := bn.natAbs
  let nSize := numBytes n
  let nCompact := if nSize ≤ 3 then n * 2 ^ (8 * (3 - nSize)) else n / 2 ^ (8 * (nSize - 3))
  -- a mantissa with its top bit set would read as negative: it takes one byte more
  let (nCompact, nSize) :=
    if nCompact / 2 ^ 23 % 2 = 1 then (nCompact / 256, nSize + 1) else (nCompact, nSize)
  nCompact + nSize * 2 ^ 24 + if bn < 0 then 2 ^ 23 else 0

/-- A hash is a proof of work for compact bits when it does not exceed their target, which
must be positive and within the network's limit. -/
def checkProofOfWork (env : Env) (hash nBits : ℕ) : Bool :=
  let bnTarget := setCompact nBits
  0 < bnTarget ∧ bnTarget ≤ env.proofOfWorkLimit ∧ (hash : ℤ) ≤ bnTarget

/-- The expected number of hashes behind a block. -/
def getBlockWork (nBits : ℕ) : ℕ :=
  let bnTarget := setCompact nBits
  if bnTarget ≤ 0 then 0 else 2 ^ 256 / (bnTarget.toNat + 1)

def nTargetTimespan : ℤ := 14 * 24 * 60 * 60
def nTargetSpacing : ℤ := 10 * 60
def nInterval : ℕ := 2016

/-- The target after a period that took `nActualTimespan`, kept within a factor of four and
the network's limit. -/
def retarget (env : Env) (nBits : ℕ) (nActualTimespan : ℤ) : ℕ :=
  let span := if nActualTimespan < nTargetTimespan / 4 then nTargetTimespan / 4 else nActualTimespan
  let span := if nTargetTimespan * 4 < span then nTargetTimespan * 4 else span
  let bnNew := (setCompact nBits * span).tdiv nTargetTimespan
  getCompact (if (env.proofOfWorkLimit : ℤ) < bnNew then env.proofOfWorkLimit else bnNew)

end FreechCore
