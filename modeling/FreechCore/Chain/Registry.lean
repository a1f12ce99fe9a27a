import FreechCore.Lib.Loop
import FreechCore.Chain.Node

/-!
The registry of user names: the lookup of a registration through the transaction index,
and the decision whether a new registration of a known name is allowed.

A lookup answers only for blocks of the main-chain vector. It need not return: the
answer `none` means that it does not, or not within the given number of rounds.
-/

namespace FreechCore

/-- A registration that was found, with the hash of its block. -/
abbrev Found := CTransaction × ℕ

/-- Read the block header and the transaction an index entry points to. -/
def Node.readTx (n : Node) (postx : CDiskTxPos) : Option (CBlockHeader × CTransaction) :=
  match n.blockFiles postx.toCDiskBlockPos with
  | none => none
  | some b => (b.readTx postx.nTxOffset).map (b.toCBlockHeader, ·)

/-- One round of the lookup: leave with an answer, or go on below `height`. An inner `none`
is a failed assertion. -/
def getTransactionStep (env : Env) (n : Node) (username : Bytes) (maxHeight height : ℤ) :
    ℤ ⊕ Option (Option Found) :=
  match n.readTxIndex (username, height) with
  | none => .inr (some none)
  | some postx =>
    match n.readTx postx with
    | none => .inr (some none)
    | some (header, txOut) =>
      if txOut.getUsername ≠ username then .inr (some none)
      else
        let hashBlock := env.hashHeader header
        match n.index hashBlock with
        | none => .inr (some none)
        | some pindex =>
          if header.nHeight ≠ pindex.nHeight then .inr none
          else if n.isInMainChain hashBlock = false then .inr (some none)
          else if maxHeight < header.nHeight then
            -- the older registration was saved under the height before this one
            if 0 < header.nHeight - 1 ∧ maxHeight ≤ header.nHeight - 1 then
              .inl (header.nHeight - 1)
            else .inr (some none)
          else .inr (some (some (txOut, hashBlock)))

/-- The bound a lookup really uses: a negative one stands for the best height. -/
def Node.heightBound (n : Node) (maxHeight : ℤ) : ℤ :=
  if maxHeight < 0 then n.nBestHeight else maxHeight

def getTransaction (env : Env) (fuel : ℕ) (n : Node) (username : Bytes) (maxHeight : ℤ) :
    Option (Option Found) :=
  (Loop.doWhile (getTransactionStep env n username (n.heightBound maxHeight)) fuel (-1)).join

/-- The new key of `tx` is signed with the key that `oldTx` registered. -/
def isReplacement (env : Env) (oldTx tx : CTransaction) : Bool :=
  match CScript.extractPushData tx.pubKey, CScript.extractPushData oldTx.pubKey with
  | some (newKey :: sig :: _), some (oldKey :: _) =>
    match env.recoverCompact (env.hashMessage newKey) sig with
    | some pubkeyRec => decide (env.keyID pubkeyRec = env.keyID oldKey)
    | none => false
  | _, _ => false

/-- Whether a registration may stand on top of the one the index has for its name. With
`removeOrphan`, an index entry that leads nowhere is dropped and counts as allowed. -/
def verifyDuplicateOrReplacementTx (env : Env) (fuel : ℕ) (n : Node) (tx : CTransaction)
    (checkDuplicate checkReplacement : Bool) (maxHeight : ℤ) (removeOrphan : Bool) :
    Option (Node × Bool) :=
  match getTransaction env fuel n tx.getUsername maxHeight with
  | none => none
  | some (some (oldTx, _)) =>
    if checkDuplicate = true ∧ env.hashTx oldTx = env.hashTx tx then some (n, true)
    else some (n, checkReplacement && isReplacement env oldTx tx)
  | some none =>
    if removeOrphan = true ∧ (n.readTxIndex (tx.getUsername, -1)).isSome then
      some (n.eraseTxIndex (tx.getUsername, -1), true)
    else some (n, false)

/-! ### More rounds do not change an answer -/

section

variable {env : Env} {f g : ℕ} {n : Node} {u : Bytes} {h : ℤ}

lemma getTransaction_mono
    {r : Option Found} (hfg : f ≤ g) (hr : getTransaction env f n u h = some r) :
    getTransaction env g n u h = some r := by
  unfold getTransaction at hr ⊢
  cases hd : Loop.doWhile (getTransactionStep env n u (n.heightBound h)) f (-1) with
  | none => simp [hd] at hr
  | some o =>
    rw [Loop.doWhile_mono hfg hd]
    rwa [hd] at hr

lemma getTransaction_unique {r r' : Option Found} (hr : getTransaction env f n u h = some r)
    (hr' : getTransaction env g n u h = some r') : r = r' := by
  have h1 := getTransaction_mono (Nat.le_max_left f g) hr
  have h2 := getTransaction_mono (Nat.le_max_right f g) hr'
  exact Option.some.inj (h1.symm.trans h2)

end

end FreechCore
