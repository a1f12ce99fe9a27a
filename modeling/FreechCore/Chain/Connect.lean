import FreechCore.Chain.Registry

/-!
Connecting a block to the chain and disconnecting it again. Both write the transaction
index in place; what they keep in a view of their own is only the best block. Every lookup
in them goes through the main-chain vector, which they do not change.

The results are the node, the best block of the view and the outcome of the checks; `none`
means that the call does not return.
-/

namespace FreechCore

/-- The name a promoted message is signed for when nobody signs it. -/
def nobody : Bytes := ascii "nobody"

/-- The signature of a promoted message, made by a user registered at the block's height. -/
def checkSpamSignature (env : Env) (tx txPubKey : CTransaction) : Check :=
  match CScript.extractPushData txPubKey.pubKey with
  | some (pubkey :: _) =>
    match env.recoverCompact (env.hashMessage tx.message)
        (CScript.extractPushDataString tx.userName 1) with
    | none => .error (.invalid 100 ["ConnectBlock() : RecoverCompact failed for spammsg"])
    | some pubkeyRec =>
      ensure (env.keyID pubkeyRec = env.keyID pubkey) 100
        "ConnectBlock() : spam signature verification failed"
  | _ => .error (.invalid 100 ["ConnectBlock() : spam signed with broken pubkey"])

/-- The promoted message of a block at height `nHeight` is signed by a registered user. -/
def checkSpamUser (env : Env) (fuel : ℕ) (n : Node) (nHeight : ℤ) (tx : CTransaction) :
    Option Check :=
  let spamUser := CScript.extractPushDataString tx.userName 0
  if spamUser = nobody then some (.ok ())
  else if CScript.extractPushDataString tx.userName 1 = [] then
    some (.error (.invalid 100 ["ConnectBlock() : spam signature missing"]))
  else
    match getTransaction env fuel n spamUser nHeight with
    | none => none
    | some none =>
      some (.error (.invalid 100
        ["ConnectBlock() : spam signed by unknown user " ++ logText spamUser]))
    | some (some (txPubKey, _)) => some (checkSpamSignature env tx txPubKey)

/-- A registration does not overwrite an older one without permission. -/
def checkOverwriteTx (env : Env) (fuel : ℕ) (n : Node) (nHeight : ℤ) (tx : CTransaction) :
    Option (Node × Check) :=
  match getTransaction env fuel n tx.getUsername (-1) with
  | none => none
  | some none => some (n, .ok ())
  | some (some _) =>
    match verifyDuplicateOrReplacementTx env fuel n tx true true nHeight true with
    | none => none
    | some (n', true) => some (n', .ok ())
    | some (n', false) =>
      some (n', .error (.invalid 100 ["ConnectBlock() : tried to overwrite transaction"]))

/-- The same for all registrations of a block, up to the first that fails. -/
def checkOverwrite (env : Env) (fuel : ℕ) (nHeight : ℤ) :
    Node → List CTransaction → Option (Node × Check)
  | n, [] => some (n, .ok ())
  | n, tx :: vtx =>
    match checkOverwriteTx env fuel n nHeight tx with
    | none => none
    | some (n', .error f) => some (n', .error f)
    | some (n', .ok ()) => checkOverwrite env fuel nHeight n' vtx

/-- The index entries for one registration: the newest one, and the one it replaces unless
that lies in the same block. -/
def txIndexEntries (n : Node) (nHeight : ℤ) (pos : CDiskBlockPos) (e : ℕ × CTransaction) :
    List (TxKey × CDiskTxPos) :=
  let u := e.2.getUsername
  ((u, -1), ⟨pos, e.1⟩) ::
    match n.readTxIndex (u, -1) with
    | some oldPos => if pos ≠ oldPos.toCDiskBlockPos then [((u, nHeight - 1), oldPos)] else []
    | none => []

def blockIndexEntries (n : Node) (pos : CDiskBlockPos) (b : CBlock) :
    List (TxKey × CDiskTxPos) :=
  (b.txOffsets.filter fun e => !e.2.isSpamMessage).flatMap (txIndexEntries n b.nHeight pos)

/-- Undo data is written once, and the block counts as fully verified from then on. -/
def writeUndo (n : Node) (h : ℕ) (nUndo : ℕ) : Node :=
  if (n.undo h).isNone ∨ (n.nStatus h).valid < BlockStatus.validScripts then
    let n := if (n.undo h).isNone
      then { n with undo := fun h' => if h' = h then some nUndo else n.undo h' } else n
    (n.setStatus h fun s => { s with valid := BlockStatus.validScripts }).writeBlockIndex h
  else n

def connectBlock (env : Env) (fuel : ℕ) (now : ℤ) (n : Node) (view : Option ℕ) (h : ℕ)
    (p : CBlockIndex) (b : CBlock) (fJustCheck : Bool) : Option (Node × Option ℕ × Check) :=
  match checkBlock env now (!fJustCheck) (!fJustCheck) b with
  | .error f => some (n, view, .error f)
  | .ok () =>
    if p.pprev ≠ view then none
    else if getHash env b = hashGenesisBlock env then some (n, some h, .ok ())
    else
      match (b.vtx.head?).map (checkSpamUser env fuel n b.nHeight) with
      | none => none
      | some none => none
      | some (some (.error f)) => some (n, view, .error f)
      | some (some (.ok ())) =>
        match checkOverwrite env fuel b.nHeight n b.registrations with
        | none => none
        | some (n', .error f) => some (n', view, .error f)
        | some (n', .ok ()) =>
          if fJustCheck then some (n', view, .ok ())
          else
            let vPos := blockIndexEntries n' p.blockPos b
            let nUndo := (b.vtx.filter fun tx => !tx.isSpamMessage).length
            some ((writeUndo n' h nUndo).writeTxIndex vPos, some h, .ok ())

/-- Bring back the registration that one of a disconnected block had replaced. Nothing is
taken out of the index. -/
def disconnectTx (nHeight : ℤ) (n : Node) (tx : CTransaction) : Node :=
  match n.readTxIndex (tx.getUsername, nHeight - 1) with
  | some oldPos => n.writeTxIndex [((tx.getUsername, -1), oldPos)]
  | none => n

def disconnectBlock (n : Node) (view : Option ℕ) (h : ℕ) (p : CBlockIndex) (b : CBlock)
    (fJustCheck : Bool) : Option (Node × Option ℕ × Check) :=
  if view ≠ some h then none
  else
    match n.undo h with
    | none => some (n, view, .error (.error ["DisconnectBlock() : no undo data available"]))
    | some nUndo =>
      if nUndo + 1 ≠ b.vtx.length then
        some (n, view, .error (.error ["DisconnectBlock() : block and undo data inconsistent"]))
      else
        let n' := if fJustCheck then n
          else b.registrations.reverse.foldl (disconnectTx b.nHeight) n
        some (n', p.pprev, .ok ())

end FreechCore
