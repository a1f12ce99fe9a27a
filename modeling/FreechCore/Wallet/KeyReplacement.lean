import FreechCore.Bencode.Reads
import FreechCore.Mining.Message

/-!
Replacing the key of a user. The wallet moves the old key of a name aside, makes a new one, and
later sends a registration of the new key that is signed with the old one. The keys that were
moved aside are in a map from keys to names, and the old key of a name is the first in the order
of the keys.
-/

namespace FreechCore

open CScript Option

variable {tx : CTransaction}

/-! ### The answers of the commands -/

inductive WalletRPCCode
  | internalError
  | miscError
  | invalidAddressOrKey
  | invalidParameter
  | deserializationError
  | walletError
  | walletInvalidAccountName
  | walletUnlockNeeded
  deriving DecidableEq, Repr

structure WalletRPCError where
  code : WalletRPCCode
  message : String
  deriving DecidableEq, Repr

/-! ### The wallet -/

/-- The wallet with the keys that are being replaced. -/
structure ReplacingWallet extends CWallet where
  mapKeyReplacement : StdMap ℕ Bytes

namespace ReplacingWallet

/-- The public key is known in a locked wallet, too. -/
def getPubKey (S : SignEnv) (w : ReplacingWallet) (id : ℕ) : Option Bytes :=
  (w.mapKeys.find? id).map S.getPubKey

/-- The first key with the name gets another name, and is noted as being replaced, unless it is
noted already. -/
def moveKeyForReplacement (w : ReplacingWallet) (username : Bytes) : Option ReplacingWallet :=
  (w.mapKeyMetadata.entries.find? fun it => it.2.username = username).map fun it =>
    { w with
      mapKeyReplacement :=
        if w.mapKeyReplacement.contains it.1 then w.mapKeyReplacement
        else w.mapKeyReplacement.insert it.1 username
      mapKeyMetadata :=
        w.mapKeyMetadata.insert it.1 { it.2 with username := username ++ ascii "/replaced" } }

/-- The first key that is noted as being replaced for the name. -/
def getKeyIdBeingReplaced (w : ReplacingWallet) (username : Bytes) : Option ℕ :=
  (w.mapKeyReplacement.entries.find? fun it => it.2 = username).map Prod.fst

/-- Only that first key is forgotten. -/
def forgetReplacementMap (w : ReplacingWallet) (username : Bytes) : ReplacingWallet :=
  match w.getKeyIdBeingReplaced username with
  | some keyid => { w with mapKeyReplacement := w.mapKeyReplacement.erase keyid }
  | none => w

/-- Put a new key into the wallet; the name is entered even when the key cannot be added. -/
def generateNewKey (w : ReplacingWallet) (keyID : ℕ) (secret : CKey) (nCreationTime : ℤ)
    (username : Bytes) : ReplacingWallet × Bool :=
  let w' := w.toCWallet.setMetadata keyID ⟨nCreationTime, username⟩
  let (w'', added) := w'.addKeyPubKey keyID secret
  (⟨w'', w.mapKeyReplacement⟩, added)

end ReplacingWallet

/-- The signature of a text by a key of the wallet, and the empty text if there is none. -/
def createSignatureByKey (S : SignEnv) (wallet : CWallet) (strMessage : Bytes) (keyID : ℕ) :
    Bytes :=
  if wallet.locked then []
  else
    match wallet.getKey keyID with
    | none => []
    | some key => (S.signCompact key (S.hashMessage strMessage)).getD []

/-! ### A new key -/

/-- Make a key for a user; `secret` is the key the random generator gives. The answer `none`
means that the lookup of the name does not return. -/
def createwalletuser (env : Env) (S : SignEnv) (fuel : ℕ) (n : Node) (w : ReplacingWallet)
    (secret : CKey) (time : ℤ) (strUsername : Bytes) (replaceKey : Bool) :
    Option (ReplacingWallet × Except WalletRPCError CKey) :=
  if w.locked then
    some (w, .error ⟨.walletUnlockNeeded,
      "Error: Please enter the wallet passphrase with walletpassphrase first."⟩)
  else
    let keyInWallet := (w.getKeyIdFromUsername strUsername).isSome
    if keyInWallet = true ∧ replaceKey = false then
      some (w, .error ⟨.walletInvalidAccountName, "Error: this username exists in wallet"⟩)
    else if keyInWallet = false ∧ replaceKey = true then
      some (w, .error ⟨.walletInvalidAccountName,
        "Error: replacekey given but old key not in wallet"⟩)
    else
      match getTransaction env fuel n strUsername (-1) with
      | none => none
      | some found =>
        if found.isSome = true ∧ replaceKey = false then
          some (w, .error ⟨.walletInvalidAccountName,
            "Error: this username exists in tx database"⟩)
        else
          match (if replaceKey then w.moveKeyForReplacement strUsername else some w) with
          | none => some (w, .error ⟨.walletError, "Error: moving key for replacement"⟩)
          | some w =>
            let keyID := env.keyID (S.getPubKey secret)
            match w.generateNewKey keyID secret time strUsername with
            | (w, false) =>
              some (w, .error ⟨.miscError, "CWallet::GenerateNewKey() : AddKey failed"⟩)
            | (w, true) =>
              match w.getKey keyID with
              | none =>
                some (w, .error ⟨.walletError,
                  "Error: could not obtain just created privkey?!"⟩)
              | some vchSecret => some (w, .ok vchSecret)

/-! ### The registration -/

/-- The first nonce from `nNonce` on that meets the target, within some tries. -/
def findNonce (env : Env) (tx : CTransaction) (bnTarget : ℤ) : (left nNonce : ℕ) → ℕ
  | 0, nNonce => nNonce
  | left + 1, nNonce =>
    if (env.hashTx { tx with nNonce := nNonce } : ℤ) < bnTarget then nNonce
    else findNonce env tx bnTarget left (nNonce + 1)

/-- A transaction with its work. When none is found, this is not reported. -/
def doTxProofOfWork (env : Env) (tx : CTransaction) : CTransaction :=
  let bnTarget := setCompact env.txBits
  if bnTarget ≤ 0 ∨ env.proofOfWorkLimit < bnTarget then tx
  else { tx with nNonce := findNonce env tx bnTarget (2 ^ 32 - 1) 0 }

/-- Texts reach this command in hexadecimal, which the empty text is not. -/
def parseHexV (v : Bytes) (strName : String) : Except WalletRPCError Bytes :=
  if v = [] then .error ⟨.invalidParameter, strName ++ " must be hexadecimal string (not '')"⟩
  else .ok v

/-- A registration of a name with a key, and the signature of the key it replaces. -/
def createrawtransaction (env : Env) (username pubkey : Bytes) (signedByOldKey : Option Bytes) :
    Except WalletRPCError CTransaction :=
  match parseHexV pubkey "pubkey" with
  | .error e => .error e
  | .ok vch =>
    if isValidPubKey vch = false then .error ⟨.internalError, "pubkey is not valid"⟩
    else
      let vchSign : Except WalletRPCError CScript := match signedByOldKey with
        | none => .ok []
        | some sig => (parseHexV sig "signedByOldKey").map pushData
      vchSign.map fun vchSign =>
        doTxProofOfWork env ⟨currentTxVersion, [], pushData username,
          pushData vch ++ vchSign, 0⟩

/-- Hand a transaction to the memory pool. A name that is registered already is refused, unless
the transaction replaces its key. -/
def sendrawtransaction (env : Env) (fuel : ℕ) (n : Node) (tx : CTransaction) :
    Option (Node × Except WalletRPCError ℕ) :=
  let hashTx := env.hashTx tx
  let accept : Option (Node × Except WalletRPCError ℕ) :=
    (mempoolAccept env fuel n tx).map fun
      | (n', true) => (n', .ok hashTx)
      | (n', false) => (n', .error ⟨.deserializationError, "TX rejected"⟩)
  match getTransaction env fuel n tx.getUsername (-1) with
  | none => none
  | some none => accept
  | some (some (tx2, hashBlock)) =>
    match verifyDuplicateOrReplacementTx env fuel n tx false true (-1) false with
    | none => none
    | some (_, true) => accept
    | some (_, false) =>
      if hashBlock ≠ 0 then
        some (n, .error ⟨.invalidAddressOrKey, "transaction already in block chain"⟩)
      else if hashTx ≠ env.hashTx tx2 then
        some (n, .error ⟨.invalidAddressOrKey,
          "conflict transaction detected (same user, different tx)"⟩)
      else some (n, .ok hashTx)

/-- The registration that is to be sent for a user, with the old key it is signed with. -/
def newUserTransaction (env : Env) (S : SignEnv) (fuel : ℕ) (n : Node) (w : ReplacingWallet)
    (strUsername : Bytes) : Option (Except WalletRPCError (Option ℕ × CTransaction)) :=
  let oldKeyID := w.getKeyIdBeingReplaced strUsername
  match w.getKeyIdFromUsername strUsername with
  | none =>
    some (.error ⟨.walletInvalidAccountName, "Error: username must exist in wallet"⟩)
  | some keyID =>
    match w.getPubKey S keyID with
    | none => some (.error ⟨.walletInvalidAccountName, "Error: no public key found"⟩)
    | some pubkey =>
      match getTransaction env fuel n strUsername (-1) with
      | none => none
      | some found =>
        if oldKeyID.isSome = false ∧ found.isSome = true then
          some (.error ⟨.walletInvalidAccountName, "Error: this username exists in tx database"⟩)
        else if oldKeyID.isSome = true ∧ found.isSome = false then
          some (.error ⟨.walletInvalidAccountName,
            "Error: key replacemente requires old key in tx database"⟩)
        else
          let signedByOldKey := oldKeyID.map (createSignatureByKey S w.toCWallet pubkey)
          some ((createrawtransaction env strUsername pubkey signedByOldKey).map (oldKeyID, ·))

/-- Send the registration of a user. The replacement is forgotten before the transaction is
handed on. -/
def sendnewusertransaction (env : Env) (S : SignEnv) (fuel : ℕ) (n : Node) (w : ReplacingWallet)
    (strUsername : Bytes) : Option (Node × ReplacingWallet × Except WalletRPCError ℕ) :=
  match newUserTransaction env S fuel n w strUsername with
  | none => none
  | some (.error e) => some (n, w, .error e)
  | some (.ok (oldKeyID, tx)) =>
    let w := if oldKeyID.isSome then w.forgetReplacementMap strUsername else w
    (sendrawtransaction env fuel n tx).map fun (n, r) => (n, w, r)

/-! ### A registration that is not taken -/

section Retry

variable {env : Env} {S : SignEnv} {fuel : ℕ} {n : Node} {w : ReplacingWallet} {u : Bytes} {k : ℕ}

/-- The node takes a registration in place of the one it has for the name. -/
structure Node.TakesReplacement (n : Node) (env : Env) (oldTx tx : CTransaction) : Prop where
  replaces : isReplacement env oldTx tx = true
  checked : checkTransaction env tx = .ok ()
  standard : env.testNet = true ∨ isStandardTx tx = true
  absent : n.mapTx.contains (env.hashTx tx) = false

lemma getUsername_of_getTransaction {h : ℤ} {found : Found}
    (hget : getTransaction env fuel n u h = some (some found)) : found.1.getUsername = u := by
  unfold getTransaction at hget
  rw [join_eq_some_iff] at hget
  refine Loop.doWhile_spec (I := fun _ => True)
    (Q := fun r => r = some (some found) → found.1.getUsername = u) (fun _ _ _ _ => trivial)
    (fun k r _ hstep hr => ?_) trivial hget rfl
  unfold getTransactionStep at hstep
  grind

lemma length_getUsername_lt (tx : CTransaction) : tx.getUsername.length < opPushData1 := by
  unfold CTransaction.getUsername extractSmallString
  split_ifs with h
  · cases hs : tx.userName with
    | nil => decide
    | cons op data =>
      rw [hs, isSmallString, decide_eq_true_eq] at h
      rw [List.drop_succ_cons, List.drop_zero, h.2]
      exact h.1
  · decide

lemma doTxProofOfWork_eq (env : Env) (tx : CTransaction) :
    ∃ nNonce, doTxProofOfWork env tx = { tx with nNonce := nNonce } := by
  unfold doTxProofOfWork
  dsimp only
  split_ifs
  · exact ⟨tx.nNonce, rfl⟩
  · exact ⟨_, rfl⟩

lemma createrawtransaction_ok {pubkey : Bytes} {sig : Option Bytes}
    (h : createrawtransaction env u pubkey sig = .ok tx) :
    tx.userName = pushData u ∧ tx.isSpamMessage = false := by
  have hmade : ∃ script, doTxProofOfWork env
      ⟨currentTxVersion, [], pushData u, script, 0⟩ = tx := by
    unfold createrawtransaction at h
    split at h
    · cases h
    · split_ifs at h
      obtain ⟨vchSign, -, htx⟩ := except_map_eq_ok.mp h
      exact ⟨_, htx⟩
  obtain ⟨script, rfl⟩ := hmade
  obtain ⟨nNonce, hpow⟩ := doTxProofOfWork_eq env
    ⟨currentTxVersion, [], pushData u, script, 0⟩
  rw [hpow]
  exact ⟨rfl, rfl⟩

/-- **When a registration of a known name is refused**: unless the node takes it in place of the
one it has, or is sent that one again, from a block with the hash zero. -/
lemma sendrawtransaction_error_iff {oldTx : CTransaction} {hashBlock : ℕ}
    (hget : getTransaction env fuel n tx.getUsername (-1) = some (some (oldTx, hashBlock)))
    (hspam : tx.isSpamMessage = false) :
    (∃ n' e, sendrawtransaction env fuel n tx = some (n', .error e)) ↔
      ¬(n.TakesReplacement env oldTx tx ∨ isReplacement env oldTx tx = false ∧ hashBlock = 0 ∧
        env.hashTx tx = env.hashTx oldTx) := by
  have hverify : verifyDuplicateOrReplacementTx env fuel n tx false true (-1) false =
      some (n, isReplacement env oldTx tx) := by
    simp [verifyDuplicateOrReplacementTx, hget]
  unfold sendrawtransaction
  rw [hget]
  dsimp only
  rw [hverify]
  cases hrep : isReplacement env oldTx tx with
  | true =>
    have htakes : n.TakesReplacement env oldTx tx ↔ ¬(checkTransaction env tx ≠ .ok () ∨
        tx.isSpamMessage = true ∨ (env.testNet = false ∧ isStandardTx tx = false) ∨
        n.mapTx.contains (env.hashTx tx) = true) := by
      constructor
      · rintro ⟨-, hchk, hstd, habs⟩
        simp only [hchk, hspam, habs]
        rcases hstd with hstd | hstd <;> simp [hstd]
      · intro h
        push Not at h
        refine ⟨hrep, h.1, ?_, Bool.eq_false_iff.mpr h.2.2.2⟩
        cases htest : env.testNet with
        | true => exact .inl rfl
        | false => exact .inr (by simpa using h.2.2.1 htest)
    rw [htakes]
    unfold mempoolAccept
    rw [hget]
    dsimp only
    rw [hverify, hrep]
    split_ifs with hbad
    · refine iff_of_true ⟨_, _, rfl⟩ ?_
      rintro (h | h)
      · exact h hbad
      · cases h.1
    · refine iff_of_false ?_ fun h => h (.inl hbad)
      rintro ⟨_, _, h⟩
      cases h
  | false =>
    have hnot : ¬n.TakesReplacement env oldTx tx := fun h => by simp [h.replaces] at hrep
    split_ifs with hzero hhash <;> simp_all

lemma ReplacingWallet.getKeyIdBeingReplaced_forget (hk : w.getKeyIdBeingReplaced u = some k) :
    (w.forgetReplacementMap u).getKeyIdBeingReplaced u ≠ some k := by
  intro h
  rw [forgetReplacementMap, hk] at h
  obtain ⟨it, hit, rfl⟩ := map_eq_some_iff.mp h
  have hmem := List.mem_of_find?_eq_some hit
  simp [StdMap.erase] at hmem

lemma newUserTransaction_ok_iff (hk : w.getKeyIdBeingReplaced u = some k) {old : Option ℕ} :
    newUserTransaction env S fuel n w u = some (.ok (old, tx)) ↔
      old = some k ∧ ∃ keyID pubkey found, w.getKeyIdFromUsername u = some keyID ∧
        w.getPubKey S keyID = some pubkey ∧
        getTransaction env fuel n u (-1) = some (some found) ∧
        createrawtransaction env u pubkey
          (some (createSignatureByKey S w.toCWallet pubkey k)) = .ok tx := by
  unfold newUserTransaction
  rw [hk]
  cases hid : w.getKeyIdFromUsername u with
  | none => simp
  | some keyID =>
    dsimp only
    cases hpub : w.getPubKey S keyID with
    | none => simp [hpub]
    | some pubkey =>
      rcases getTransaction env fuel n u (-1) with _ | _ | found
      · simp
      · simp
      · simp only [isSome_some, Bool.true_eq_false, false_and, and_false, if_false,
          map_some, some.injEq, except_map_eq_ok, Prod.mk.injEq]
        constructor
        · rintro ⟨tx', hraw, hold, rfl⟩
          exact ⟨hold.symm, keyID, pubkey, found, rfl, hpub, rfl, hraw⟩
        · rintro ⟨rfl, keyID', pubkey', found', rfl, hpub', -, hraw⟩
          rw [hpub] at hpub'
          cases hpub'
          exact ⟨tx, hraw, rfl, rfl⟩

lemma getUsername_createrawtransaction {found : Found} {pubkey : Bytes} {sig : Option Bytes}
    (hget : getTransaction env fuel n u (-1) = some (some found))
    (hraw : createrawtransaction env u pubkey sig = .ok tx) : tx.getUsername = u := by
  have hlen := length_getUsername_lt found.1
  rw [getUsername_of_getTransaction hget] at hlen
  rw [CTransaction.getUsername, (createrawtransaction_ok hraw).1,
    (isSmallString_pushData hlen).2]

/-- **A failed replacement can be tried again, unless the transaction is refused.** After every
call that fails, the key being replaced is the one from before exactly if the node takes the
registration, when one can be made: by then the replacement is forgotten. -/
theorem replacement_kept_iff (hk : w.getKeyIdBeingReplaced u = some k) :
    (∀ n' w' e, sendnewusertransaction env S fuel n w u = some (n', w', .error e) →
      w'.getKeyIdBeingReplaced u = some k) ↔
    ∀ keyID pubkey oldTx hashBlock tx, w.getKeyIdFromUsername u = some keyID →
      w.getPubKey S keyID = some pubkey →
      getTransaction env fuel n u (-1) = some (some (oldTx, hashBlock)) →
      createrawtransaction env u pubkey
        (some (createSignatureByKey S w.toCWallet pubkey k)) = .ok tx →
      n.TakesReplacement env oldTx tx ∨ isReplacement env oldTx tx = false ∧ hashBlock = 0 ∧
        env.hashTx tx = env.hashTx oldTx := by
  constructor
  · intro h keyID pubkey oldTx hashBlock tx hid hpub hget hraw
    by_contra hnot
    have hnew : newUserTransaction env S fuel n w u = some (.ok (some k, tx)) :=
      (newUserTransaction_ok_iff hk).mpr ⟨rfl, keyID, pubkey, _, hid, hpub, hget, hraw⟩
    rw [← getUsername_createrawtransaction hget hraw] at hget
    obtain ⟨n', e, hsend⟩ :=
      (sendrawtransaction_error_iff hget (createrawtransaction_ok hraw).2).mpr hnot
    refine ReplacingWallet.getKeyIdBeingReplaced_forget hk (h n' _ e ?_)
    rw [sendnewusertransaction, hnew]
    simp [hsend]
  · intro h n' w' e hsend
    rcases hnew : newUserTransaction env S fuel n w u with _ | e' | ⟨old, tx⟩
    · simp [sendnewusertransaction, hnew] at hsend
    · -- the call fails before anything is forgotten
      rw [sendnewusertransaction, hnew] at hsend
      cases hsend
      exact hk
    · obtain ⟨rfl, keyID, pubkey, ⟨oldTx, hashBlock⟩, hid, hpub, hget, hraw⟩ :=
        (newUserTransaction_ok_iff hk).mp hnew
      have hok := h keyID pubkey oldTx hashBlock tx hid hpub hget hraw
      rw [← getUsername_createrawtransaction hget hraw] at hget
      rw [sendnewusertransaction, hnew] at hsend
      obtain ⟨⟨n₁, r⟩, hraw', heq⟩ := map_eq_some_iff.mp hsend
      cases heq
      exact absurd hok ((sendrawtransaction_error_iff hget (createrawtransaction_ok hraw).2).mp
        ⟨_, _, hraw'⟩)

end Retry

namespace Toy

def lowKey : Bytes := 2 :: List.replicate 32 0
def highKey : Bytes := 2 :: List.replicate 32 3

/-- The wallet with the key of its user, and nothing being replaced. -/
def replacingWallet : ReplacingWallet := ⟨keyWallet, .empty⟩

def replaceWith (secret : CKey) (s : Node × ReplacingWallet) : Option (Node × ReplacingWallet) :=
  (createwalletuser keyEnv signEnv 9 s.1 s.2 secret 0 alice true).map fun r => (s.1, r.1)

def sendNew (s : Node × ReplacingWallet) :
    Option (Node × ReplacingWallet × Except WalletRPCError ℕ) :=
  sendnewusertransaction keyEnv signEnv 9 s.1 s.2 alice

/-- A replacement is sent, and before it is confirmed another one begins. -/
def secondReplacement : Option (Node × ReplacingWallet) :=
  (keyInTip.bind fun n => replaceWith lowKey (n, replacingWallet)).bind fun s =>
    (sendNew s).bind fun r => replaceWith highKey (r.1, r.2.1)

/-- The wallet is locked between the new key and its registration. -/
def lockedReplacement : Option (Node × ReplacingWallet) :=
  (keyInTip.bind fun n => replaceWith lowKey (n, replacingWallet)).map fun s =>
    (s.1, { s.2 with locked := true })

end Toy

open Toy in
/-- While the wallet is locked nothing can be signed, and the old key stays known. -/
theorem replacement_kept_locked : ∃ s, lockedReplacement = some s ∧
    s.2.getKeyIdBeingReplaced alice = some (code longKey) ∧
    ∀ n' w' e, sendNew s = some (n', w', .error e) →
      w'.getKeyIdBeingReplaced alice = some (code longKey) := by
  have hrun : lockedReplacement.map (fun s => (s.2.locked, s.2.getKeyIdBeingReplaced alice)) =
      some (true, some (code longKey)) := by decide +kernel
  obtain ⟨s, hs, heq⟩ := map_eq_some_iff.mp hrun
  obtain ⟨hlocked, hk⟩ := Prod.mk.inj heq
  refine ⟨s, hs, hk, (replacement_kept_iff hk).mpr ?_⟩
  intro keyID pubkey oldTx hashBlock tx _ _ _ hraw
  -- a locked wallet makes no signature, and none is refused as a parameter
  have hsig : createSignatureByKey signEnv s.2.toCWallet pubkey (code longKey) = [] := if_pos hlocked
  rw [hsig, createrawtransaction] at hraw
  split at hraw
  · cases hraw
  · split_ifs at hraw
    cases hraw

open Toy in
/-- The second replacement is refused, and its old key is forgotten all the same. -/
theorem replacement_forgotten : ∃ s n' w', secondReplacement = some s ∧
    s.2.getKeyIdBeingReplaced alice = some (code lowKey) ∧
    sendNew s =
      some (n', w', .error ⟨.invalidAddressOrKey, "transaction already in block chain"⟩) ∧
    w'.getKeyIdBeingReplaced alice = none := by
  have hrun : (secondReplacement.bind fun s => (sendNew s).map fun r =>
      (s.2.getKeyIdBeingReplaced alice, r.2.2, r.2.1.getKeyIdBeingReplaced alice)) =
      some (some (code lowKey),
        .error ⟨.invalidAddressOrKey, "transaction already in block chain"⟩, none) := by
    decide +kernel
  obtain ⟨s, hs, hmap⟩ := bind_eq_some_iff.mp hrun
  obtain ⟨⟨n', w', r⟩, hsend, heq⟩ := map_eq_some_iff.mp hmap
  simp only [Prod.mk.injEq] at heq
  obtain ⟨hbefore, rfl, hafter⟩ := heq
  exact ⟨s, n', w', hs, hbefore, hsend, hafter⟩

end FreechCore
