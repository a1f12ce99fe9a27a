import FreechCore.Mining.Pool
import FreechCore.Post.OwnPosts

/-!
The transaction with the promoted message. The limits of `setspammsg` count characters, those of
`CheckTransaction` bytes as well; and the key that signs is the one the wallet has for the user,
which need not be the one on the chain.
-/

namespace FreechCore

open CScript List

/-! ### Settings -/

/-- A message within the limits of `setspammsg`. -/
def PromotedText (msg : Bytes) : Prop :=
  0 < Utf8.numCharacters msg ∧ Utf8.numCharacters msg ≤ maxSpamMsgSize

instance (msg : Bytes) : Decidable (PromotedText msg) := inferInstanceAs (Decidable (_ ∧ _))

/-- The settings that come about by `setspammsg` and by mining. -/
inductive SettingsReached : SpamSettings → Prop
  | start : SettingsReached .default
  | set {st : SpamSettings} (user msg : Bytes) (op : SpamOp) : SettingsReached st →
      SettingsReached (setspammsg st user msg op).1
  | rotate {st : SpamSettings} : SettingsReached st → SettingsReached st.rotate

lemma setspammsg_cases (st : SpamSettings) (user msg : Bytes) (op : SpamOp) :
    (¬ PromotedText msg ∧ ∃ e, setspammsg st user msg op = (st, .error e)) ∨
      PromotedText msg ∧ setspammsg st user msg op = match op with
        | .add => (⟨user, (st.spamMessages ++ [msg]).destutter (· ≠ ·)⟩,
          .ok ((st.spamMessages ++ [msg]).destutter (· ≠ ·)))
        | .remove => (⟨user, st.spamMessages.filter (· ≠ msg)⟩,
          .ok (st.spamMessages.filter (· ≠ msg)))
        | .replace => (⟨user, [msg]⟩, .ok [msg])
        | .unknown => (⟨user, st.spamMessages⟩, .error "unknown operation") := by
  unfold setspammsg PromotedText
  dsimp only
  split_ifs with h1 h2 h3
  · exact Or.inl ⟨by omega, _, rfl⟩
  · exact Or.inl ⟨by omega, _, rfl⟩
  · exact Or.inl ⟨by omega, _, rfl⟩
  · exact Or.inr ⟨by omega, by cases op <;> rfl⟩

variable {st : SpamSettings} {env : Env} {msg user sig salt : Bytes} {pubKey : CScript}

lemma SettingsReached.promotedText (h : SettingsReached st) :
    ∀ msg ∈ st.spamMessages, PromotedText msg := by
  induction h with
  | start => exact fun msg h => absurd h not_mem_nil
  | @set st user msg op _ ih =>
    rcases setspammsg_cases st user msg op with ⟨-, e, heq⟩ | ⟨hmsg, heq⟩
    · rw [heq]
      exact ih
    · rw [heq]
      cases op with
      | add =>
        intro m hm
        have hsub := (destutter_sublist (· ≠ ·) (st.spamMessages ++ [msg])).subset hm
        rcases mem_append.mp hsub with hm | hm
        · exact ih m hm
        · rw [mem_singleton.mp hm]
          exact hmsg
      | remove => exact fun m hm => ih m (mem_of_mem_filter hm)
      | replace =>
        intro m hm
        rw [mem_singleton.mp hm]
        exact hmsg
      | unknown => exact ih
  | @rotate st _ ih =>
    unfold SpamSettings.rotate
    split
    · exact ih
    · rename_i msg l hl
      intro m hm
      refine ih m ?_
      rw [hl]
      simpa [or_comm] using hm

def SpamSettings.message (st : SpamSettings) : Bytes := st.spamMessages.head?.getD strSpamMessage

lemma SettingsReached.message (h : SettingsReached st) : PromotedText st.message := by
  unfold SpamSettings.message
  cases hl : st.spamMessages with
  | nil => decide +kernel
  | cons msg l => exact h.promotedText msg (by simp [hl])

/-! ### The size and the name -/

def sizeWithLength (n : ℕ) : ℕ := getSizeOfCompactSize n + n

/-- The size of a transaction with a promoted message, from the lengths of its parts. -/
def spamTxSize (nMsg nUser nSig nSalt nKey : ℕ) : ℕ :=
  4 + sizeWithLength (pushSize nMsg) +
    sizeWithLength (pushSize nUser + pushSize nSig + pushSize nSalt) +
    sizeWithLength nKey + 4

def spamTx (msg user sig salt : Bytes) (pubKey : CScript) : CTransaction where
  nVersion := currentTxVersion
  message := pushData msg
  userName := pushData user ++ pushData sig ++ pushData salt
  pubKey := pubKey
  nNonce := 0

lemma serializeSize_spamTx : (spamTx msg user sig salt pubKey).serializeSize =
    spamTxSize msg.length user.length sig.length salt.length pubKey.length := by
  simp only [CTransaction.serializeSize, spamTx, scriptSize, length_append,
    length_pushData]
  rfl

lemma isSpamMessage_spamTx : (spamTx msg user sig salt pubKey).isSpamMessage = true := by
  have hpos : 0 < (pushData msg).length := by
    rw [length_pushData]
    exact Nat.zero_lt_of_lt (length_lt_pushSize msg.length)
  exact decide_eq_true (ne_nil_of_length_pos hpos)

lemma lengths_of_size (h : spamTxSize msg.length user.length sig.length salt.length pubKey.length ≤
    maxTxSize) : msg.length ≤ 0xffff ∧ user.length ≤ 0xffff ∧ sig.length ≤ 0xffff ∧
      salt.length ≤ 0xffff := by
  have h1 := length_lt_pushSize msg.length
  have h2 := length_lt_pushSize user.length
  have h3 := length_lt_pushSize sig.length
  have h4 := length_lt_pushSize salt.length
  simp only [spamTxSize, sizeWithLength, maxTxSize] at h
  omega

lemma extract_userName (hu : user.length ≤ 0xffff) (hsig : sig.length ≤ 0xffff)
    (hsalt : salt.length ≤ 0xffff) :
    extractPushData (spamTx msg user sig salt pubKey).userName = some [user, sig, salt] := by
  have hscript : (spamTx msg user sig salt pubKey).userName =
      pushAll [user, sig, salt] := by
    simp [spamTx]
  have hsize : ∀ {b : Bytes}, b.length ≤ 0xffff → pushSize b.length ≤ 0xffff + 5 := by
    intro b hb
    unfold pushSize
    split_ifs <;> omega
  have := hsize hu
  have := hsize hsig
  have := hsize hsalt
  rw [hscript]
  refine extractPushData_pushAll ?_
  simp only [pushAllSize, map_cons, map_nil, sum_cons, sum_nil]
  omega

lemma extract_message (hmsg : msg.length ≤ 0xffff) :
    extractPushDataString (spamTx msg user sig salt pubKey).message 0 = msg := by
  have h := extractPushData_pushData (b := msg) (by omega) []
  rw [append_nil, length_nil, if_pos (by omega)] at h
  simp [extractPushDataString, spamTx, h]

lemma checkTransaction_spamTx_iff (hmsg : PromotedText msg) :
    checkTransaction env (spamTx msg user sig salt pubKey) = .ok () ↔
      (user ≠ [] ∧ user.length ≤ maxUsernameSize) ∧
        spamTxSize msg.length user.length sig.length salt.length pubKey.length ≤ maxTxSize := by
  have hne : msg ≠ [] := by
    rintro rfl
    exact absurd hmsg.1 (by decide)
  have hcheck : checkTransaction env (spamTx msg user sig salt pubKey) = .ok () ↔
      checkSpamMessage (spamTx msg user sig salt pubKey) = .ok () ∧
        spamTxSize msg.length user.length sig.length salt.length pubKey.length ≤ maxTxSize := by
    simp only [checkTransaction, check_bind_eq_ok, ensure_eq_ok, isSpamMessage_spamTx, if_true,
      serializeSize_spamTx, true_or, and_true]
  rw [hcheck, and_congr_left_iff]
  intro hsize
  obtain ⟨h1, h2, h3, h4⟩ := lengths_of_size hsize
  have huser : extractPushDataString (spamTx msg user sig salt pubKey).userName 0 = user := by
    rw [extractPushDataString, extract_userName h2 h3 h4]
    rfl
  simp only [checkSpamMessage, check_bind_eq_ok, ensure_eq_ok, extract_message h1, huser]
  have := hmsg.1
  have := hmsg.2
  constructor
  · exact fun h => h.2.2.2
  · exact fun h => ⟨hne, by omega, by omega, h⟩

/-! ### The signature -/

section Signature

variable {S : SignEnv} {n : Node} {A : List ℕ} {wallet : CWallet}
variable {fuel id : ℕ}

/-- The key that the wallet has for the user of the settings, if the user is on the chain. -/
def Node.spamKey (n : Node) (env : Env) (wallet : CWallet) (user : Bytes) : Option ℕ :=
  if user = nobody then none
  else if (n.newest env user).isSome then wallet.getKeyIdFromUsername user else none

lemma Node.AtTip.spamKeyID_eq (h : n.AtTip env A) :
    spamKeyID env (fuel + 1) n wallet user = some (n.spamKey env wallet user) := by
  unfold spamKeyID Node.spamKey
  by_cases hu : user = nobody
  · rw [if_pos hu, if_pos hu]
  · rw [if_neg hu, if_neg hu, h.getTransaction_best]
    cases n.newest env user <;> rfl

/-- The user's name is one that can be registered, and the key that the wallet has for the user is
the one that is registered on the chain. -/
structure Node.SignsFor (n : Node) (env : Env) (user : Bytes) (id : ℕ) : Prop where
  name : user ≠ [] ∧ user.length ≤ maxUsernameSize
  nonzero : id ≠ 0
  key : ∃ old x pubkey rest, n.newest env user = some (old, x) ∧
    extractPushData old.pubKey = some (pubkey :: rest) ∧ env.keyID pubkey = id

lemma checkSpamUser_nobody (hsig : sig.length ≤ 0xffff) (hsalt : salt.length ≤ 0xffff) (H : ℤ) :
    checkSpamUser env fuel n H (spamTx msg nobody sig salt pubKey) = some (.ok ()) := by
  have huser : extractPushDataString (spamTx msg nobody sig salt pubKey).userName 0 =
      nobody := by
    rw [extractPushDataString, extract_userName (by decide) hsig hsalt]
    rfl
  simp only [checkSpamUser, huser, if_true]

lemma Node.AtTip.checkSpamUser_iff (h : n.AtTip env A) (fuel : ℕ) (msg : Bytes)
    (pubKey : CScript) (hu : user ≠ nobody) (hul : user.length ≤ 0xffff)
    (hsig : sig.length ≤ 0xffff) (hsalt : salt.length ≤ 0xffff) :
    ∃ res, checkSpamUser env (fuel + 1) n A.length (spamTx msg user sig salt pubKey) = some res ∧
      (res = .ok () ↔ sig ≠ [] ∧ ∃ old x pubkey rest pubkeyRec,
        n.newest env user = some (old, x) ∧
        extractPushData old.pubKey = some (pubkey :: rest) ∧
        env.recoverCompact (env.hashMessage (pushData msg)) sig = some pubkeyRec ∧
        env.keyID pubkeyRec = env.keyID pubkey) := by
  have hex : extractPushData (spamTx msg user sig salt pubKey).userName =
      some [user, sig, salt] := extract_userName hul hsig hsalt
  have h0 : extractPushDataString (spamTx msg user sig salt pubKey).userName 0 = user := by
    rw [extractPushDataString, hex]
    rfl
  have h1 : extractPushDataString (spamTx msg user sig salt pubKey).userName 1 = sig := by
    rw [extractPushDataString, hex]
    rfl
  have hm : (spamTx msg user sig salt pubKey).message = pushData msg := rfl
  simp only [checkSpamUser, h0, h1, if_neg hu]
  by_cases hs : sig = []
  · rw [if_pos hs]
    exact ⟨_, rfl, by simp [hs]⟩
  rw [if_neg hs, h.getTransaction_next]
  cases hnew : n.newest env user with
  | none => exact ⟨_, rfl, by simp⟩
  | some f =>
    obtain ⟨old, x⟩ := f
    refine ⟨_, rfl, ?_⟩
    simp only [checkSpamSignature, h1, hm, hs, ne_eq, not_false_eq_true, true_and]
    cases hk : extractPushData old.pubKey with
    | none => simp [hk]
    | some vData =>
      cases vData with
      | nil => simp [hk]
      | cons pubkey rest =>
        cases hr : env.recoverCompact (env.hashMessage (pushData msg)) sig with
        | none => simp
        | some pubkeyRec => simp [ensure_eq_ok, hk]

/-- The name that is put under the message, by the key to sign it with. -/
def SpamSettings.signer (st : SpamSettings) (keyID : Option ℕ) : Bytes :=
  if keyID.isSome then st.strSpamUser else nobody

/-- The length of the signature, by the key. -/
def signatureSize (keyID : Option ℕ) : ℕ := if keyID.isSome then 65 else 0

lemma Node.AtTip.createSpamMsgTx_eq (h : n.AtTip env A) :
    createSpamMsgTx env S (fuel + 1) n wallet st salt =
      some ((spamSignature S wallet (n.spamKey env wallet st.strSpamUser)
        (pushData st.message)).map fun sig =>
          spamTx st.message (st.signer (n.spamKey env wallet st.strSpamUser)) sig salt []) := by
  unfold createSpamMsgTx
  rw [h.spamKeyID_eq]
  rfl

/-- Signatures have 65 bytes. -/
def SignEnv.Compact (S : SignEnv) : Prop :=
  ∀ key hash sig, S.signCompact key hash = some sig → sig.length = 65

lemma spamKey_ne_nobody (h : n.spamKey env wallet user = some id) : user ≠ nobody := by
  intro hu
  rw [Node.spamKey, if_pos hu] at h
  cases h

/-- **What the checks ask of the message**: a registered name with the key of the wallet, if there
is a key at all, and a size within the limit. -/
lemma Node.AtTip.checks_spamTx_iff (h : n.AtTip env A) (hhash : S.hashMessage = env.hashMessage)
    (hsigns : wallet.Signs env S) (hcompact : S.Compact) {K : Option ℕ}
    (hK : n.spamKey env wallet st.strSpamUser = K) (hmsg : PromotedText msg)
    (hsig : spamSignature S wallet K (pushData msg) = some sig) :
    (checkTransaction env (spamTx msg (st.signer K) sig salt pubKey) = .ok () ∧
      checkSpamUser env (fuel + 1) n A.length (spamTx msg (st.signer K) sig salt pubKey) =
        some (.ok ())) ↔
    (∀ id, K = some id → n.SignsFor env st.strSpamUser id) ∧
      spamTxSize msg.length (st.signer K).length (signatureSize K) salt.length pubKey.length ≤
        maxTxSize := by
  rw [checkTransaction_spamTx_iff hmsg]
  cases K with
  | none =>
    cases hsig
    have hname : nobody ≠ [] ∧ nobody.length ≤ maxUsernameSize := by decide
    simp only [SpamSettings.signer, signatureSize, Option.isSome_none, Bool.false_eq_true, if_false,
      length_nil, true_and, reduceCtorEq, false_imp_iff, implies_true]
    constructor
    · exact fun hs => hs.1.2
    · intro hsize
      have hsalt : salt.length ≤ 0xffff := by
        rw [← length_nil (α := UInt8)] at hsize
        exact (lengths_of_size hsize).2.2.2
      exact ⟨⟨hname, hsize⟩, checkSpamUser_nobody (Nat.zero_le _) hsalt _⟩
  | some id =>
    have hu := spamKey_ne_nobody hK
    simp only [SpamSettings.signer, signatureSize, Option.isSome_some, if_true, Option.some.injEq,
      forall_eq']
    by_cases hid : id = 0
    · -- without a key there is no signature
      rw [spamSignature, if_pos hid, Option.some.injEq] at hsig
      subst hsig
      constructor
      · rintro ⟨⟨hname, hsize⟩, hs⟩
        obtain ⟨-, h2, h3, h4⟩ := lengths_of_size hsize
        obtain ⟨res, hres, hiff⟩ := h.checkSpamUser_iff fuel msg pubKey hu h2 h3 h4
        rw [hres, Option.some.injEq] at hs
        exact absurd rfl (hiff.mp hs).1
      · exact fun hs => absurd hid hs.1.nonzero
    · rw [spamSignature, if_neg hid] at hsig
      obtain ⟨key, hkey, hsign⟩ := Option.bind_eq_some_iff.mp hsig
      have hlen : sig.length = 65 := hcompact key _ _ hsign
      have hne : sig ≠ [] := by
        rintro rfl
        cases hlen
      rw [CWallet.getKey] at hkey
      split_ifs at hkey
      rw [hhash] at hsign
      obtain ⟨pubkeyRec, hrec, hrecID⟩ := hsigns id key hkey _ _ hsign
      rw [← hlen]
      constructor
      · rintro ⟨⟨hname, hsize⟩, hs⟩
        refine ⟨⟨hname, hid, ?_⟩, hsize⟩
        obtain ⟨-, h2, h3, h4⟩ := lengths_of_size hsize
        obtain ⟨res, hres, hiff⟩ := h.checkSpamUser_iff fuel msg pubKey hu h2 h3 h4
        rw [hres, Option.some.injEq] at hs
        obtain ⟨-, old, x, pubkey, rest, rec', hnew, hpub, hr, hkeys⟩ := hiff.mp hs
        cases hrec.symm.trans hr
        exact ⟨old, x, pubkey, rest, hnew, hpub, hkeys.symm.trans hrecID⟩
      · rintro ⟨⟨hname, -, old, x, pubkey, rest, hnew, hpub, hkeys⟩, hsize⟩
        obtain ⟨-, h2, h3, h4⟩ := lengths_of_size hsize
        obtain ⟨res, hres, hiff⟩ := h.checkSpamUser_iff fuel msg pubKey hu h2 h3 h4
        refine ⟨⟨hname, hsize⟩, ?_⟩
        rw [hres, hiff.mpr ⟨hne, old, x, pubkey, rest, pubkeyRec, hnew, hpub, hrec,
          hrecID.trans hkeys.symm⟩]

end Signature

end FreechCore
