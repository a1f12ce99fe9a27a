import FreechCore.Mining.Message

/-!
Whether a block that was put together can be mined. The registrations from the memory pool are
always in order; it is the promoted message that may spoil the block. Its transaction may be
too large, at once or with the extra nonce, and its signature may be made with a key that is
not the one on the chain.
-/

namespace FreechCore

open List Option

/-! ### The work that the next block needs -/

section

variable {env : Env} {n : Node} {A : List ℕ} {tip fuel : ℕ} {b : CBlock} {tx₀ : CTransaction}
  {s : Selection}

lemma Ledger.Chain.exists_ancestor (hA : n.ledger.Chain A) {k : ℕ} (ht : A.head? = some tip)
    (hk : k < A.length) : ∃ h p, n.ancestor k tip = some h ∧ n.index h = some p := by
  induction k generalizing A tip with
  | zero =>
    obtain ⟨p, hp⟩ := hA.index_eq (mem_of_mem_head? ht)
    exact ⟨tip, p, rfl, hp⟩
  | succ k ih =>
    cases hA with
    | root hp hq => simp at hk
    | @cons x q l p hp hq hl =>
      rw [List.head?_cons, some.injEq] at ht
      subst ht
      obtain ⟨h, p', ha, hp'⟩ := ih hl rfl (by simpa using hk)
      refine ⟨h, p', ?_, hp'⟩
      have hprev : n.pprev x = some q := by
        replace hp : n.index x = some p := hp
        rw [Node.pprev, hp, bind_some, hq]
      rw [Node.ancestor, hprev, bind_some, ha]

lemma Node.AtTip.nextWork (h : n.AtTip env A) {p : CBlockIndex} (ht : A.head? = some tip)
    (hp : n.index tip = some p) (nTime : ℕ) :
    ∃ nBits, getNextWorkRequired env n tip p nTime = some nBits := by
  unfold getNextWorkRequired
  split_ifs with h1 h2 h3
  · exact ⟨_, rfl⟩
  · exact ⟨_, rfl⟩
  · exact ⟨_, rfl⟩
  · obtain ⟨l, rfl⟩ := List.head?_eq_some_iff.mp ht
    have hheight : p.nHeight = l.length := by
      have := h.chain.height h.tree
      rwa [Ledger.heightOf_eq hp] at this
    obtain ⟨x, q, hx, hq⟩ := h.chain.exists_ancestor ht (k := nInterval - 1)
      (by rw [length_cons]; unfold nInterval at *; omega)
    exact ⟨_, by rw [hx, bind_some, hq]; rfl⟩

/-! ### The checks of the block -/

/-- What is assumed of the hash functions and of the signatures: the genesis block has a hash of
its own, a promoted message is not hashed to what a registration is, no Merkle root is zero, and
the wallet and the network hash a message in the same way. -/
structure MinerEnv (env : Env) (S : SignEnv) : Prop where
  genesis : ∀ header : CBlockHeader, header.nHeight ≠ 0 →
    env.hashHeader header ≠ hashGenesisBlock env
  kinds : ∀ tx tx' : CTransaction, tx.isSpamMessage = true → tx'.isSpamMessage = false →
    env.hashTx tx ≠ env.hashTx tx'
  root : ∀ b : CBlock, b.vtx ≠ [] → buildMerkleTree env b ≠ 0
  message : S.hashMessage = env.hashMessage
  compact : S.Compact

section Check

variable {S : SignEnv} {arg : ℕ} {now : ℤ}
variable {pow root : Bool}

lemma Selected.serializeSize_le {l : List CTransaction} (hs : Selected env n (blockMaxSize arg) l s)
    (hb : b.vtx = tx₀ :: s.vtx) (h₀ : tx₀.serializeSize ≤ maxTxSize) :
    b.vtx.length ≤ maxBlockSize ∧ b.serializeSize ≤ maxBlockSize := by
  have hsmall := hs.small
  rw [hs.size] at hsmall
  have hmax : blockMaxSize arg ≤ 49000 := by
    unfold blockMaxSize maxBlockSize
    omega
  have hlen : s.vtx.length ≤ (s.vtx.map CTransaction.serializeSize).sum := by
    have h := length_le_sum_of_one_le (s.vtx.map CTransaction.serializeSize) (by
      intro i hi
      obtain ⟨tx, -, rfl⟩ := mem_map.mp hi
      exact tx.serializeSize_pos)
    rwa [length_map] at h
  have hcompact : ∀ k, getSizeOfCompactSize k ≤ 9 := by
    intro k
    unfold getSizeOfCompactSize
    split_ifs <;> omega
  have := hcompact b.vtx.length
  unfold maxTxSize at h₀
  simp only [CBlock.serializeSize, CBlock.headerSize, hb, length_cons, map_cons,
    sum_cons, maxBlockSize] at *
  omega

lemma Selected.checkBlock_iff (henv : MinerEnv env S) (hm : PoolFilled env n.mapTx)
    (hs : Selected env n (blockMaxSize arg) (n.mapTx.entries.map Prod.snd) s)
    (hb : b.vtx = tx₀ :: s.vtx) (hspam : tx₀.isSpamMessage = true) :
    checkBlock env now pow root b = .ok () ↔
      (pow = true → checkProofOfWork env (getPoWHash env b) b.nBits = true) ∧
      (b.nTime : ℤ) ≤ now + 2 * 60 * 60 ∧ checkTransaction env tx₀ = .ok () ∧
      (root = true → b.hashMerkleRoot = buildMerkleTree env b) := by
  have hreg : b.registrations = s.vtx := by rw [CBlock.registrations, hb, tail_cons]
  have hpool : ∀ tx ∈ s.vtx, checkTransaction env tx = .ok () := by
    intro tx htx
    obtain ⟨e, he, rfl⟩ := mem_map.mp (hs.sub.subset htx)
    exact (hm.entry (StdMap.mem_entries_iff.mp he)).2.1
  have hhashes : (b.vtx.map env.hashTx).Nodup := by
    rw [hb, map_cons, nodup_cons]
    refine ⟨fun hmem => ?_, (hs.sub.map _).nodup hm.hashes⟩
    obtain ⟨tx, htx, heq⟩ := mem_map.mp hmem
    exact henv.kinds tx₀ tx hspam (hs.loose tx htx) heq.symm
  have hall : (∀ tx ∈ b.vtx, checkTransaction env tx = .ok ()) ↔
      checkTransaction env tx₀ = .ok () := by
    rw [hb, forall_mem_cons]
    exact and_iff_left hpool
  simp only [checkBlock, check_bind_eq_ok, ensure_eq_ok, reporting_eq_ok, checkAll_eq_ok, hreg, hall]
  constructor
  · rintro ⟨-, hpow, htime, -, -, hcheck, -, -, hroot⟩
    exact ⟨hpow, htime, hcheck, hroot⟩
  · rintro ⟨hpow, htime, hcheck, hroot⟩
    have h₀ : tx₀.serializeSize ≤ maxTxSize := by
      simp only [checkTransaction, hspam, if_true, check_bind_eq_ok, ensure_eq_ok] at hcheck
      exact hcheck.2.1
    refine ⟨⟨?_, hs.serializeSize_le hb h₀⟩, hpow, htime, ⟨tx₀, by simp [hb], hspam⟩, hs.loose,
      hcheck, hhashes, hs.names, hroot⟩
    rw [hb]
    exact cons_ne_nil _ _

lemma Node.AtTip.checkSpamUser_returns (h : n.AtTip env A) (fuel : ℕ) (tx : CTransaction) :
    ∃ res, checkSpamUser env (fuel + 1) n A.length tx = some res := by
  simp only [checkSpamUser, h.getTransaction_next]
  split_ifs
  · exact ⟨_, rfl⟩
  · exact ⟨_, rfl⟩
  · cases n.newest env (CScript.extractPushDataString tx.userName 0) <;> exact ⟨_, rfl⟩

lemma Node.AtTip.connectBlock_iff (h : n.AtTip env A) (fuel : ℕ) (now : ℤ) (henv : MinerEnv env S)
    (htip : A.head? = some tip) (hprev : b.hashPrevBlock = tip) (hheight : b.nHeight = A.length)
    (hb : b.vtx = tx₀ :: s.vtx) (hmay : ∀ tx ∈ s.vtx, n.MayRegister env tx) (pos : CDiskBlockPos)
    (just : Bool) : ∃ m view res, connectBlock env (fuel + 1) now n n.coinsTip (getHash env b)
        (n.newBlockIndex b pos) b just = some (m, view, res) ∧
      (res = .ok () ↔ checkBlock env now (!just) (!just) b = .ok () ∧
        checkSpamUser env (fuel + 1) n A.length tx₀ = some (.ok ())) := by
  obtain ⟨p, hp⟩ := h.chain.index_eq (mem_of_mem_head? htip)
  replace hp : n.index tip = some p := hp
  have hpprev : (n.newBlockIndex b pos).pprev = n.coinsTip := by
    rw [h.coins, htip]
    simp [Node.newBlockIndex, hprev, hp]
  have hgen : getHash env b ≠ hashGenesisBlock env := by
    refine henv.genesis _ ?_
    have := length_pos_of_mem (mem_of_mem_head? htip)
    omega
  have hreg : b.registrations = s.vtx := by rw [CBlock.registrations, hb, tail_cons]
  unfold connectBlock
  cases hcheck : checkBlock env now (!just) (!just) b with
  | error f => exact ⟨_, _, _, rfl, by simp⟩
  | ok _ =>
    rw [if_neg (not_not.mpr hpprev), if_neg hgen, hb, List.head?_cons, map_some, hheight]
    obtain ⟨res, hres⟩ := h.checkSpamUser_returns fuel tx₀
    rw [hres]
    cases res with
    | error f => exact ⟨_, _, _, rfl, by simp⟩
    | ok _ =>
      rw [hreg, h.checkOverwrite_ok hmay]
      cases just with
      | _ => exact ⟨_, _, _, rfl, by simp⟩

end Check

/-! ### The extra nonce -/

section Nonce

variable {prev : CBlockIndex} {e : ExtraNonce} {tx : CTransaction}
variable {l : List CTransaction}

/-- The extra nonce after `k` calls for blocks on top of the block `h`. -/
def ExtraNonce.after (e : ExtraNonce) (h k : ℕ) : ℕ :=
  toUnsigned ((if e.hashPrevBlock ≠ h then 0 else e.nExtraNonce) + k)

/-- The block of a miner after some calls of `IncrementExtraNonce`, with the nonce found. -/
def minedBlock (env : Env) (prev : CBlockIndex) (k : ℕ) (e : ExtraNonce) (nNonce : ℕ)
    (b : CBlock) : CBlock :=
  { (incrementCalls env prev k e b).2 with nNonce := nNonce }

def CBlock.withExtraNonce (b : CBlock) (env : Env) (prev : CBlockIndex) (x : ℕ) : CBlock :=
  let vtx := match b.vtx with
    | [] => []
    | tx :: l => { tx with pubKey := extraNonceScript x } :: l
  let b : CBlock := { b with nHeight := prev.nHeight + 1, vtx := vtx }
  { b with hashMerkleRoot := buildMerkleTree env b }

lemma withExtraNonce_withExtraNonce (x y : ℕ) :
    (b.withExtraNonce env prev x).withExtraNonce env prev y = b.withExtraNonce env prev y := by
  unfold CBlock.withExtraNonce
  cases b.vtx <;> rfl

lemma toUnsigned_add (x y : ℕ) : toUnsigned (toUnsigned x + y) = toUnsigned (x + y) := by
  simp only [toUnsigned, Nat.mod_add_mod]

/-- **Only the last call shows**: the calls before it are overwritten. -/
lemma incrementCalls_eq (k : ℕ) : (incrementCalls env prev (k + 1) e b).2 =
    b.withExtraNonce env prev (e.after b.hashPrevBlock (k + 1)) := by
  induction k generalizing e b with
  | zero => rfl
  | succ k ih =>
    rw [incrementCalls]
    have hstep : incrementExtraNonce env prev e b =
        (⟨b.hashPrevBlock, e.after b.hashPrevBlock 1⟩,
          b.withExtraNonce env prev (e.after b.hashPrevBlock 1)) := rfl
    have hprev : (b.withExtraNonce env prev (e.after b.hashPrevBlock 1)).hashPrevBlock =
        b.hashPrevBlock := rfl
    have hafter : (ExtraNonce.mk b.hashPrevBlock (e.after b.hashPrevBlock 1)).after
        b.hashPrevBlock (k + 1) = e.after b.hashPrevBlock (k + 1 + 1) := by
      simp only [ExtraNonce.after, ne_eq, not_true_eq_false, if_false, toUnsigned_add]
      congr 1
      omega
    rw [hstep, ih, hprev, hafter, withExtraNonce_withExtraNonce]

end Nonce

/-! ### Mining -/

/-- An attempt to mine a block: the clock when the block is put together and when it is checked,
the wallet, the settings, the argument `-blockmaxsize`, the salt, the number of calls of
`IncrementExtraNonce` with the counter before them, and the nonce. -/
structure Attempt where
  fuel : ℕ
  now : ℤ
  later : ℤ
  wallet : CWallet
  settings : SpamSettings
  arg : ℕ
  salt : Bytes
  calls : ℕ
  extraNonce : ExtraNonce
  nNonce : ℕ

/-- A block passes `CheckBlock` and `ConnectBlock` on top of the tip. -/
def Node.Takes (n : Node) (env : Env) (fuel : ℕ) (now : ℤ) (b : CBlock) : Prop :=
  checkBlock env now true true b = .ok () ∧ ∀ pos, ∃ m view,
    connectBlock env fuel now n n.coinsTip (getHash env b) (n.newBlockIndex b pos) b false =
      some (m, view, .ok ())

namespace Attempt

def create (a : Attempt) (env : Env) (S : SignEnv) (n : Node) : Option (Node × NewBlock) :=
  createNewBlock env S a.fuel a.now n a.wallet a.settings a.arg a.salt

def mined (a : Attempt) (env : Env) (prev : CBlockIndex) (b : CBlock) : CBlock :=
  minedBlock env prev a.calls a.extraNonce a.nNonce b

/-- The nonce is a proof of work. -/
def Works (a : Attempt) (env : Env) (S : SignEnv) (n : Node) : Prop :=
  ∀ m b prev, a.create env S n = some (m, .template b) → n.pindexBest.bind n.index = some prev →
    checkProofOfWork env (getPoWHash env (a.mined env prev b)) b.nBits = true

/-- `CreateNewBlock` does not throw, and the block it returns is mined into a valid one. -/
def Valid (a : Attempt) (env : Env) (S : SignEnv) (n : Node) : Prop :=
  ∃ m r, a.create env S n = some (m, r) ∧ (∀ what, r ≠ .threw what) ∧
    ∀ b prev, r = .template b → n.pindexBest.bind n.index = some prev →
      n.Takes env a.fuel a.later (a.mined env prev b)

def key (a : Attempt) (env : Env) (n : Node) : Option ℕ :=
  n.spamKey env a.wallet a.settings.strSpamUser

/-- The wallet has a key for the user but cannot sign with it, so that no block is returned. -/
def Unsigned (a : Attempt) (env : Env) (S : SignEnv) (n : Node) : Prop :=
  spamSignature S a.wallet (a.key env n) (CScript.pushData a.settings.message) = none

/-- The promoted message leads to a valid block on top of the block `tip`: the extra nonce is
set, the chain is not ahead of the clock, the key of the wallet is the one on the chain, and the
message is short enough, also with the extra nonce. -/
structure Minable (a : Attempt) (env : Env) (n : Node) (tip : ℕ) : Prop where
  calls : a.calls ≠ 0
  now : (updateTime n tip a.now : ℤ) ≤ a.now + 2 * 60 * 60
  later : (updateTime n tip a.now : ℤ) ≤ a.later + 2 * 60 * 60
  signer : ∀ id, a.key env n = some id → n.SignsFor env a.settings.strSpamUser id
  size : spamTxSize a.settings.message.length (a.settings.signer (a.key env n)).length
    (signatureSize (a.key env n)) a.salt.length
    (extraNonceScript (a.extraNonce.after tip a.calls)).length ≤ maxTxSize

end Attempt

section Mine

variable {S : SignEnv} {a : Attempt}

lemma spamTxSize_nil_le {nMsg nUser nSig nSalt nKey : ℕ} :
    spamTxSize nMsg nUser nSig nSalt 0 ≤ spamTxSize nMsg nUser nSig nSalt nKey := by
  have h0 : sizeWithLength 0 = 1 := rfl
  have h1 : 1 ≤ sizeWithLength nKey := by
    unfold sizeWithLength getSizeOfCompactSize
    split_ifs <;> omega
  unfold spamTxSize
  omega

lemma Node.AtTip.takes_iff (h : n.AtTip env A) (henv : MinerEnv env S) {now : ℤ}
    (htip : A.head? = some tip) (hprev : b.hashPrevBlock = tip) (hheight : b.nHeight = A.length)
    (hb : b.vtx = tx₀ :: s.vtx) (hmay : ∀ tx ∈ s.vtx, n.MayRegister env tx) :
    n.Takes env (fuel + 1) now b ↔ checkBlock env now true true b = .ok () ∧
      checkSpamUser env (fuel + 1) n A.length tx₀ = some (.ok ()) := by
  constructor
  · rintro ⟨hcheck, hconn⟩
    obtain ⟨m, view, hm⟩ := hconn ⟨0, 0⟩
    obtain ⟨m', view', res, hres, hiff⟩ := h.connectBlock_iff fuel now henv htip
      hprev hheight hb hmay ⟨0, 0⟩ false
    rw [hm, some.injEq, Prod.mk.injEq, Prod.mk.injEq] at hres
    exact hiff.mp hres.2.2.symm
  · rintro ⟨hcheck, hspam⟩
    refine ⟨hcheck, fun pos => ?_⟩
    obtain ⟨m, view, res, hres, hiff⟩ := h.connectBlock_iff fuel now henv htip
      hprev hheight hb hmay pos false
    exact ⟨m, view, by rw [hres, hiff.mpr ⟨hcheck, hspam⟩]⟩

def blockOnTop (tip : ℕ) (prev : CBlockIndex) (nTime nBits : ℕ) (vtx : List CTransaction) :
    CBlock where
  nVersion := currentBlockVersion
  nHeight := prev.nHeight + 1
  hashPrevBlock := tip
  hashMerkleRoot := 0
  nTime := nTime
  nBits := nBits
  nNonce := 0
  vtx := vtx

section

variable (h : n.AtTip env A) (henv : MinerEnv env S) (hm : PoolFilled env n.mapTx)
  (htip : n.pindexBest = some tip) {prev : CBlockIndex}

include h henv hm htip

/-- **What `CreateNewBlock` does** once the message is signed: it throws unless the chain is not
ahead of the clock and the message passes the checks. -/
lemma Node.AtTip.createNewBlock_cases (hprev : n.index tip = some prev)
    (hheight : (prev.nHeight : ℤ) + 1 = A.length) (now : ℤ) {wallet : CWallet} {st : SpamSettings}
    (arg : ℕ) {salt : Bytes} (hspam : tx₀.isSpamMessage = true)
    (htx : createSpamMsgTx env S (fuel + 1) n wallet st salt = some (some tx₀)) :
    ∃ s nBits m r, Selected env n (blockMaxSize arg) (n.mapTx.entries.map Prod.snd) s ∧
      createNewBlock env S (fuel + 1) now n wallet st arg salt = some (m, r) ∧
      ((r = .template (blockOnTop tip prev (updateTime n tip now) nBits (tx₀ :: s.vtx)) ∧
          (updateTime n tip now : ℤ) ≤ now + 2 * 60 * 60 ∧ checkTransaction env tx₀ = .ok () ∧
          checkSpamUser env (fuel + 1) n A.length tx₀ = some (.ok ())) ∨
        (r = .threw "CreateNewBlock() : ConnectBlock failed" ∧
          ¬((updateTime n tip now : ℤ) ≤ now + 2 * 60 * 60 ∧ checkTransaction env tx₀ = .ok () ∧
            checkSpamUser env (fuel + 1) n A.length tx₀ = some (.ok ())))) := by
  have hhead : A.head? = some tip := h.tip.symm.trans htip
  obtain ⟨s, hrun, hs⟩ : ∃ s, selectAll env (fuel + 1) n (blockMaxSize arg) .start
      (n.mapTx.entries.map Prod.snd) = some s ∧
      Selected env n (blockMaxSize arg) ([] ++ n.mapTx.entries.map Prod.snd) s :=
    (selected_start (le_max_left 1000 _)).run h
  obtain ⟨nBits, hbits⟩ := h.nextWork hhead hprev (updateTime n tip now)
  have hb : (blockOnTop tip prev (updateTime n tip now) nBits (tx₀ :: s.vtx)).vtx = tx₀ :: s.vtx := rfl
  obtain ⟨m, view, res, hres, hiff⟩ := h.connectBlock_iff fuel now henv hhead
    (b := blockOnTop tip prev (updateTime n tip now) nBits (tx₀ :: s.vtx)) rfl hheight hb hs.may
    ⟨0, 0⟩ true
  rw [Bool.not_true, hs.checkBlock_iff henv hm hb hspam] at hiff
  have hcreate : createNewBlock env S (fuel + 1) now n wallet st arg salt =
      match res with
      | .error _ => some (m, .threw "CreateNewBlock() : ConnectBlock failed")
      | .ok () => some (m, .template
          (blockOnTop tip prev (updateTime n tip now) nBits (tx₀ :: s.vtx))) := by
    unfold createNewBlock
    rw [htx]
    simp only [hrun, htip, hprev, hbits, bind_eq_bind, bind_some]
    unfold blockOnTop at hres
    rw [hres]
    cases res <;> rfl
  cases res with
  | error f =>
    refine ⟨s, nBits, m, _, hs, hcreate, Or.inr ⟨rfl, fun hall => ?_⟩⟩
    have := hiff.mpr ⟨⟨by simp, hall.1, hall.2.1, by simp⟩, hall.2.2⟩
    cases this
  | ok _ =>
    obtain ⟨⟨-, htime, hcheck, -⟩, huser⟩ := hiff.mp rfl
    exact ⟨s, nBits, m, _, hs, hcreate, Or.inl ⟨rfl, htime, hcheck, huser⟩⟩

lemma Node.AtTip.takes_mined_iff (hheight : (prev.nHeight : ℤ) + 1 = A.length) {arg nTime nBits : ℕ}
    (ha : a.fuel = fuel + 1)
    (hs : Selected env n (blockMaxSize arg) (n.mapTx.entries.map Prod.snd) s)
    {msg user sig salt : Bytes} (hpow : checkProofOfWork env (getPoWHash env (a.mined env prev
      (blockOnTop tip prev nTime nBits (spamTx msg user sig salt [] :: s.vtx)))) nBits = true) :
    n.Takes env a.fuel a.later (a.mined env prev
        (blockOnTop tip prev nTime nBits (spamTx msg user sig salt [] :: s.vtx))) ↔
      a.calls ≠ 0 ∧ (nTime : ℤ) ≤ a.later + 2 * 60 * 60 ∧
        checkTransaction env (spamTx msg user sig salt
          (extraNonceScript (a.extraNonce.after tip a.calls))) = .ok () ∧
        checkSpamUser env (fuel + 1) n A.length (spamTx msg user sig salt
          (extraNonceScript (a.extraNonce.after tip a.calls))) = some (.ok ()) := by
  have hhead : A.head? = some tip := h.tip.symm.trans htip
  rw [ha]
  unfold Attempt.mined minedBlock at hpow ⊢
  cases hk : a.calls with
  | zero =>
    -- the Merkle root is still zero
    have hroot : (0 : ℕ) ≠ buildMerkleTree env { (blockOnTop tip prev nTime nBits
        (spamTx msg user sig salt [] :: s.vtx)) with nNonce := a.nNonce } :=
      (henv.root _ (cons_ne_nil _ _)).symm
    simp only [ne_eq, not_true_eq_false, false_and, iff_false]
    rintro ⟨hcheck, -⟩
    rw [hs.checkBlock_iff henv hm rfl isSpamMessage_spamTx] at hcheck
    exact hroot (hcheck.2.2.2 rfl)
  | succ k =>
    rw [hk] at hpow
    simp only [incrementCalls_eq] at hpow ⊢
    rw [h.takes_iff henv hhead (s := s) rfl hheight rfl hs.may,
      hs.checkBlock_iff henv hm rfl isSpamMessage_spamTx]
    constructor
    · rintro ⟨⟨-, htime, hcheck, -⟩, huser⟩
      exact ⟨Nat.succ_ne_zero k, htime, hcheck, huser⟩
    · rintro ⟨-, htime, hcheck, huser⟩
      exact ⟨⟨fun _ => hpow, htime, hcheck, fun _ => rfl⟩, huser⟩

end

/-- **When mining leads to a valid block.** Whatever registrations the memory pool holds, mining
does not throw and ends with a valid block exactly if no block is returned at all, or the extra
nonce is set, the chain is not ahead of the clock, the key that signs the message is the one on
the chain, and the message is short enough. -/
theorem mining_valid_iff (h : n.AtTip env A) (hm : PoolFilled env n.mapTx)
    (hst : SettingsReached a.settings) (henv : MinerEnv env S) (hsigns : a.wallet.Signs env S)
    (hfuel : a.fuel ≠ 0) (htip : n.pindexBest = some tip) (hpow : a.Works env S n) :
    a.Valid env S n ↔ a.Unsigned env S n ∨ a.Minable env n tip := by
  obtain ⟨fuel, ha⟩ := Nat.exists_eq_succ_of_ne_zero hfuel
  obtain ⟨prev, hprev⟩ := h.chain.index_eq (mem_of_mem_head? (h.tip.symm.trans htip))
  replace hprev : n.index tip = some prev := hprev
  have hbest : n.pindexBest.bind n.index = some prev := by rw [htip, bind_some, hprev]
  have hheight : (prev.nHeight : ℤ) + 1 = A.length := by
    obtain ⟨l, rfl⟩ := List.head?_eq_some_iff.mp (h.tip.symm.trans htip)
    have := h.chain.height h.tree
    rw [Ledger.heightOf_eq hprev] at this
    rw [this, length_cons]
    rfl
  have htx : createSpamMsgTx env S (fuel + 1) n a.wallet a.settings a.salt =
      some ((spamSignature S a.wallet (a.key env n) (CScript.pushData a.settings.message)).map
        fun sig => spamTx a.settings.message (a.settings.signer (a.key env n)) sig a.salt []) :=
    h.createSpamMsgTx_eq
  cases hsig : spamSignature S a.wallet (a.key env n) (CScript.pushData a.settings.message) with
  | none =>
    refine iff_of_true ⟨n, .null, ?_, by simp, by simp⟩ (Or.inl hsig)
    rw [hsig, map_none] at htx
    unfold Attempt.create createNewBlock
    rw [ha, htx]
  | some sig =>
    rw [hsig, map_some] at htx
    obtain ⟨s, nBits, m, r, hs, hcreate, hcases⟩ := h.createNewBlock_cases henv hm htip hprev
      hheight a.now a.arg isSpamMessage_spamTx htx
    have hc : a.create env S n = some (m, r) := by rw [← hcreate, Attempt.create, ha]
    -- the checks, without an extra nonce and with one
    have hchecks : ∀ pubKey, (checkTransaction env (spamTx a.settings.message
          (a.settings.signer (a.key env n)) sig a.salt pubKey) = .ok () ∧
        checkSpamUser env (fuel + 1) n A.length (spamTx a.settings.message
          (a.settings.signer (a.key env n)) sig a.salt pubKey) = some (.ok ())) ↔
        (∀ id, a.key env n = some id → n.SignsFor env a.settings.strSpamUser id) ∧
          spamTxSize a.settings.message.length (a.settings.signer (a.key env n)).length
            (signatureSize (a.key env n)) a.salt.length pubKey.length ≤ maxTxSize :=
      fun pubKey => h.checks_spamTx_iff henv.message hsigns henv.compact rfl hst.message hsig
    have hsigned : ¬a.Unsigned env S n := by
      rw [Attempt.Unsigned, hsig]
      exact some_ne_none sig
    rw [or_iff_right hsigned]
    rcases hcases with ⟨rfl, htime, hcheck⟩ | ⟨rfl, hbad⟩
    · have htakes := h.takes_mined_iff henv hm htip hheight ha hs (hpow m _ prev hc hbest)
      rw [hchecks] at htakes
      constructor
      · rintro ⟨m', r', hc', -, hv⟩
        rw [hc, some.injEq, Prod.mk.injEq] at hc'
        obtain ⟨hcalls, hlater, hsigner, hsize⟩ := htakes.mp (hv _ prev hc'.2.symm hbest)
        exact ⟨hcalls, htime, hlater, hsigner, hsize⟩
      · rintro ⟨hcalls, -, hlater, hsigner, hsize⟩
        refine ⟨m, _, hc, by simp, fun b prev' hb hprev' => ?_⟩
        rw [hbest, some.injEq] at hprev'
        cases hb
        exact hprev' ▸ htakes.mpr ⟨hcalls, hlater, hsigner, hsize⟩
    · -- what passes with the extra nonce passes without it
      refine iff_of_false ?_ ?_
      · rintro ⟨m', r', hc', hthrew, -⟩
        rw [hc, some.injEq, Prod.mk.injEq] at hc'
        exact hthrew _ hc'.2.symm
      · rintro ⟨-, hnow, -, hsigner, hsize⟩
        exact hbad ⟨hnow, (hchecks []).mpr ⟨hsigner, spamTxSize_nil_le.trans hsize⟩⟩

end Mine

end

namespace Toy

/-- The small instance with hashes that are not zero, on the test network. -/
def minerEnv : Env :=
  { env with
    hashHeader := fun header => if header.nHeight = 0 then 1 else header.nNonce + 2
    hashTx := fun tx => codeTx tx + 1
    hashPair := fun a b => Nat.pair a b + 1
    testNet := true }

/-- A wallet without keys has nothing to sign with. -/
def noSign : SignEnv := ⟨code, fun _ _ => none, fun _ => [], fun _ _ => none⟩

def noKeys : CWallet := ⟨.empty, .empty, false, true⟩

lemma zero_notMem_merkleLevel (l : List ℕ) : 0 ∉ merkleLevel minerEnv l := by
  have hpair : ∀ a b, 0 ≠ minerEnv.hashPair a b := fun a b => (Nat.succ_ne_zero _).symm
  induction l using merkleLevel.induct with
  | case1 => simp [merkleLevel]
  | case2 a => simp [merkleLevel, hpair]
  | case3 a b l ih => simp [merkleLevel, hpair, ih]

lemma merkleRoot_ne_zero {fuel : ℕ} {l : List ℕ} (hl : l ≠ []) (h0 : 0 ∉ l) :
    merkleRoot minerEnv fuel l ≠ 0 := by
  induction fuel generalizing l with
  | zero =>
    match l, hl with
    | [a], _ => simpa [merkleRoot, eq_comm] using h0
    | a :: b :: l, _ => exact fun h => h0 (h ▸ mem_cons_self)
  | succ fuel ih =>
    match l, hl with
    | [a], _ => simpa [merkleRoot, eq_comm] using h0
    | a :: b :: l, _ => exact ih (cons_ne_nil _ _) (zero_notMem_merkleLevel _)

lemma minerEnv_ok : MinerEnv minerEnv noSign where
  genesis := by
    intro header hh
    have hgen : hashGenesisBlock minerEnv = 1 := rfl
    have hne : minerEnv.hashHeader header = header.nNonce + 2 := if_neg hh
    omega
  kinds := by
    intro tx tx' h h' heq
    obtain rfl : tx = tx' := codeTx_injective (Nat.succ_injective heq)
    rw [h] at h'
    cases h'
  root := by
    intro b hb
    refine merkleRoot_ne_zero (by simpa using hb) ?_
    simp [minerEnv]
  message := rfl
  compact := by
    intro key hash sig h
    cases h

def withPool : Option Node :=
  (startedIn minerEnv).bind fun n =>
    (mempoolAccept minerEnv 5 n (register alice key1)).map Prod.fst

lemma atTip_withPool {n : Node} (h : withPool = some n) :
    n.AtTip minerEnv [1] ∧ PoolFilled minerEnv n.mapTx := by
  obtain ⟨n₀, h₀, hn⟩ := bind_eq_some_iff.mp h
  obtain ⟨⟨n', ok⟩, hacc, rfl⟩ := map_eq_some_iff.mp hn
  have hA : n₀.AtTip minerEnv [1] := (startedIn_of_eq h₀).fresh.settled.atTip
  have hpool : n₀.mapTx = .empty := by
    have he : (startedIn minerEnv).map (fun n => n.mapTx.entries) = some [] := by decide +kernel
    rw [h₀, map_some, some.injEq] at he
    cases hm : n₀.mapTx with
    | mk entries sorted =>
      rw [hm] at he
      cases he
      rfl
  refine ⟨?_, .accept (hpool ▸ .empty) hacc⟩
  rcases mempoolAccept_cases hacc with rfl | ⟨-, -, rfl⟩
  · exact hA
  · exact hA.withPool _

def attempt (msg : Bytes) : Attempt where
  fuel := 5
  now := 1000
  later := 1000
  wallet := noKeys
  settings := (setspammsg .default nobody msg .replace).1
  arg := 25000
  salt := []
  calls := 3
  extraNonce := ⟨0, 0⟩
  nNonce := 7

lemma settings_attempt (msg : Bytes) : SettingsReached (attempt msg).settings := .set _ _ _ .start

end Toy

open Toy in
/-- A block with a registration and with a short message that nobody signs. -/
theorem mining_valid_short : ∃ n, withPool = some n ∧ n.mapTx.keys.length = 1 ∧
    (attempt (ascii "Hello")).Valid minerEnv noSign n := by
  have h : withPool.map (fun n => (n.mapTx.keys.length, n.pindexBest,
      (updateTime n 1 1000, (attempt (ascii "Hello")).key minerEnv n))) =
        some (1, some 1, (1000, none)) := by
    decide +kernel
  have hwork : withPool.map (fun n => ((attempt (ascii "Hello")).create minerEnv noSign n).map
      fun r => match r.2 with
        | .template b => checkProofOfWork minerEnv 0 b.nBits
        | _ => false) = some (some true) := by
    decide +kernel
  obtain ⟨n, hn, he⟩ := map_eq_some_iff.mp h
  simp only [Prod.mk.injEq] at he
  obtain ⟨hlen, htip, htime, hkey⟩ := he
  obtain ⟨hA, hpool⟩ := atTip_withPool hn
  rw [hn, map_some, some.injEq] at hwork
  refine ⟨n, hn, hlen, (mining_valid_iff hA hpool (settings_attempt _) minerEnv_ok ?_ (by decide)
    htip ?_).mpr (Or.inr ⟨by decide, ?_, ?_, ?_, ?_⟩)⟩
  · intro id key hk
    cases hk
  · intro m b prev hb _
    rw [hb] at hwork
    exact some.inj hwork
  · exact htime ▸ (by decide : ((1000 : ℕ) : ℤ) ≤ 1000 + 2 * 60 * 60)
  · exact htime ▸ (by decide : ((1000 : ℕ) : ℤ) ≤ 1000 + 2 * 60 * 60)
  · rw [hkey]
    exact fun id h => absurd h (by simp)
  · rw [hkey]
    decide +kernel

open Toy in
/-- A message of 140 characters of four bytes each is accepted by `setspammsg`, and then no block
can be put together. -/
theorem not_mining_valid_wide : ∃ n msg, withPool = some n ∧ PoolFilled minerEnv n.mapTx ∧
    (setspammsg .default nobody msg .replace).2 = .ok [msg] ∧
    ((attempt msg).create minerEnv noSign n).map Prod.snd =
      some (.threw "CreateNewBlock() : ConnectBlock failed") ∧
    ¬(attempt msg).Valid minerEnv noSign n := by
  let wide : Bytes := (List.replicate 140 [0xf0, 0x9f, 0x98, 0x80]).flatten
  have hset : (setspammsg .default nobody wide .replace).2 = .ok [wide] := by decide +kernel
  have h : withPool.map (fun n => ((attempt wide).create minerEnv noSign n).map Prod.snd) =
      some (some (.threw "CreateNewBlock() : ConnectBlock failed")) := by
    decide +kernel
  obtain ⟨n, hn, hc⟩ := map_eq_some_iff.mp h
  refine ⟨n, wide, hn, (atTip_withPool hn).2, hset, hc, ?_⟩
  rintro ⟨m, r, hr, hthrew, -⟩
  rw [hr, map_some, some.injEq] at hc
  exact hthrew _ hc

end FreechCore
