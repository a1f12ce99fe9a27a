import FreechCore.Core.Utf8
import FreechCore.Core.Work

/-!
The checks of transactions and blocks that need no context. A failed check records how
strongly the sender is to be held responsible and what was logged on the way out.
-/

namespace FreechCore

variable {u : Unit}

/-- Why a check failed: a rule of the network was broken, or the program itself could not
go on. -/
inductive Failure
  | invalid (nDoS : ℕ) (log : List String)
  | error (log : List String)
  deriving DecidableEq, Repr

namespace Failure

def isInvalid : Failure → Bool
  | invalid _ _ => true
  | error _ => false

/-- A caller's own report on top of a failure. -/
def report (level : ℕ) (msg : String) : Failure → Failure
  | invalid nDoS log => invalid (nDoS + level) (log ++ [msg])
  | error log => error (log ++ [msg])

end Failure

abbrev Check := Except Failure Unit

/-- Go on if a condition holds, else fail. -/
def ensure (c : Prop) [Decidable c] (level : ℕ) (msg : String) : Check :=
  if c then .ok () else .error (.invalid level [msg])

def Check.reporting (chk : Check) (level : ℕ) (msg : String) : Check :=
  match chk with
  | .ok () => .ok ()
  | .error f => .error (f.report level msg)

@[simp] lemma ensure_eq_ok {c : Prop} [Decidable c] {level : ℕ} {msg : String} :
    ensure c level msg = .ok u ↔ c := by
  unfold ensure; split <;> simp [*]

@[simp] lemma reporting_eq_ok {chk : Check} {level : ℕ} {msg : String} :
    chk.reporting level msg = .ok u ↔ chk = .ok () := by
  cases chk <;> simp [Check.reporting]

@[simp] lemma check_bind_eq_ok {chk : Check} {k : Unit → Check} :
    (chk >>= k) = .ok u ↔ chk = .ok () ∧ k () = .ok u := by
  cases chk with
  | _ => simp [bind, Except.bind]

/-! ### User names and transactions -/

def maxUsernameSize : ℕ := 16
def maxSpamMsgSize : ℤ := 140
def maxTxSize : ℕ := 512

def isLower (c : UInt8) : Bool := 97 ≤ c.toNat ∧ c.toNat ≤ 122
def isAlpha (c : UInt8) : Bool := isLower c ∨ (65 ≤ c.toNat ∧ c.toNat ≤ 90)
def isDigit (c : UInt8) : Bool := 48 ≤ c.toNat ∧ c.toNat ≤ 57
def isSpace (c : UInt8) : Bool := c.toNat = 32 ∨ (9 ≤ c.toNat ∧ c.toNat ≤ 13)

def checkUsernameChar (c : UInt8) : Check :=
  if isAlpha c then ensure (isLower c) 10 "CheckUsername() : username must be lowercase"
  else if isDigit c then .ok ()
  else if isSpace c then
    .error (.invalid 10 ["CheckUsername() : username spaces not allowed"])
  else ensure (c.toNat = 95) 10 "CheckUsername() : invalid username character"

/-- Run a check over a list, up to the first that fails. -/
def checkAll {α : Type*} (chk : α → Check) : List α → Check
  | [] => .ok ()
  | a :: l => do chk a; checkAll chk l

lemma checkAll_eq_ok {α : Type*} {chk : α → Check} {l : List α} :
    checkAll chk l = .ok u ↔ ∀ a ∈ l, chk a = .ok () := by
  induction l with
  | nil => simp [checkAll]
  | cons a l ih => simp [checkAll, ih]

def checkUsername (userName : Bytes) : Check := do
  ensure (userName ≠ [] ∧ userName.length ≤ 16) 10
    "CheckUsername() : username size out of limits"
  checkAll checkUsernameChar userName

def checkSpamMessage (tx : CTransaction) : Check := do
  let spamMsg := CScript.extractPushDataString tx.message 0
  ensure (spamMsg ≠ []) 100 "CheckTransaction() : invalid or empty spam message"
  let spamMsgUtf8Size := Utf8.numCharacters spamMsg
  ensure (0 ≤ spamMsgUtf8Size) 100 "CheckTransaction() : spam message invalid utf8"
  ensure (spamMsgUtf8Size ≤ maxSpamMsgSize) 100 "CheckTransaction() : spam message too big"
  let spamUser := CScript.extractPushDataString tx.userName 0
  ensure (spamUser ≠ [] ∧ spamUser.length ≤ maxUsernameSize) 100
    "CheckTransaction() : spam user size invalid"

def checkRegistration (env : Env) (tx : CTransaction) : Check := do
  ensure (tx.userName ≠ []) 10 "CheckTransaction() : username empty"
  ensure (tx.pubKey ≠ []) 10 "CheckTransaction() : pubKey empty"
  ensure (CScript.isSmallString tx.userName) 10 "CheckTransaction() : username not smallstring"
  ensure (tx.getUsernameHash env ≠ 0) 10 "CheckTransaction() : username hash error"
  (checkUsername (CScript.extractSmallString tx.userName)).reporting 10
    "CheckTransaction() : username check failed"

def checkTransaction (env : Env) (tx : CTransaction) : Check := do
  if tx.isSpamMessage then checkSpamMessage tx else checkRegistration env tx
  ensure (tx.serializeSize ≤ maxTxSize) 100
    "CTransaction::CheckTransaction() : size limits failed"
  -- a promoted message carries the extra nonce of its block and no work of its own
  ensure (tx.isSpamMessage ∨ checkProofOfWork env (env.hashTx tx) env.txBits) 50
    "CheckTransaction() : proof of work failed"

/-! ### Blocks -/

def maxBlockSize : ℕ := 50000

/-- The checks of a block that need no context; `now` is the adjusted time. -/
def checkBlock (env : Env) (now : ℤ) (fCheckPOW fCheckMerkleRoot : Bool) (b : CBlock) :
    Check := do
  ensure (b.vtx ≠ [] ∧ b.vtx.length ≤ maxBlockSize ∧ b.serializeSize ≤ maxBlockSize) 100
    "CheckBlock() : size limits failed"
  ensure (fCheckPOW = true → checkProofOfWork env (getPoWHash env b) b.nBits = true) 50
    "CheckBlock() : proof of work failed"
  ensure ((b.nTime : ℤ) ≤ now + 2 * 60 * 60) 0
    "CheckBlock() : block timestamp too far in the future"
  ensure (∃ tx ∈ b.vtx.head?, tx.isSpamMessage = true) 100
    "CheckBlock() : first tx is not coinbase"
  ensure (∀ tx ∈ b.registrations, tx.isSpamMessage = false) 100
    "CheckBlock() : more than one coinbase"
  (checkAll (checkTransaction env) b.vtx).reporting 0 "CheckBlock() : CheckTransaction failed"
  ensure (b.vtx.map env.hashTx).Nodup 100 "CheckBlock() : duplicate transaction"
  ensure (b.registrations.map (CTransaction.getUsernameHash env)).Nodup 100
    "CheckBlock() : duplicate username"
  ensure (fCheckMerkleRoot = true → b.hashMerkleRoot = buildMerkleTree env b) 100
    "CheckBlock() : hashMerkleRoot mismatch"

end FreechCore
