import FreechCore.Registry.Lookups
import FreechCore.Registry.PostNumber

/-!
What posts and the distributed hash table ask of the chain: signatures are checked with the
key a user had registered at a height, and the number of a post is checked against the
limit of its user. The answers are a `ChainView`, a total function of the question; a node
whose lookups all return has one.
-/

namespace FreechCore

/-! ### Signatures of users -/

/-- The length of a public key with the given first byte. -/
def pubKeyLen (chHeader : UInt8) : ℕ :=
  if chHeader = 2 ∨ chHeader = 3 then 33
  else if chHeader = 4 ∨ chHeader = 6 ∨ chHeader = 7 then 65
  else 0

def isValidPubKey : Bytes → Bool
  | [] => false
  | c :: l => pubKeyLen c ≠ 0 ∧ pubKeyLen c = (c :: l).length

/-- The key of a registration. -/
def CTransaction.userPubKey (txOut : CTransaction) : Option Bytes :=
  match CScript.extractPushData txOut.pubKey with
  | some (pubkey :: _) => if isValidPubKey pubkey then some pubkey else none
  | _ => none

/-- The key of a user at a height; the outer `none` means that the lookup does not return. -/
def getUserPubKey (env : Env) (fuel : ℕ) (n : Node) (strUsername : Bytes) (maxHeight : ℤ) :
    Option (Option Bytes) :=
  match getTransaction env fuel n strUsername maxHeight with
  | none => none
  | some none => some none
  | some (some (txOut, _)) => some txOut.userPubKey

/-- A signature of a message was made with a key. -/
def verifiesWith (env : Env) (strMessage strSign pubkey : Bytes) : Bool :=
  match env.recoverCompact (env.hashMessage strMessage) strSign with
  | none => false
  | some pubkeyRec => env.keyID pubkeyRec = env.keyID pubkey

def verifySignature (env : Env) (fuel : ℕ) (n : Node) (strMessage strUsername strSign : Bytes)
    (maxHeight : ℤ) : Option Bool :=
  match getUserPubKey env fuel n strUsername maxHeight with
  | none => none
  | some none => some false
  | some (some pubkey) => some (verifiesWith env strMessage strSign pubkey)

/-! ### The view -/

/-- The answers of the chain. -/
structure ChainView where
  verifySignature : (strMessage strUsername strSign : Bytes) → (maxHeight : Int32) → Bool
  validatePostNumberForUser : (username : Bytes) → (k : Int32) → Bool
  getBestHeight : Int32

/-- The node gives the answers of the view. -/
structure Node.Views (n : Node) (env : Env) (V : ChainView) : Prop where
  signatures : ∀ msg u sig (h : Int32), ∃ fuel,
    FreechCore.verifySignature env fuel n msg u sig h.toInt = some (V.verifySignature msg u sig h)
  numbers : ∀ u (k : Int32), ∃ fuel,
    FreechCore.validatePostNumberForUser env fuel n u k.toInt =
      some (V.validatePostNumberForUser u k)
  height : V.getBestHeight = Int32.ofInt n.nBestHeight

/-- The key the node has for a user up to a height. -/
def Node.RegisteredKey (n : Node) (env : Env) (username : Bytes) (maxHeight : ℤ)
    (pubkey : Bytes) : Prop :=
  ∃ fuel, getUserPubKey env fuel n username maxHeight = some (some pubkey)

section Views

variable {n : Node} {env : Env} {V : ChainView} {A : List ℕ} {username pubkey : Bytes}

lemma getUserPubKey_unique {f g : ℕ} {maxHeight : ℤ} {a b : Option Bytes}
    (h : getUserPubKey env f n username maxHeight = some a)
    (h' : getUserPubKey env g n username maxHeight = some b) : a = b := by
  unfold getUserPubKey at h h'
  cases hf : getTransaction env f n username maxHeight with
  | none => simp [hf] at h
  | some r =>
    cases hg : getTransaction env g n username maxHeight with
    | none => simp [hg] at h'
    | some r' =>
      cases getTransaction_unique hf hg
      rw [hf] at h
      rw [hg] at h'
      exact Option.some.inj (h.symm.trans h')

lemma Node.Views.verifySignature_iff (h : n.Views env V) (msg u sig : Bytes) (height : Int32) :
    V.verifySignature msg u sig height = true ↔
      ∃ pubkey, n.RegisteredKey env u height.toInt pubkey ∧
        verifiesWith env msg sig pubkey = true := by
  obtain ⟨fuel, hfuel⟩ := h.signatures msg u sig height
  unfold FreechCore.verifySignature at hfuel
  cases hkey : getUserPubKey env fuel n u height.toInt with
  | none => simp [hkey] at hfuel
  | some key =>
    have hunique : ∀ pubkey, n.RegisteredKey env u height.toInt pubkey ↔ key = some pubkey := by
      intro pubkey
      constructor
      · rintro ⟨g, hg⟩
        exact getUserPubKey_unique hkey hg
      · rintro rfl
        exact ⟨fuel, hkey⟩
    rw [hkey] at hfuel
    cases key with
    | _ => simp [hunique, ← Option.some.inj hfuel]

lemma Node.LooksUp.getUserPubKey_eq (h : n.LooksUp env A) (username : Bytes) (maxHeight : ℤ) :
    ∃ fuel, getUserPubKey env fuel n username maxHeight =
      some ((n.ledger.latest username A (n.heightBound maxHeight)).bind (·.1.userPubKey)) := by
  obtain ⟨fuel, hfuel⟩ := h username maxHeight
  refine ⟨fuel, ?_⟩
  rw [getUserPubKey, hfuel fuel le_rfl]
  cases n.ledger.latest username A (n.heightBound maxHeight) <;> rfl

lemma Node.LooksUp.registeredKey_iff (h : n.LooksUp env A) {maxHeight : ℤ} :
    n.RegisteredKey env username maxHeight pubkey ↔
      ∃ tx b, n.ledger.latest username A (n.heightBound maxHeight) = some (tx, b) ∧
        tx.userPubKey = some pubkey := by
  obtain ⟨fuel, hkey⟩ := h.getUserPubKey_eq username maxHeight
  constructor
  · rintro ⟨g, hg⟩
    obtain ⟨⟨tx, b⟩, hl, hpub⟩ := Option.bind_eq_some_iff.mp (getUserPubKey_unique hkey hg)
    exact ⟨tx, b, hl, hpub⟩
  · rintro ⟨tx, b, hl, hpub⟩
    exact ⟨fuel, by rw [hkey, hl, Option.bind_some, hpub]⟩

end Views

/-- **A node all of whose lookups return answers every question about posts**, with the key of
the newest registration on the active chain up to the height. -/
theorem Node.LooksUp.exists_views {n : Node} {env : Env} {A : List ℕ} (h : n.LooksUp env A) :
    ∃ V : ChainView, n.Views env V ∧ ∀ msg u sig (height : Int32),
      V.verifySignature msg u sig height = true ↔
        ∃ tx b pubkey, n.ledger.latest u A (n.heightBound height.toInt) = some (tx, b) ∧
          tx.userPubKey = some pubkey ∧ verifiesWith env msg sig pubkey = true := by
  have hsig : ∀ msg u sig (height : ℤ), ∃ fuel v,
      FreechCore.verifySignature env fuel n msg u sig height = some v := by
    intro msg u sig height
    obtain ⟨fuel, hkey⟩ := h.getUserPubKey_eq u height
    refine ⟨fuel, ?_⟩
    rw [FreechCore.verifySignature, hkey]
    cases (n.ledger.latest u A (n.heightBound height)).bind (·.1.userPubKey) <;> exact ⟨_, rfl⟩
  have hnum : ∀ u (k : ℤ), ∃ fuel v,
      FreechCore.validatePostNumberForUser env fuel n u k = some v := by
    intro u k
    obtain ⟨fuel, hfuel⟩ := h u (-1)
    refine ⟨fuel, ?_⟩
    rw [FreechCore.validatePostNumberForUser, hfuel fuel le_rfl]
    cases n.ledger.latest u A (n.heightBound (-1)) with
    | none => exact ⟨_, rfl⟩
    | some found =>
      dsimp only
      split_ifs <;> exact ⟨_, rfl⟩
  choose _ sigOf hsigOf using hsig
  choose _ numOf hnumOf using hnum
  have hviews : n.Views env ⟨fun msg u sig height => sigOf msg u sig height.toInt,
      fun u k => numOf u k.toInt, Int32.ofInt n.nBestHeight⟩ :=
    ⟨fun _ _ _ _ => ⟨_, hsigOf ..⟩, fun _ _ => ⟨_, hnumOf ..⟩, rfl⟩
  refine ⟨_, hviews, fun msg u sig height => ?_⟩
  rw [hviews.verifySignature_iff]
  simp only [h.registeredKey_iff]
  constructor
  · rintro ⟨pubkey, ⟨tx, b, hl, hpub⟩, hver⟩
    exact ⟨tx, b, pubkey, hl, hpub, hver⟩
  · rintro ⟨tx, b, pubkey, hl, hpub, hver⟩
    exact ⟨pubkey, ⟨tx, b, hl, hpub⟩, hver⟩

end FreechCore
