import Mathlib.Data.Nat.Pairing
import FreechCore.Core.Work

/-!
A small instance of the hash and signature functions that can be computed with: hashes are
numberings without collisions, a block's hash is its nonce, and a key signs by its name.
-/

namespace FreechCore.Toy

def code : Bytes → ℕ
  | [] => 0
  | b :: l => 1 + b.toNat + 256 * code l

lemma code_injective : Function.Injective code := by
  intro a
  induction a with
  | nil =>
    intro b h
    cases b with
    | nil => rfl
    | cons c l => simp only [code] at h; omega
  | cons c l ih =>
    intro b h
    cases b with
    | nil => simp only [code] at h; omega
    | cons d m =>
      have hc := UInt8.toNat_lt c
      have hd := UInt8.toNat_lt d
      simp only [code] at h
      have h1 : code l = code m := by omega
      have h2 : c.toNat = d.toNat := by omega
      rw [ih h1, UInt8.toNat_inj.mp h2]

def codeInt (z : ℤ) : ℕ := if z < 0 then 2 * z.natAbs - 1 else 2 * z.natAbs

lemma codeInt_injective : Function.Injective codeInt := by
  intro a b h
  unfold codeInt at h
  split_ifs at h <;> omega

def codeTx (tx : CTransaction) : ℕ :=
  Nat.pair (Nat.pair (codeInt tx.nVersion) tx.nNonce)
    (Nat.pair (code tx.message) (Nat.pair (code tx.userName) (code tx.pubKey)))

lemma codeTx_injective : Function.Injective codeTx := by
  intro a b h
  obtain ⟨h1, h2⟩ := Nat.pair_eq_pair.mp h
  obtain ⟨hv, hn⟩ := Nat.pair_eq_pair.mp h1
  obtain ⟨hm, h3⟩ := Nat.pair_eq_pair.mp h2
  obtain ⟨hu, hp⟩ := Nat.pair_eq_pair.mp h3
  cases a; cases b
  simp only [CTransaction.mk.injEq]
  exact ⟨codeInt_injective hv, code_injective hm, code_injective hu,
    code_injective hp, hn⟩

def push (s : Bytes) : CScript := UInt8.ofNat s.length :: s

def register (name key : Bytes) : CTransaction := ⟨1, [], push name, push key, 0⟩

/-- A registration of a name with a new key, signed with the old one. -/
def replaceKey (name newKey oldKey : Bytes) : CTransaction :=
  ⟨1, [], push name, push newKey ++ push oldKey, 0⟩

def spam : CTransaction := ⟨1, push (ascii "A"), push (ascii "nobody"), [], 0⟩

/-- A promoted message signed by a user with a key. -/
def spamBy (name key : Bytes) : CTransaction :=
  ⟨1, push (ascii "A"), push name ++ push key, [], 0⟩

def env : Env where
  hashTx := codeTx
  hashName := fun s => code s + 1
  hashHeader := CBlockHeader.nNonce
  hashPow := fun _ => 0
  hashPair := Nat.pair
  hashMessage := code
  recoverCompact := fun _ sig => some sig
  keyID := code
  genesisTx := spam
  genesisTime := 0
  genesisBits := 0x1f03ffff
  genesisNonce := 1
  proofOfWorkLimit := 2 ^ 255 - 1
  txBits := 0x1e00ffff
  testNet := false
  mapCheckpoints := []

def blockIn (E : Env) (hash prev : ℕ) (height : ℤ) (first : CTransaction)
    (regs : List CTransaction) : CBlock :=
  let b : CBlock := ⟨⟨2, height, prev, 0, height.toNat, 0x1f03ffff, hash⟩, first :: regs⟩
  { b with hashMerkleRoot := buildMerkleTree E b }

def block := blockIn env

def alice : Bytes := ascii "a"
def key1 : Bytes := [7]
def key2 : Bytes := [8]

end FreechCore.Toy
