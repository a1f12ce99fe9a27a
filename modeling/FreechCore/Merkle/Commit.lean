import FreechCore.Core.ToyEnv
import FreechCore.Core.Validation
import FreechCore.Lib.Merkle

/-!
A block's header commits to its transactions. The levels of the Merkle tree double a last odd
node, so that lists of different lengths can have the same root. A block with such a list has a
transaction twice, and does not pass the checks.
-/

namespace FreechCore

open Merkle List

section Root

variable {env : Env}

lemma merkleLevel_eq (l : List ℕ) : merkleLevel env l = level env.hashPair l := by
  induction l using level.induct with
  | case1 => rfl
  | case2 a => rfl
  | case3 a b l ih => rw [merkleLevel, level, ih]

lemma levels_merkleRoot {fuel : ℕ} {l : List ℕ} (hl : l ≠ []) (hf : Nat.clog 2 l.length ≤ fuel) :
    levels env.hashPair (Nat.clog 2 l.length) l = [merkleRoot env fuel l] := by
  induction fuel generalizing l with
  | zero =>
    match l, hl with
    | [a], _ => rfl
    | a :: b :: l, _ =>
      have := Nat.clog_pos Nat.one_lt_two (n := (a :: b :: l).length) (by simp)
      omega
  | succ fuel ih =>
    match l, hl with
    | [a], _ => rfl
    | a :: b :: l, _ =>
      have hlen : (level env.hashPair (a :: b :: l)).length = ((a :: b :: l).length + 2 - 1) / 2 :=
        length_level _
      rw [Nat.clog_of_two_le Nat.one_lt_two (by simp), ← hlen] at hf ⊢
      rw [levels_succ', merkleRoot, merkleLevel_eq]
      exact ih (cons_ne_nil _ _) (Nat.le_of_succ_le_succ hf)

lemma levels_buildMerkleTree {b : CBlock} (hb : b.vtx ≠ []) :
    levels env.hashPair (Nat.clog 2 b.vtx.length) (b.vtx.map env.hashTx) =
      [buildMerkleTree env b] := by
  have hclog : Nat.clog 2 b.vtx.length ≤ b.vtx.length :=
    Nat.clog_le_of_le_pow Nat.lt_two_pow_self.le
  rw [← length_map (f := env.hashTx)] at hclog ⊢
  rw [levels_merkleRoot (by simpa using hb) hclog, buildMerkleTree, length_map]

end Root

section Commit

variable {env : Env} {b b' : CBlock} {now now' : ℤ} {pow pow' : Bool}

lemma checkBlock_tree (hb : checkBlock env now pow true b = .ok ()) : b.vtx ≠ [] ∧
    (b.vtx.map env.hashTx).Nodup ∧ b.hashMerkleRoot = buildMerkleTree env b := by
  simp only [checkBlock, check_bind_eq_ok, ensure_eq_ok] at hb
  obtain ⟨⟨hne, -⟩, -, -, -, -, -, hnodup, -, hroot⟩ := hb
  exact ⟨hne, hnodup, hroot trivial⟩

/-- A tree cannot be the upper part of a taller one, since its leaves are hashes of
transactions. -/
lemma leaves_of_taller {l l' : List ℕ} {h d : ℕ} (hpair : Function.Injective2 env.hashPair)
    (hl : l.Nodup) (hl' : l'.Nodup) (hne : l ≠ [])
    (hdisj : ∀ x ∈ l, ∀ y z, x ≠ env.hashPair y z)
    (he : levels env.hashPair h l = levels env.hashPair (h + d) l') : l = l' := by
  rw [levels_add] at he
  have hl := levels_injective hpair hl (nodup_levels hpair hl') he
  cases d with
  | zero => exact hl
  | succ d =>
    obtain ⟨x, hx⟩ := exists_mem_of_ne_nil l hne
    have hx' := hx
    rw [hl, levels_succ] at hx'
    obtain ⟨y, -, z, -, rfl⟩ := mem_level hx'
    exact absurd rfl (hdisj _ hx y z)

/-- **A header commits to its transactions**: blocks with the same Merkle root that pass the
checks have the same transactions. -/
theorem vtx_eq_of_hashMerkleRoot (htx : Function.Injective env.hashTx)
    (hpair : Function.Injective2 env.hashPair)
    (hdisj : ∀ tx ∈ b.vtx ++ b'.vtx, ∀ x y, env.hashTx tx ≠ env.hashPair x y)
    (hb : checkBlock env now pow true b = .ok ()) (hb' : checkBlock env now' pow' true b' = .ok ())
    (hroot : b.hashMerkleRoot = b'.hashMerkleRoot) : b.vtx = b'.vtx := by
  obtain ⟨hne, hnodup, hr⟩ := checkBlock_tree hb
  obtain ⟨hne', hnodup', hr'⟩ := checkBlock_tree hb'
  have hleaf : ∀ x ∈ b.vtx.map env.hashTx, ∀ y z, x ≠ env.hashPair y z := by
    intro x hx
    obtain ⟨tx, htx, rfl⟩ := mem_map.mp hx
    exact hdisj tx (mem_append_left _ htx)
  have hleaf' : ∀ x ∈ b'.vtx.map env.hashTx, ∀ y z, x ≠ env.hashPair y z := by
    intro x hx
    obtain ⟨tx, htx, rfl⟩ := mem_map.mp hx
    exact hdisj tx (mem_append_right _ htx)
  have he : levels env.hashPair (Nat.clog 2 b.vtx.length) (b.vtx.map env.hashTx) =
      levels env.hashPair (Nat.clog 2 b'.vtx.length) (b'.vtx.map env.hashTx) := by
    rw [levels_buildMerkleTree hne, levels_buildMerkleTree hne', ← hr, ← hr', hroot]
  refine map_injective_iff.mpr htx ?_
  rcases le_total (Nat.clog 2 b.vtx.length) (Nat.clog 2 b'.vtx.length) with hle | hle
  · obtain ⟨d, hd⟩ := Nat.exists_eq_add_of_le hle
    rw [hd] at he
    exact leaves_of_taller hpair hnodup hnodup' (by simpa using hne) hleaf he
  · obtain ⟨d, hd⟩ := Nat.exists_eq_add_of_le hle
    rw [hd] at he
    exact (leaves_of_taller hpair hnodup' hnodup (by simpa using hne') hleaf' he.symm).symm

end Commit

namespace Toy

/-- The small instance with hashes of transactions apart from those of inner nodes. -/
def treeEnv : Env :=
  { env with
    hashTx := fun tx => 2 * codeTx tx + 1
    hashPair := fun x y => 2 * Nat.pair x y + 2 }

lemma treeEnv_hashTx_injective : Function.Injective treeEnv.hashTx := by
  intro tx tx' h
  have h' : 2 * codeTx tx + 1 = 2 * codeTx tx' + 1 := h
  exact codeTx_injective (by omega)

lemma treeEnv_hashPair_injective : Function.Injective2 treeEnv.hashPair := by
  intro x x' y y' h
  have h' : 2 * Nat.pair x y + 2 = 2 * Nat.pair x' y' + 2 := h
  exact Nat.pair_eq_pair.mp (by omega)

lemma treeEnv_disjoint (tx : CTransaction) (x y : ℕ) :
    treeEnv.hashTx tx ≠ treeEnv.hashPair x y := by
  intro h
  have h' : 2 * codeTx tx + 1 = 2 * Nat.pair x y + 2 := h
  omega

def treeBlock (nNonce : ℕ) (regs : List CTransaction) : CBlock :=
  blockIn treeEnv nNonce 1 1 spam regs

end Toy

open Toy in
/-- Two blocks of three transactions that differ in their nonce. -/
theorem vtx_eq_treeBlock :
    let regs := [register alice key1, register (ascii "b") key2]
    checkBlock treeEnv 10 true true (treeBlock 1 regs) = .ok () ∧
      (treeBlock 1 regs).vtx = (treeBlock 2 regs).vtx := by
  have h1 : checkBlock treeEnv 10 true true
      (treeBlock 1 [register alice key1, register (ascii "b") key2]) = .ok () := by decide +kernel
  have h2 : checkBlock treeEnv 10 true true
      (treeBlock 2 [register alice key1, register (ascii "b") key2]) = .ok () := by decide +kernel
  exact ⟨h1, vtx_eq_of_hashMerkleRoot treeEnv_hashTx_injective treeEnv_hashPair_injective
    (fun tx _ => treeEnv_disjoint tx) h1 h2 rfl⟩

end FreechCore
