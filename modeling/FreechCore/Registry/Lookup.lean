import FreechCore.Registry.Ledger

/-!
The transaction index read name by name. For one name the index is a register of blocks
linked by heights; a lookup is a walk through that register.
-/

namespace FreechCore

open BackLink Loop

/-- The blocks the index holds for a name, by height key. -/
def Ledger.entries (L : Ledger) (env : Env) (idx : TxKey → Option CDiskTxPos) (u : Bytes)
    (k : ℤ) : Option ℕ :=
  (idx (u, k)).bind fun pos => (L.blockFiles pos.toCDiskBlockPos).map (getHash env)

def Node.entries (n : Node) (env : Env) : Bytes → ℤ → Option ℕ := n.ledger.entries env n.txIndex

/-- Every entry of the index points to the registration of its name in a block of the tree. -/
def Ledger.Sound (L : Ledger) (env : Env) (idx : TxKey → Option CDiskTxPos) : Prop :=
  ∀ u k pos, idx (u, k) = some pos → ∃ h p b tx, L.index h = some p ∧
    p.blockPos = pos.toCDiskBlockPos ∧ L.blockFiles p.blockPos = some b ∧ getHash env b = h ∧
    b.readTx pos.nTxOffset = some tx ∧ L.registration h u = some tx

variable {env : Env} {u : Bytes} {tx : CTransaction}

namespace Ledger

variable {L : Ledger} {idx : TxKey → Option CDiskTxPos} {k : ℤ} {h : ℕ}

lemma registration_name (hr : L.registration h u = some tx) : tx.getUsername = u := by
  simpa using List.find?_some hr

lemma registers_of_mem (htx : tx ∈ L.registrations h) : L.registers tx.getUsername h = true :=
  List.find?_isSome.mpr ⟨tx, htx, by simp⟩

lemma entries_none (hk : idx (u, k) = none) : L.entries env idx u k = none := by
  simp [entries, hk]

lemma Sound.entries_some (S : L.Sound env idx) {pos : CDiskTxPos} (hk : idx (u, k) = some pos) :
    ∃ h p b tx, L.entries env idx u k = some h ∧ L.index h = some p ∧
      p.blockPos = pos.toCDiskBlockPos ∧ L.blockFiles pos.toCDiskBlockPos = some b ∧
      getHash env b = h ∧ b.readTx pos.nTxOffset = some tx ∧ L.registration h u = some tx := by
  obtain ⟨h, p, b, tx, hp, hpos, hb, hh, htx, hr⟩ := S u k pos hk
  rw [hpos] at hb
  exact ⟨h, p, b, tx, by simp [entries, hk, hb, hh], hp, hpos, hb, hh, htx, hr⟩

lemma Sound.registers (S : L.Sound env idx) (he : L.entries env idx u k = some h) :
    (∃ p, L.index h = some p) ∧ L.registers u h = true := by
  cases hk : idx (u, k) with
  | none => rw [entries_none hk] at he; cases he
  | some pos =>
    obtain ⟨h', p, b, tx, he', hp, -, -, -, -, hr⟩ := S.entries_some hk
    cases he.symm.trans he'
    exact ⟨⟨p, hp⟩, by simp [Ledger.registers, hr]⟩

end Ledger

section Lookups

variable {n : Node} {mh : ℤ}

/-- What a lookup returns for the block its walk ends at. -/
def Ledger.answer (L : Ledger) (u : Bytes) (o : Option ℕ) : Option (Option Found) :=
  some (o.bind (L.found u))

section

variable (T : n.ledger.Tree env) (S : n.ledger.Sound env n.txIndex)

include T S

lemma getTransactionStep_eq (k : ℤ) :
    getTransactionStep env n u mh k =
      (walkStep n.ledger.ht (n.entries env u) n.isInMainChain mh k).map id (n.ledger.answer u) := by
  unfold getTransactionStep walkStep Node.readTxIndex Node.entries
  cases hk : n.txIndex (u, k) with
  | none => rw [Ledger.entries_none hk]; rfl
  | some pos =>
    obtain ⟨h, p, b, tx, he, hp, hpos, hb, hh, htx, hr⟩ := S.entries_some hk
    have hread : n.readTx pos = some (b.toCBlockHeader, tx) := by
      have : n.blockFiles pos.toCDiskBlockPos = some b := hb
      simp [Node.readTx, this, htx]
    have hname : tx.getUsername = u := Ledger.registration_name hr
    have hhash : env.hashHeader b.toCBlockHeader = h := hh
    have hidx : n.index h = some p := hp
    obtain ⟨b', hb', -, hheight, -⟩ := T.stored hp
    have hbb : b' = b := by
      rw [hpos, hb] at hb'
      exact (Option.some.inj hb').symm
    subst hbb
    have hht : n.ledger.ht h = p.nHeight := by
      unfold Ledger.ht
      rw [Ledger.heightOf_eq hp]
    simp only [hread, hname, hhash, hidx, he, hheight, hht, ne_eq, not_true, if_false]
    cases n.isInMainChain h with
    | false => simp [Ledger.answer]
    | true =>
      simp only [Bool.true_eq_false, if_false]
      split_ifs
      · rfl
      · rfl
      · simp [Ledger.answer, Ledger.found, hr]

/-- **Lookups are walks** through the register of the name. -/
theorem getTransaction_eq (fuel : ℕ)
    (maxHeight : ℤ) :
    getTransaction env fuel n u maxHeight =
      (doWhile (walkStep n.ledger.ht (n.entries env u) n.isInMainChain (n.heightBound maxHeight))
        fuel (-1)).map fun o => o.bind (n.ledger.found u) := by
  unfold getTransaction
  rw [doWhile_map (n.ledger.answer u) (getTransactionStep_eq T S)]
  cases doWhile (walkStep n.ledger.ht (n.entries env u) n.isInMainChain (n.heightBound maxHeight))
    fuel (-1) <;> rfl

end

end Lookups

end FreechCore
