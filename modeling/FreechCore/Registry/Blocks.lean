import FreechCore.Registry.Lookup

/-!
What connecting and disconnecting one block does to the register of each name: a version is
recorded or withdrawn for the names the block registers, and the registers of all other
names stay as they are.
-/

namespace FreechCore

open BackLink Ledger List

variable {tx : CTransaction} {H : ℤ} {pos : CDiskTxPos} {e : ℕ × CTransaction}

/-! ### Blocks that pass their checks -/

/-- The shape of a block that passed its checks: one promoted message first, then
registrations of different names. -/
structure CBlock.Checked (b : CBlock) : Prop where
  first : ∃ tx, b.vtx = tx :: b.registrations ∧ tx.isSpamMessage = true
  rest : ∀ tx ∈ b.registrations, tx.isSpamMessage = false
  names : (b.registrations.map CTransaction.getUsername).Nodup

variable {env : Env} {b : CBlock} {idx : TxKey → Option CDiskTxPos} {u : Bytes} {k : ℤ} {n : Node}
  {h : ℕ} {p : CBlockIndex}

lemma checkTransaction_smallString (h : checkTransaction env tx = .ok ())
    (hs : tx.isSpamMessage = false) : CScript.isSmallString tx.userName = true := by
  simp only [checkTransaction, check_bind_eq_ok, hs, Bool.false_eq_true, if_false] at h
  simp only [checkRegistration, check_bind_eq_ok, ensure_eq_ok] at h
  exact h.1.2.2.1

lemma checkBlock_checked {now : ℤ} {f g : Bool} (h : checkBlock env now f g b = .ok ()) :
    b.Checked := by
  simp only [checkBlock, check_bind_eq_ok, ensure_eq_ok, reporting_eq_ok, checkAll_eq_ok] at h
  obtain ⟨-, -, -, ⟨tx, htx, hspam⟩, hrest, hall, -, hnames, -⟩ := h
  have hvtx : b.vtx = tx :: b.registrations := by
    cases hv : b.vtx with
    | nil => simp [hv] at htx
    | cons t l =>
      rw [hv, List.head?_cons, Option.mem_some_iff] at htx
      rw [← htx, CBlock.registrations, hv, tail_cons]
  refine ⟨⟨tx, hvtx, hspam⟩, hrest, ?_⟩
  -- names are small strings, so equal names have equal hashes
  refine pairwise_map.mpr ((pairwise_map.mp hnames).imp_of_mem ?_)
  intro s t hs ht hne hst
  have hsmall : ∀ r ∈ b.registrations, CScript.isSmallString r.userName = true := fun r hr =>
    checkTransaction_smallString (hall r (by rw [hvtx]; exact mem_cons_of_mem _ hr)) (hrest r hr)
  refine hne ?_
  unfold CTransaction.getUsernameHash
  rw [if_pos (hsmall s hs), if_pos (hsmall t ht), hst]

lemma checkBlock_work {now : ℤ} {g : Bool} (h : checkBlock env now true g b = .ok ()) :
    checkProofOfWork env (getPoWHash env b) b.nBits = true := by
  simp only [checkBlock, check_bind_eq_ok, ensure_eq_ok] at h
  exact h.2.1 trivial

/-- The registrations of a block with their offsets. -/
def CBlock.regOffsets (b : CBlock) : List (ℕ × CTransaction) := b.txOffsets.tail

lemma CBlock.map_snd_regOffsets (b : CBlock) : b.regOffsets.map Prod.snd = b.registrations := by
  rw [regOffsets, map_tail, map_snd_txOffsets, registrations]

lemma CBlock.Checked.filter_txOffsets (hb : b.Checked) :
    (b.txOffsets.filter fun e => !e.2.isSpamMessage) = b.regOffsets := by
  obtain ⟨tx, hvtx, hspam⟩ := hb.first
  have hmap := b.map_snd_txOffsets
  cases ho : b.txOffsets with
  | nil => rw [ho, hvtx] at hmap; cases hmap
  | cons e l =>
    rw [ho, hvtx, map_cons, List.cons.injEq] at hmap
    have htail : b.regOffsets = l := by rw [CBlock.regOffsets, ho, tail_cons]
    rw [htail, filter_cons_of_neg (by simp [hmap.1, hspam]), filter_eq_self]
    intro a ha
    have : a.2 ∈ b.registrations := hmap.2 ▸ mem_map_of_mem ha
    simp [hb.rest a.2 this]

lemma CBlock.Checked.length_filter (hb : b.Checked) :
    (b.vtx.filter fun tx => !tx.isSpamMessage).length + 1 = b.vtx.length := by
  obtain ⟨tx, hvtx, hspam⟩ := hb.first
  rw [hvtx, filter_cons_of_neg (by simp [hspam]), filter_eq_self.mpr]
  · rfl
  · intro t ht
    simp [hb.rest t ht]

/-! ### The rows of the index -/

lemma writeEntries_append (l l' : List (TxKey × CDiskTxPos)) :
    writeEntries idx (l ++ l') = writeEntries (writeEntries idx l) l' := by
  simp [writeEntries, foldl_append]

lemma writeEntries_cons (e : TxKey × CDiskTxPos) (l : List (TxKey × CDiskTxPos)) :
    writeEntries idx (e :: l) = writeEntries (fun k => if k = e.1 then some e.2 else idx k) l := rfl

@[simp] lemma writeEntries_nil : writeEntries idx [] = idx := rfl

lemma writeEntries_other {l : List (TxKey × CDiskTxPos)} (h : ∀ e ∈ l, e.1.1 ≠ u) :
    writeEntries idx l (u, k) = idx (u, k) := by
  induction l generalizing idx with
  | nil => rfl
  | cons e l ih =>
    have he : (u, k) ≠ e.1 := fun hh => h e (by simp) (by rw [← hh])
    rw [writeEntries_cons, ih fun e he => h e (mem_cons_of_mem _ he), if_neg he]

lemma name_of_mem_txIndexEntries {pos : CDiskBlockPos} {x : TxKey × CDiskTxPos}
    (hx : x ∈ txIndexEntries n H pos e) : x.1.1 = e.2.getUsername := by
  rcases mem_cons.mp hx with rfl | hx
  · rfl
  · split at hx
    · split_ifs at hx
      · rw [mem_singleton] at hx; rw [hx]
      · cases hx
    · cases hx

lemma writeEntries_row {pos : CDiskBlockPos} {l : List (ℕ × CTransaction)}
    (hnd : (l.map fun e => e.2.getUsername).Nodup) (he : e ∈ l) (hu : e.2.getUsername = u) :
    writeEntries idx (l.flatMap (txIndexEntries n H pos)) (u, k) =
      writeEntries idx (txIndexEntries n H pos e) (u, k) := by
  obtain ⟨l₁, l₂, rfl⟩ := append_of_mem he
  rw [map_append, map_cons, nodup_append, nodup_cons] at hnd
  obtain ⟨-, ⟨h2, -⟩, h1⟩ := hnd
  have hother : ∀ l' : List (ℕ × CTransaction), (∀ a ∈ l', a.2.getUsername ≠ u) →
      ∀ x ∈ l'.flatMap (txIndexEntries n H pos), x.1.1 ≠ u := by
    intro l' hl' x hx
    obtain ⟨a, ha, hxa⟩ := mem_flatMap.mp hx
    rw [name_of_mem_txIndexEntries hxa]
    exact hl' a ha
  have hl1 : ∀ a ∈ l₁, a.2.getUsername ≠ u := fun a ha heq =>
    h1 _ (mem_map_of_mem ha) _ mem_cons_self (by rw [heq, hu])
  have hl2 : ∀ a ∈ l₂, a.2.getUsername ≠ u := fun a ha heq =>
    h2 (by rw [hu, ← heq]; exact mem_map_of_mem ha)
  rw [flatMap_append, flatMap_cons, writeEntries_append, writeEntries_append,
    writeEntries_other (hother l₂ hl2)]
  -- what the registration writes does not depend on what the names before it wrote
  unfold txIndexEntries
  simp only [writeEntries_cons, hu]
  split
  · split_ifs
    · simp only [writeEntries_cons, writeEntries_nil]
      split_ifs <;> first | rfl | exact writeEntries_other (hother l₁ hl1)
    · simp only [writeEntries_nil]
      split_ifs <;> first | rfl | exact writeEntries_other (hother l₁ hl1)
  · simp only [writeEntries_nil]
    split_ifs <;> first | rfl | exact writeEntries_other (hother l₁ hl1)

/-! ### Stored blocks -/

/-- A block of the tree with its index entry. -/
structure Ledger.Stored (L : Ledger) (env : Env) (h : ℕ) (p : CBlockIndex) (b : CBlock) : Prop where
  index : L.index h = some p
  file : L.blockFiles p.blockPos = some b
  hash : getHash env b = h
  height : b.nHeight = p.nHeight

namespace Ledger

variable {L : Ledger}

lemma Tree.stored_block (T : L.Tree env) (hp : L.index h = some p) : ∃ b, L.Stored env h p b := by
  obtain ⟨b, hb, hh, hht, -⟩ := T.stored hp
  exact ⟨b, hp, hb, hh, hht⟩

section

variable (B : L.Stored env h p b)

include B

lemma Stored.ht_eq : L.ht h = b.nHeight := by
  rw [B.height]
  exact congrArg _ (heightOf_eq B.index)

lemma Stored.registrations_eq : L.registrations h = b.registrations := by
  simp [registrations, block_eq B.index, B.file]

lemma Stored.registration_eq (hb : b.Checked) (he : e ∈ b.regOffsets)
    (hu : e.2.getUsername = u) : L.registration h u = some e.2 := by
  have hmem : e.2 ∈ b.registrations := b.map_snd_regOffsets ▸ mem_map_of_mem he
  unfold registration
  rw [B.registrations_eq]
  cases hf : b.registrations.find? fun tx => tx.getUsername = u with
  | none => exact absurd hu (by simpa using List.find?_eq_none.mp hf e.2 hmem)
  | some t =>
    -- names do not repeat within a block
    have ht : t.getUsername = u := by simpa using List.find?_some hf
    have := inj_on_of_nodup_map hb.names (mem_of_find?_eq_some hf) hmem (by rw [ht, hu])
    rw [this]

lemma Stored.registers_iff : L.registers u h = true ↔ ∃ e ∈ b.regOffsets, e.2.getUsername = u := by
  unfold registers registration
  rw [B.registrations_eq, List.find?_isSome, ← b.map_snd_regOffsets]
  constructor
  · rintro ⟨tx, htx, hu⟩
    obtain ⟨e, he, rfl⟩ := mem_map.mp htx
    exact ⟨e, he, by simpa using hu⟩
  · rintro ⟨e, he, hu⟩
    exact ⟨e.2, mem_map_of_mem he, by simpa using hu⟩

lemma Stored.entries_at {o : ℕ} (hk : idx (u, k) = some ⟨p.blockPos, o⟩) :
    L.entries env idx u k = some h := by
  simp [entries, hk, B.file, B.hash]

end

lemma entries_congr {idx' : TxKey → Option CDiskTxPos} {k' : ℤ} (hk : idx' (u, k') = idx (u, k)) :
    L.entries env idx' u k' = L.entries env idx u k := by
  simp [entries, hk]

lemma Stored.entry_eq_iff (B : L.Stored env h p b) (S : L.Sound env idx) {y : ℕ}
    (hk : idx (u, k) = some pos) (hy : L.entries env idx u k = some y) :
    y = h ↔ p.blockPos = pos.toCDiskBlockPos := by
  obtain ⟨y', q, c, tx, he, hq, hpos, hc, hch, -⟩ := S.entries_some hk
  cases hy.symm.trans he
  constructor
  · rintro rfl
    rw [B.index, Option.some.injEq] at hq
    rw [hq, hpos]
  · intro hpp
    have hbc : b = c := by
      have := B.file
      rw [hpp, hc] at this
      exact (Option.some.inj this).symm
    rw [← hch, ← hbc, B.hash]

end Ledger

/-! ### Connecting -/

def Node.connected (n : Node) (p : CBlockIndex) (b : CBlock) : TxKey → Option CDiskTxPos :=
  writeEntries n.txIndex (blockIndexEntries n p.blockPos b)

lemma connected_other (B : n.ledger.Stored env h p b) (hb : b.Checked)
    (hu : n.ledger.registers u h = false) (k : ℤ) : n.connected p b (u, k) = n.txIndex (u, k) := by
  unfold Node.connected blockIndexEntries
  rw [hb.filter_txOffsets]
  refine writeEntries_other fun x hx => ?_
  obtain ⟨e, he, hxe⟩ := mem_flatMap.mp hx
  rw [name_of_mem_txIndexEntries hxe]
  intro heq
  rw [B.registers_iff.mpr ⟨e, he, heq⟩] at hu
  cases hu

lemma connected_row (hb : b.Checked) (he : e ∈ b.regOffsets) (hu : e.2.getUsername = u) (k : ℤ) :
    n.connected p b (u, k) =
      writeEntries n.txIndex (txIndexEntries n b.nHeight p.blockPos e) (u, k) := by
  unfold Node.connected blockIndexEntries
  rw [hb.filter_txOffsets]
  refine writeEntries_row ?_ he hu
  have hnames := hb.names
  rwa [← b.map_snd_regOffsets, map_map] at hnames

lemma entries_connected (B : n.ledger.Stored env h p b) (hb : b.Checked)
    (S : n.ledger.Sound env n.txIndex) (hu : n.ledger.registers u h = true) :
    n.ledger.entries env (n.connected p b) u =
      connect n.ledger.ht (n.ledger.entries env n.txIndex u) h := by
  obtain ⟨e, he, hname⟩ := B.registers_iff.mp hu
  have hrow := connected_row (n := n) (p := p) hb he hname
  funext k
  cases hold : n.txIndex (u, -1) with
  | none =>
    have hrow' : n.connected p b (u, k) =
        if k = -1 then some ⟨p.blockPos, e.1⟩ else n.txIndex (u, k) := by
      rw [hrow, txIndexEntries]
      simp [hname, Node.readTxIndex, hold, writeEntries_cons]
    rw [connect_of_none (entries_none hold), Function.update_apply]
    split_ifs with hk
    · exact B.entries_at (by rw [hrow', if_pos hk])
    · exact entries_congr (by rw [hrow', if_neg hk])
  | some pos =>
    obtain ⟨y, _, _, _, hy, -⟩ := S.entries_some hold
    by_cases hpos : p.blockPos = pos.toCDiskBlockPos
    · have hyh : y = h := (B.entry_eq_iff S hold hy).mpr hpos
      subst hyh
      have hrow' : n.connected p b (u, k) =
          if k = -1 then some ⟨p.blockPos, e.1⟩ else n.txIndex (u, k) := by
        rw [hrow, txIndexEntries]
        simp [hname, Node.readTxIndex, hold, hpos, writeEntries_cons]
      rw [connect_of_eq hy]
      by_cases hk : k = -1
      · rw [hk, hy]
        exact B.entries_at (by rw [← hk, hrow', if_pos hk])
      · exact entries_congr (by rw [hrow', if_neg hk])
    · have hyh : y ≠ h := fun e => hpos ((B.entry_eq_iff S hold hy).mp e)
      have hrow' : n.connected p b (u, k) = if k = b.nHeight - 1 then some pos
          else if k = -1 then some ⟨p.blockPos, e.1⟩ else n.txIndex (u, k) := by
        rw [hrow, txIndexEntries]
        simp [hname, Node.readTxIndex, hold, hpos, writeEntries_cons]
      rw [connect_of_ne hy hyh, B.ht_eq, Function.update_apply]
      split_ifs with hk
      · rw [← hy]
        exact entries_congr (by rw [hrow', if_pos hk, hold])
      · rw [Function.update_apply]
        split_ifs with hk'
        · exact B.entries_at (by rw [hrow', if_neg hk, if_pos hk'])
        · exact entries_congr (by rw [hrow', if_neg hk, if_neg hk'])

lemma entries_connected_other (B : n.ledger.Stored env h p b) (hb : b.Checked)
    (hu : n.ledger.registers u h = false) :
    n.ledger.entries env (n.connected p b) u = n.ledger.entries env n.txIndex u :=
  funext fun k => entries_congr (connected_other B hb hu k)

lemma writeEntries_cases {l : List (TxKey × CDiskTxPos)} {k : TxKey}
    (h : writeEntries idx l k = some pos) : idx k = some pos ∨ (k, pos) ∈ l := by
  induction l generalizing idx with
  | nil => exact Or.inl h
  | cons e l ih =>
    rw [writeEntries_cons] at h
    rcases ih h with h | h
    · split_ifs at h with hk
      · rw [Option.some.injEq] at h
        exact Or.inr (by rw [hk, ← h]; exact mem_cons_self)
      · exact Or.inl h
    · exact Or.inr (mem_cons_of_mem _ h)

lemma connected_cases (hb : b.Checked) (hk : n.connected p b (u, k) = some pos) :
    (∃ k', n.txIndex (u, k') = some pos) ∨
      ∃ e ∈ b.regOffsets, e.2.getUsername = u ∧ pos = ⟨p.blockPos, e.1⟩ := by
  unfold Node.connected blockIndexEntries at hk
  rw [hb.filter_txOffsets] at hk
  rcases writeEntries_cases hk with h | h
  · exact Or.inl ⟨k, h⟩
  · obtain ⟨e, he, hx⟩ := mem_flatMap.mp h
    have hname : u = e.2.getUsername := name_of_mem_txIndexEntries hx
    rcases mem_cons.mp hx with hx | hx
    · exact Or.inr ⟨e, he, hname.symm, (Prod.mk.inj hx).2⟩
    · split at hx
      · rename_i old hold
        split_ifs at hx
        · rw [mem_singleton] at hx
          rw [(Prod.mk.inj hx).2]
          exact Or.inl ⟨-1, by rw [hname]; exact hold⟩
        · cases hx
      · cases hx

lemma sound_connected (B : n.ledger.Stored env h p b) (hb : b.Checked)
    (S : n.ledger.Sound env n.txIndex) : n.ledger.Sound env (n.connected p b) := by
  intro u k pos hk
  rcases connected_cases hb hk with ⟨k', hk'⟩ | ⟨e, he, hname, rfl⟩
  · exact S u k' pos hk'
  · have hread : b.readTx e.1 = some e.2 := CBlock.readTx_of_mem (mem_of_mem_tail he)
    exact ⟨h, p, b, e.2, B.index, rfl, B.file, B.hash, hread, B.registration_eq hb he hname⟩

/-! ### Disconnecting and erasing -/

/-- The index after the entry a registration had replaced is brought back. -/
def restoreEntry (H : ℤ) (idx : TxKey → Option CDiskTxPos) (tx : CTransaction) :
    TxKey → Option CDiskTxPos :=
  match idx (tx.getUsername, H - 1) with
  | some oldPos => fun k => if k = (tx.getUsername, -1) then some oldPos else idx k
  | none => idx

/-- The index after a block is disconnected. -/
def Node.disconnected (n : Node) (b : CBlock) : TxKey → Option CDiskTxPos :=
  b.registrations.reverse.foldl (restoreEntry b.nHeight) n.txIndex

lemma foldl_disconnectTx (H : ℤ) (l : List CTransaction) (n : Node) :
    l.foldl (disconnectTx H) n = { n with txIndex := l.foldl (restoreEntry H) n.txIndex } := by
  induction l generalizing n with
  | nil => rfl
  | cons tx l ih =>
    rw [foldl_cons, ih, foldl_cons]
    unfold disconnectTx restoreEntry Node.readTxIndex
    cases n.txIndex (tx.getUsername, H - 1) <;> rfl

lemma restoreEntry_other (hu : tx.getUsername ≠ u) (k : ℤ) :
    restoreEntry H idx tx (u, k) = idx (u, k) := by
  unfold restoreEntry
  cases idx (tx.getUsername, H - 1) with
  | none => rfl
  | some old => exact if_neg fun e => hu (Prod.mk.inj e).1.symm

lemma foldl_restoreEntry_other {l : List CTransaction} (hl : ∀ tx ∈ l, tx.getUsername ≠ u) (k : ℤ) :
    l.foldl (restoreEntry H) idx (u, k) = idx (u, k) := by
  induction l generalizing idx with
  | nil => rfl
  | cons tx l ih =>
    rw [foldl_cons, ih fun t ht => hl t (mem_cons_of_mem _ ht),
      restoreEntry_other (hl tx (by simp))]

lemma restoreEntry_self (hu : tx.getUsername = u) (k : ℤ) : restoreEntry H idx tx (u, k) =
      if k = -1 then (idx (u, H - 1)).or (idx (u, -1)) else idx (u, k) := by
  unfold restoreEntry
  rw [hu]
  cases idx (u, H - 1) with
  | none => split_ifs with hk <;> simp [hk]
  | some old => simp

lemma foldl_restoreEntry_row {l : List CTransaction}
    (hnd : (l.map CTransaction.getUsername).Nodup) (ht : tx ∈ l) (hu : tx.getUsername = u) (k : ℤ) :
    l.foldl (restoreEntry H) idx (u, k) =
      if k = -1 then (idx (u, H - 1)).or (idx (u, -1)) else idx (u, k) := by
  obtain ⟨l₁, l₂, rfl⟩ := append_of_mem ht
  rw [map_append, map_cons, nodup_append, nodup_cons] at hnd
  obtain ⟨-, ⟨h2, -⟩, h1⟩ := hnd
  have hl1 : ∀ t ∈ l₁, t.getUsername ≠ u := fun t ht heq =>
    h1 _ (mem_map_of_mem ht) _ mem_cons_self (by rw [heq, hu])
  have hl2 : ∀ t ∈ l₂, t.getUsername ≠ u := fun t ht heq =>
    h2 (by rw [hu, ← heq]; exact mem_map_of_mem ht)
  rw [foldl_append, foldl_cons, foldl_restoreEntry_other hl2, restoreEntry_self hu]
  simp only [foldl_restoreEntry_other hl1]

lemma entries_disconnected (B : n.ledger.Stored env h p b) (hb : b.Checked)
    (S : n.ledger.Sound env n.txIndex) (hu : n.ledger.registers u h = true) :
    n.ledger.entries env (n.disconnected b) u =
      disconnect n.ledger.ht (n.ledger.entries env n.txIndex u) h := by
  obtain ⟨e, he, hname⟩ := B.registers_iff.mp hu
  have hmem : e.2 ∈ b.registrations.reverse := by
    rw [mem_reverse, ← b.map_snd_regOffsets]
    exact mem_map_of_mem he
  have hrow : ∀ k, n.disconnected b (u, k) = if k = -1
      then (n.txIndex (u, b.nHeight - 1)).or (n.txIndex (u, -1)) else n.txIndex (u, k) :=
    foldl_restoreEntry_row (by rw [map_reverse, nodup_reverse]; exact hb.names) hmem hname
  funext k
  unfold disconnect
  rw [B.ht_eq]
  cases hold : n.txIndex (u, b.nHeight - 1) with
  | none =>
    rw [entries_none hold]
    refine entries_congr ?_
    rw [hrow]
    split_ifs with hk
    · rw [hold, hk]; rfl
    · rfl
  | some pos =>
    obtain ⟨y, _, _, _, hy, -⟩ := S.entries_some hold
    rw [hy]
    dsimp only
    rw [Function.update_apply]
    split_ifs with hk
    · rw [← hy]
      exact entries_congr (by rw [hrow, if_pos hk, hold]; rfl)
    · exact entries_congr (by rw [hrow, if_neg hk])

lemma disconnected_other (B : n.ledger.Stored env h p b) (hu : n.ledger.registers u h = false)
    (k : ℤ) : n.disconnected b (u, k) = n.txIndex (u, k) := by
  refine foldl_restoreEntry_other (fun tx htx heq => ?_) k
  rw [mem_reverse, ← b.map_snd_regOffsets] at htx
  obtain ⟨e, he, rfl⟩ := mem_map.mp htx
  rw [B.registers_iff.mpr ⟨e, he, heq⟩] at hu
  cases hu

lemma entries_disconnected_other (B : n.ledger.Stored env h p b)
    (hu : n.ledger.registers u h = false) :
    n.ledger.entries env (n.disconnected b) u = n.ledger.entries env n.txIndex u :=
  funext fun k => entries_congr (disconnected_other B hu k)

lemma restoreEntry_cases (hk : restoreEntry H idx tx (u, k) = some pos) :
    ∃ k', idx (u, k') = some pos := by
  by_cases hu : tx.getUsername = u
  · rw [restoreEntry_self hu] at hk
    split_ifs at hk with h1
    · rcases Option.or_eq_some_iff.mp hk with h | ⟨-, h⟩
      · exact ⟨_, h⟩
      · exact ⟨_, h⟩
    · exact ⟨k, hk⟩
  · rw [restoreEntry_other hu] at hk
    exact ⟨k, hk⟩

lemma sound_disconnected (S : n.ledger.Sound env n.txIndex) :
    n.ledger.Sound env (n.disconnected b) := by
  suffices hl : ∀ (l : List CTransaction) (idx : TxKey → Option CDiskTxPos),
      n.ledger.Sound env idx → n.ledger.Sound env (l.foldl (restoreEntry b.nHeight) idx) from
    hl _ _ S
  intro l
  induction l with
  | nil => exact fun idx hidx => hidx
  | cons tx l ih =>
    refine fun idx hidx => ih _ fun u k pos hk => ?_
    obtain ⟨k', hk'⟩ := restoreEntry_cases hk
    exact hidx u k' pos hk'

/-! Erasing -/

lemma sound_erase (S : n.ledger.Sound env n.txIndex) (key : TxKey) :
    n.ledger.Sound env (n.eraseTxIndex key).txIndex := by
  intro u k pos hk
  by_cases hkey : (u, k) = key
  · simp [Node.eraseTxIndex, hkey] at hk
  · exact S u k pos (by simpa [Node.eraseTxIndex, hkey] using hk)

lemma entries_erase (v : Bytes) : n.ledger.entries env (n.eraseTxIndex (v, -1)).txIndex u =
    if u = v then eraseLatest (n.ledger.entries env n.txIndex u)
    else n.ledger.entries env n.txIndex u := by
  funext k
  split_ifs with huv
  · subst huv
    unfold eraseLatest
    rw [Function.update_apply]
    split_ifs with hk
    · exact entries_none (by simp [Node.eraseTxIndex, hk])
    · exact entries_congr (by simp [Node.eraseTxIndex, hk])
  · exact entries_congr (by simp [Node.eraseTxIndex, huv])

end FreechCore
