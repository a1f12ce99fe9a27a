import FreechCore.Registry.Reorganise

/-!
A new block in the tree. Blocks are only ever added, so that whatever the index and the
active chain say about the blocks there were stays true.
-/

namespace FreechCore

open BackLink

namespace Ledger

/-- Blocks were added. -/
structure Grows (L L' : Ledger) : Prop where
  index : ∀ {h p}, L.index h = some p → L'.index h = some p
  file : ∀ {pos b}, L.blockFiles pos = some b → L'.blockFiles pos = some b

namespace Grows

variable {L L' : Ledger} {env : Env} {h : ℕ} {p : CBlockIndex} {u : Bytes} {A : List ℕ}

section

variable (G : L.Grows L')

include G

lemma ht (hp : L.index h = some p) : L'.ht h = L.ht h := by
  unfold Ledger.ht
  rw [heightOf_eq hp, heightOf_eq (G.index hp)]

section

variable (T : L.Tree env) (hp : L.index h = some p)

include T hp

lemma registrations : L'.registrations h = L.registrations h := by
  obtain ⟨b, hb, -⟩ := T.stored hp
  simp [Ledger.registrations, block_eq hp, block_eq (G.index hp), hb, G.file hb]

lemma registration : L'.registration h u = L.registration h u := by
  unfold Ledger.registration
  rw [G.registrations T hp]

lemma registers : L'.registers u h = L.registers u h := by
  unfold Ledger.registers
  rw [G.registration T hp]

end

lemma chain (hA : L.Chain A) : L'.Chain A := by
  induction hA with
  | root hp hq => exact .root (G.index hp) hq
  | cons hp hq _ ih => exact .cons (G.index hp) hq ih

lemma history (T : L.Tree env) (hA : L.Chain A) : L'.history u A = L.history u A := by
  refine List.filter_congr fun x hx => ?_
  obtain ⟨p, hp⟩ := hA.index_eq hx
  exact G.registers T hp

lemma first (T : L.Tree env) (hx : L.First u h) : L'.First u h := by
  obtain ⟨hu, l, hl, hR⟩ := hx
  obtain ⟨p, hp⟩ := hl.index_eq List.mem_cons_self
  refine ⟨by rw [G.registers T hp]; exact hu, l, G.chain hl, ?_⟩
  cases l with
  | nil => rfl
  | cons q l => rw [G.history T (hl.of_cons (by simp))]; exact hR

lemma stored_of_stored (T : L.Tree env) {q : CBlockIndex} {b : CBlock}
    (hp : L.index h = some p) (B : L'.Stored env h q b) : L.Stored env h q b := by
  obtain ⟨c, C⟩ := T.stored_block hp
  have hpq : p = q := Option.some.inj ((G.index hp).symm.trans B.index)
  subst hpq
  have hcb : c = b := Option.some.inj ((G.file C.file).symm.trans B.file)
  subst hcb
  exact C

end

variable {idx : TxKey → Option CDiskTxPos}

lemma sound (G : L.Grows L') (T : L.Tree env) (S : L.Sound env idx) : L'.Sound env idx := by
  intro u k pos hk
  obtain ⟨h, p, b, tx, hp, hpos, hb, hh, htx, hr⟩ := S u k pos hk
  exact ⟨h, p, b, tx, G.index hp, hpos, G.file hb, hh, htx, by rw [G.registration T hp]; exact hr⟩

lemma entries (G : L.Grows L') (S : L.Sound env idx) : L'.entries env idx = L.entries env idx := by
  funext u k
  cases hk : idx (u, k) with
  | none => rw [entries_none hk, entries_none hk]
  | some pos =>
    obtain ⟨_, _, b, _, _, _, _, hb, _⟩ := S.entries_some hk
    simp [Ledger.entries, hk, hb, G.file hb]

lemma follows (G : L.Grows L') (T : L.Tree env) (hA : L.Chain A) {e : ℤ → Option ℕ}
    {r : Option ℕ} : Follows L'.ht e (-1) (L'.history u A) r ↔
      Follows L.ht e (-1) (L.history u A) r := by
  rw [G.history T hA]
  refine Follows.congr_ht fun x hx => ?_
  obtain ⟨p, hp⟩ := hA.index_eq (mem_history.mp hx).1
  exact G.ht hp

end Grows

end Ledger

section Grow

variable {env : Env} {n n' : Node} {A W : List ℕ}

/-- A node to which blocks were added and nothing else. -/
structure Node.GrewTo (n n' : Node) : Prop where
  ledger : n.ledger.Grows n'.ledger
  txIndex : n'.txIndex = n.txIndex
  vec : n'.vBlockIndexByHeight = n.vBlockIndexByHeight
  height : n'.nBestHeight = n.nBestHeight
  undo : ∀ {h p}, n.index h = some p → n'.undo h = n.undo h
  fresh : ∀ {h p}, n.index h = none → n'.index h = some p → n'.undo h = none
  coins : n'.coinsTip = n.coinsTip
  best : n'.pindexBest = n.pindexBest

lemma Node.GrewTo.entries (G : n.GrewTo n') (S : n.ledger.Sound env n.txIndex) :
    n'.entries env = n.entries env := by
  unfold Node.entries
  rw [G.txIndex, G.ledger.entries S]

lemma Undoable.grow {D : List ℕ} (U : Undoable env n D) (G : n.GrewTo n') (T : n.ledger.Tree env)
    (hD : ∀ x ∈ D, ∃ p, n.ledger.index x = some p) : Undoable env n' D := by
  have hundo : ∀ {x p}, n.ledger.index x = some p → n'.undo x = n.undo x := G.undo
  refine ⟨fun x hx p b B hroot => ?_, fun x p b k B hk => ?_⟩
  · obtain ⟨q, hq⟩ := hD x hx
    obtain ⟨h1, h2, h3⟩ := U.solid x hx p b (G.ledger.stored_of_stored T hq B) hroot
    exact ⟨h1, h2, by rw [hundo hq]; exact h3⟩
  · cases hq : n.ledger.index x with
    | none =>
      rw [G.fresh hq B.index] at hk
      cases hk
    | some q =>
      rw [hundo hq] at hk
      exact U.undo x p b k (G.ledger.stored_of_stored T hq B) hk

lemma Working.grow (h : Working env n A W) (G : n.GrewTo n') (T : n'.ledger.Tree env) :
    Working env n' A W := by
  have U := h.undoable.grow G h.tree fun x hx =>
    (List.mem_append.mp hx).elim h.chainA.index_eq h.chainW.index_eq
  refine ⟨T, ?_, G.ledger.chain h.chainA, G.ledger.chain h.chainW, G.vec.trans h.vec,
    G.height.trans h.best, fun x hx => U.solid x (List.mem_append.mpr hx), U.undo, ?_⟩
  · rw [G.txIndex]
    exact G.ledger.sound h.tree h.sound
  · intro u
    obtain ⟨r, hf⟩ := h.follows u
    rw [G.entries h.sound]
    exact ⟨r, (G.ledger.follows h.tree h.chainW).mpr hf⟩

lemma Settled.grow (S : Settled env n A) (G : n.GrewTo n') (T : n'.ledger.Tree env) :
    Settled env n' A :=
  ⟨S.working.grow G T, G.coins.trans S.coins, G.best.trans S.best⟩

lemma Node.Tidy.grow (ht : n.Tidy env A W) (h : Working env n A W) (G : n.GrewTo n') :
    n'.Tidy env A W := by
  intro u r hf
  rw [G.entries h.sound] at hf ⊢
  obtain ⟨h1, h2, h3⟩ := ht u r ((G.ledger.follows h.tree h.chainW).mp hf)
  refine ⟨fun x hx => G.ledger.first h.tree (h1 x hx), fun x hx => ?_, fun x hx hR hxA => ?_⟩
  · rw [G.ledger.history h.tree h.chainW]
    exact h2 x hx
  · rw [G.ledger.history h.tree h.chainW] at hR
    obtain ⟨p, hp⟩ := h.chainA.index_eq hxA
    rw [G.ledger.ht hp]
    exact h3 x hx hR hxA

lemma Settled.genesis (S : Settled env n A) : (n.index (hashGenesisBlock env)).isSome = true := by
  obtain ⟨p, hp⟩ := S.working.chainA.index_eq (S.working.chainA.getLast_root S.working.tree)
  exact Option.isSome_iff_exists.mpr ⟨p, hp⟩

end Grow

/-! ### Storing a block -/

section Store

variable {env : Env} {n : Node} {b : CBlock} {pos : CDiskBlockPos}

/-- A block is written to disk and entered into the tree. -/
def Node.store (n : Node) (env : Env) (b : CBlock) (pos : CDiskBlockPos) : Node :=
  (n.writeBlockToDisk b pos).insertBlockIndex env b pos

/-- The block is new, its place on disk is free, and it fits on top of its parent. -/
structure Node.Fits (n : Node) (env : Env) (b : CBlock) (pos : CDiskBlockPos) : Prop where
  hash : n.index (getHash env b) = none
  pos : n.blockFiles pos = none
  parent : ∃ p, n.index b.hashPrevBlock = some p ∧ b.nHeight = (p.nHeight : ℤ) + 1

lemma store_index (h : ℕ) : (n.store env b pos).index h =
    if h = getHash env b then some (n.newBlockIndex b pos) else n.index h := by
  have : (n.store env b pos).index h = (n.mapBlockIndex.insert (getHash env b)
      ((n.writeBlockToDisk b pos).newBlockIndex b pos)).find? h := by
    unfold Node.store Node.insertBlockIndex Node.writeBlockIndex
    dsimp only
    split <;> rfl
  rw [this, StdMap.find?_insert]
  rfl

lemma store_blockFiles (pos' : CDiskBlockPos) : (n.store env b pos).blockFiles pos' =
    if pos' = pos then some b else n.blockFiles pos' := by
  unfold Node.store Node.insertBlockIndex Node.writeBlockIndex
  dsimp only
  split <;> rfl

/-- What storing a block leaves as it is. -/
structure Node.Stores (n n' : Node) (h : ℕ) : Prop where
  txIndex : n'.txIndex = n.txIndex
  vec : n'.vBlockIndexByHeight = n.vBlockIndexByHeight
  height : n'.nBestHeight = n.nBestHeight
  undo : ∀ h', n'.undo h' = if h' = h then none else n.undo h'
  coins : n'.coinsTip = n.coinsTip
  best : n'.pindexBest = n.pindexBest
  failed : ∀ h', (n'.nStatus h').failed = if h' = h then false else (n.nStatus h').failed
  candidates : n'.setBlockIndexValid = h :: n.setBlockIndexValid
  softCP : n'.lastSoftCP = n.lastSoftCP

lemma store_stores (n : Node) (env : Env) (b : CBlock) (pos : CDiskBlockPos) :
    n.Stores (n.store env b pos) (getHash env b) := by
  have hs := Node.SameChain.writeBlockIndex
  refine ⟨(hs _ _).txIndex, (hs _ _).vec, (hs _ _).height, congrFun (hs _ _).undo, (hs _ _).coins,
    (hs _ _).best, fun h' => ?_, Node.writeBlockIndex_setBlockIndexValid _ _,
    Node.writeBlockIndex_lastSoftCP _ _⟩
  unfold Node.store Node.insertBlockIndex
  rw [Node.writeBlockIndex_nStatus]
  dsimp only
  split_ifs <;> rfl

section

variable (F : n.Fits env b pos)

include F

lemma Node.Fits.grows : n.ledger.Grows (n.store env b pos).ledger where
  index := by
    intro h p hp
    have hp' : n.index h = some p := hp
    have hne : h ≠ getHash env b := fun e => by rw [e, F.hash] at hp'; cases hp'
    exact (store_index h).trans ((if_neg hne).trans hp)
  file := by
    intro pos' c hc
    have hc' : n.blockFiles pos' = some c := hc
    have hne : pos' ≠ pos := fun e => by rw [e, F.pos] at hc'; cases hc'
    exact (store_blockFiles pos').trans ((if_neg hne).trans hc)

lemma Node.Fits.grewTo : n.GrewTo (n.store env b pos) := by
  obtain ⟨h1, h2, h3, h4, h5, h6, -, -, -⟩ := store_stores n env b pos
  refine ⟨F.grows, h1, h2, h3, fun {h p} hp => ?_, fun {h p} hn hp => ?_, h5, h6⟩
  · have hne : h ≠ getHash env b := fun e => by rw [e, F.hash] at hp; cases hp
    rw [h4, if_neg hne]
  · rw [store_index] at hp
    split_ifs at hp with he
    · rw [h4, if_pos he]
    · rw [hn] at hp; cases hp

lemma Node.Fits.chain_old (T : n.ledger.Tree env) {x : ℕ} {l : List ℕ}
    (hx : (n.store env b pos).ledger.Chain (x :: l)) (hne : x ≠ getHash env b) :
    n.ledger.Chain (x :: l) := by
  obtain ⟨p, hp⟩ := hx.index_eq List.mem_cons_self
  have hp' : n.index x = some p := by
    have : (n.store env b pos).index x = some p := hp
    rwa [store_index, if_neg hne] at this
  obtain ⟨m, hm⟩ := T.exists_chain hp'
  rw [hx.unique (F.grows.chain hm)]
  exact hm

lemma Node.Fits.tree (T : n.ledger.Tree env)
    (hg : (n.index (hashGenesisBlock env)).isSome = true) : (n.store env b pos).ledger.Tree env := by
  obtain ⟨pp, hpp, hH⟩ := F.parent
  have hnew : n.newBlockIndex b pos = { n.newBlockIndex b pos with
      pprev := some b.hashPrevBlock, nHeight := pp.nHeight + 1, blockPos := pos } := by
    simp [Node.newBlockIndex, hpp]
  have hcases : ∀ {h p}, (n.store env b pos).ledger.index h = some p →
      (h = getHash env b ∧ p = n.newBlockIndex b pos) ∨ n.ledger.index h = some p := by
    intro h p hp
    have hp' : (n.store env b pos).index h = some p := hp
    rw [store_index] at hp'
    split_ifs at hp' with he
    · exact Or.inl ⟨he, (Option.some.inj hp').symm⟩
    · exact Or.inr hp'
  have hne : getHash env b ≠ hashGenesisBlock env := fun e => by
    rw [← e, F.hash] at hg; cases hg
  refine ⟨?_, ?_, ?_, ?_⟩
  · intro h p hp
    rcases hcases hp with ⟨rfl, rfl⟩ | hp
    · rw [hnew]
      simp [hne]
    · exact T.root_iff hp
  · intro h p hp hroot
    rcases hcases hp with ⟨rfl, rfl⟩ | hp
    · rw [hnew] at hroot
      cases hroot
    · exact T.root_height hp hroot
  · intro h p q hp hq
    rcases hcases hp with ⟨rfl, rfl⟩ | hp
    · rw [hnew, Option.some.injEq] at hq
      rw [hnew, ← hq]
      exact ⟨pp, F.grows.index hpp, rfl⟩
    · obtain ⟨pq, hpq, hh⟩ := T.parent hp hq
      exact ⟨pq, F.grows.index hpq, hh⟩
  · intro h p hp
    rcases hcases hp with ⟨rfl, rfl⟩ | hp
    · rw [hnew]
      refine ⟨b, (store_blockFiles pos).trans (if_pos rfl), rfl, ?_, by simp⟩
      rw [hH]
      rfl
    · obtain ⟨c, hc, hrest⟩ := T.stored hp
      exact ⟨c, F.grows.file hc, hrest⟩

end

end Store

end FreechCore
