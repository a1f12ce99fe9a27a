import FreechCore.Chain.TxNum
import FreechCore.Checkpoint.Moves
import FreechCore.Lib.Bisect

/-!
Numbers of users and back. The entries of the block tree add up the transactions of their chains,
so that each number below that of the tip lies in the part of one block, and the search for it
compares heights. It looks at every height but that of the tip.
-/

namespace FreechCore

open CBlockIndex List Loop Option

variable {u : Bytes} {tx : CTransaction}

/-! ### Transactions are counted -/

/-- Entries know the number of transactions of their blocks, and add it to that of their parents. -/
structure Ledger.Counted (L : Ledger) : Prop where
  size : ∀ {h p}, L.index h = some p → ∃ b, L.blockFiles p.blockPos = some b ∧
    p.nTx = b.vtx.length
  root : ∀ {h p}, L.index h = some p → p.pprev = none → p.nChainTx = p.nTx
  sum : ∀ {h p q}, L.index h = some p → p.pprev = some q →
    ∃ pq, L.index q = some pq ∧ p.nChainTx = pq.nChainTx + p.nTx

section

variable {env : Env} {n : Node} {p : CBlockIndex} {A : List ℕ} {fuel : ℕ}

section Counted

variable {n' : Node} {b : CBlock} {pos : CDiskBlockPos} {P : Call → Node → Prop}

lemma Node.Fits.counted (F : n.Fits env b pos) (C : n.ledger.Counted) :
    (n.store env b pos).ledger.Counted := by
  have hold : ∀ {h p}, n.index h = some p → (n.store env b pos).index h = some p := fun hp =>
    F.grows.index hp
  obtain ⟨pp, hpp, -⟩ := F.parent
  have hcases : ∀ {h p}, (n.store env b pos).ledger.index h = some p →
      p = n.newBlockIndex b pos ∨ n.ledger.index h = some p := by
    intro h p hp
    have hp' : (n.store env b pos).index h = some p := hp
    rw [store_index] at hp'
    split_ifs at hp'
    · exact Or.inl (some.inj hp').symm
    · exact Or.inr hp'
  have hfile : ∀ pos', (n.store env b pos).ledger.blockFiles pos' =
      if pos' = pos then some b else n.blockFiles pos' := store_blockFiles
  refine ⟨fun {h p} hp => ?_, fun {h p} hp hq => ?_, fun {h p q} hp hq => ?_⟩
  · rcases hcases hp with rfl | hp
    · exact ⟨b, by rw [hfile]; exact if_pos rfl, rfl⟩
    · obtain ⟨b', hb', hsize⟩ := C.size hp
      refine ⟨b', ?_, hsize⟩
      rw [hfile, if_neg]
      · exact hb'
      · intro he
        have hpos : n.blockFiles p.blockPos = some b' := hb'
        rw [he, F.pos] at hpos
        cases hpos
  · rcases hcases hp with rfl | hp
    · simp [Node.newBlockIndex, hpp] at hq
    · exact C.root hp hq
  · rcases hcases hp with rfl | hp
    · simp only [Node.newBlockIndex, hpp, map_some, some.injEq] at hq
      subst hq
      exact ⟨pp, hold hpp, by simp [Node.newBlockIndex, hpp]⟩
    · obtain ⟨pq, hpq, hsum⟩ := C.sum hp hq
      exact ⟨pq, hold hpq, hsum⟩

lemma Fresh.counted (F : Fresh env n) : n.ledger.Counted := by
  obtain ⟨pos, hentry⟩ := F.entry
  have hone : ∀ {h p}, n.ledger.index h = some p →
      p = Node.start.newBlockIndex (genesisBlock env) pos := by
    intro h p hp
    have hp' : n.index h = some p := hp
    rw [F.only hp', hentry] at hp'
    exact (some.inj hp').symm
  have hroot : (Node.start.newBlockIndex (genesisBlock env) pos).pprev = none := rfl
  refine ⟨fun {h p} hp => ?_, fun {h p} hp _ => ?_, fun {h p q} hp hq => ?_⟩
  · obtain ⟨b, hb, -, -, hg⟩ := F.settled.working.tree.stored hp
    refine ⟨b, hb, ?_⟩
    rw [hg (by rw [hone hp, hroot]), hone hp]
    rfl
  · rw [hone hp]
    exact Nat.zero_add _
  · rw [hone hp, hroot] at hq
    cases hq

lemma Step.ledger_eq_or (h : Step env P n n') : n'.ledger = n.ledger ∨
    ∃ b pos, n.Fits env b pos ∧ n' = n.store env b pos := by
  cases h with
  | store hfit => exact Or.inr ⟨_, _, hfit, rfl⟩
  | mark hm => exact Or.inl ((Node.SameTree.across env).foldl_markFailedChild _ _).ledger
  | adopt cp => exact Or.inl rfl
  | switch hP hrun =>
    have hR := Node.SameTree.across env
    exact Or.inl (hR.setBestChain (fun _ _ => hR.reconnected) hrun).ledger

lemma Reached.counted (hr : Reached env P n) : n.ledger.Counted := by
  refine hr.invariant (X := fun n => n.ledger.Counted) (fun m hm => hm.fresh.counted) ?_
  intro m m' hstep C
  rcases hstep.ledger_eq_or with he | ⟨b, pos, hfit, rfl⟩
  · rwa [he]
  · exact hfit.counted C

end Counted

/-! ### Heights and numbers -/

lemma toNat_chainTx (hfit : p.nChainTx < 2 ^ 32) : p.chainTx.toNat = p.nChainTx :=
  UInt32.toNat_ofNat_of_lt' hfit

lemma toNat_chainTxBefore (hfit : p.nChainTx < 2 ^ 32) (hle : p.nTx ≤ p.nChainTx) :
    p.chainTxBefore.toNat = p.nChainTx - p.nTx := by
  have hTx : (UInt32.ofNat p.nTx).toNat = p.nTx := UInt32.toNat_ofNat_of_lt' (hle.trans_lt hfit)
  have hsub := UInt32.toNat_sub_of_le p.chainTx (UInt32.ofNat p.nTx)
    (UInt32.le_iff_toNat_le.mpr (by rw [hTx, toNat_chainTx hfit]; exact hle))
  rw [chainTxBefore, hsub, toNat_chainTx hfit, hTx]

def Node.entryAt (n : Node) (i : ℕ) : Option (ℕ × CBlockIndex) :=
  (n.findBlockByHeight i).bind fun h => (n.index h).map (h, ·)

/-- The transactions of the main chain up to a height. -/
def Node.txsUpTo (n : Node) (i : ℕ) : ℕ := ((n.entryAt i).map fun x => x.2.nChainTx).getD 0

/-- A node with an active chain, whose transactions are counted in the tree. -/
structure Numbered (env : Env) (n : Node) (A : List ℕ) : Prop where
  tree : n.ledger.Tree env
  sound : n.ledger.Sound env n.txIndex
  active : n.Active A
  best : n.nBestHeight = (A.length : ℤ) - 1
  counted : n.ledger.Counted
  work : ∀ h ∈ A, ∀ p b, n.ledger.Stored env h p b → p.pprev ≠ none →
    checkProofOfWork env (getPoWHash env b) b.nBits = true

lemma Settled.numbered (S : Settled env n A) (C : n.ledger.Counted) : Numbered env n A :=
  ⟨S.working.tree, S.working.sound, S.active, S.working.best, C,
    fun h hh p b B hroot => (S.working.solid h (Or.inl hh) p b B hroot).work⟩

namespace Numbered

variable {txNum : UInt32} {i t h : ℕ}

section

variable (N : Numbered env n A)

include N

lemma entryAt_eq (hh : h ∈ A) (hp : n.index h = some p) :
    n.entryAt p.nHeight = some (h, p) := by
  have hget := N.active.chain.getElem?_reverse N.tree hh
  rw [Ledger.heightOf_eq hp] at hget
  have hlt : p.nHeight < A.length := by
    have := (List.getElem?_eq_some_iff.mp hget).1
    rwa [length_reverse] at this
  have hfind : n.findBlockByHeight p.nHeight = some h := by
    rw [Node.findBlockByHeight, N.active.vec, length_map, length_reverse,
      if_neg (by omega), Int.toNat_natCast, List.getElem?_map, hget]
    rfl
  rw [Node.entryAt, hfind, bind_some, hp, map_some]

lemma exists_entryAt (hi : i < A.length) :
    ∃ h p, h ∈ A ∧ n.index h = some p ∧ p.nHeight = i ∧ n.entryAt i = some (h, p) := by
  obtain ⟨h, hget⟩ : ∃ h, A.reverse[i]? = some h :=
    ⟨_, List.getElem?_eq_getElem (by rwa [length_reverse])⟩
  have hh : h ∈ A := mem_reverse.mp (mem_of_getElem? hget)
  obtain ⟨p, hp⟩ := N.active.chain.index_eq hh
  have hget' := N.active.chain.getElem?_reverse N.tree hh
  rw [Ledger.heightOf_eq hp] at hget'
  have hheight : p.nHeight = i := by
    have hnodup := nodup_reverse.mpr (N.active.chain.nodup N.tree)
    obtain ⟨h1, he1⟩ := List.getElem?_eq_some_iff.mp hget
    obtain ⟨h2, he2⟩ := List.getElem?_eq_some_iff.mp hget'
    exact (hnodup.getElem_inj_iff).mp (he2.trans he1.symm)
  exact ⟨h, p, hh, hp, hheight, hheight ▸ N.entryAt_eq hh hp⟩

lemma nChainTx_eq (hh : h ∈ A) (hp : n.index h = some p) :
    p.nChainTx = (if p.nHeight = 0 then 0 else n.txsUpTo (p.nHeight - 1)) + p.nTx := by
  cases hq : p.pprev with
  | none => rw [if_pos (N.tree.root_height hp hq), N.counted.root hp hq, Nat.zero_add]
  | some q =>
    obtain ⟨pq, hpq, hheight⟩ := N.tree.parent hp hq
    obtain ⟨pq', hpq', hsum⟩ := N.counted.sum hp hq
    cases hpq.symm.trans hpq'
    -- the parent is a block of the chain, one below
    have hqA : q ∈ A := by
      obtain ⟨b, B⟩ := N.tree.stored_block hp
      obtain ⟨l₁, l₂, rfl⟩ := append_of_mem hh
      have hhead := (N.active.chain.of_append (cons_ne_nil h l₂)).pprev_eq_head? B
      have hmem : q ∈ l₂ := mem_of_mem_head? (hhead.symm.trans hq)
      simp [hmem]
    have hbelow := N.entryAt_eq hqA hpq
    rw [hsum, if_neg (by omega), hheight, Nat.add_sub_cancel, Node.txsUpTo, hbelow]
    rfl

lemma txsUpTo_le : ∀ i < A.length - 1, n.txsUpTo i ≤ n.txsUpTo (i + 1) := by
  intro i hi
  obtain ⟨h, p, hh, hp, hheight, he⟩ := N.exists_entryAt (i := i + 1) (by omega)
  have hsum := N.nChainTx_eq hh hp
  rw [if_neg (by omega), hheight, Nat.add_sub_cancel] at hsum
  have hup : n.txsUpTo (i + 1) = p.nChainTx := by rw [Node.txsUpTo, he]; rfl
  omega

end

/-- The height of a number: comparing the number with the counts of a block compares the heights. -/
def Slot (n : Node) (A : List ℕ) (txNum : UInt32) (t : ℕ) : Prop :=
  ∀ i ≤ A.length - 1, ∃ h p, h ∈ A ∧ n.index h = some p ∧ p.nHeight = i ∧
    n.entryAt i = some (h, p) ∧ (txNum < p.chainTx ↔ t ≤ i) ∧ (txNum < p.chainTxBefore ↔ t < i)

lemma exists_slot (N : Numbered env n A) (hfit : n.txsUpTo (A.length - 1) < 2 ^ 32)
    (hx : txNum.toNat < n.txsUpTo (A.length - 1)) :
    ∃ t ≤ A.length - 1, Slot n A txNum t := by
  have hlen : 0 < A.length := length_pos_of_ne_nil N.active.chain.ne_nil
  obtain ⟨t, ht, hslot⟩ := Bisect.exists_slot N.txsUpTo_le hx
  refine ⟨t, ht, fun i hi => ?_⟩
  obtain ⟨h, p, hh, hp, hheight, he⟩ := N.exists_entryAt (i := i) (by omega)
  have hup : n.txsUpTo i = p.nChainTx := by rw [Node.txsUpTo, he]; rfl
  have hsum := N.nChainTx_eq hh hp
  have hbits : p.nChainTx < 2 ^ 32 := hup ▸ (Bisect.le_of_growing N.txsUpTo_le hi le_rfl).trans_lt hfit
  refine ⟨h, p, hh, hp, hheight, he, ?_, ?_⟩
  · rw [UInt32.lt_iff_toNat_lt, toNat_chainTx hbits, ← hup]
    exact hslot i hi
  · rw [UInt32.lt_iff_toNat_lt, toNat_chainTxBefore hbits (by omega)]
    by_cases hi0 : i = 0
    · rw [if_pos (by omega)] at hsum
      omega
    · have hbelow := hslot (i - 1) (by omega)
      rw [if_neg (by omega), hheight] at hsum
      omega

/-! ### The search -/

lemma txNumStep_eq (S : Slot n A txNum t) {b e : ℕ} (hb : b ≤ A.length - 1)
    (he : e ≤ A.length - 1) :
    txNumStep n txNum (b, e) =
      (Bisect.step (compare t) (b, e)).map (fun s => ((s.1 : ℤ), (s.2 : ℤ))) n.entryAt := by
  obtain ⟨h, p, -, -, hheight, hentry, hlt, hbefore⟩ := S ((b + e) / 2) (by omega)
  have hfind : ((n.findBlockByHeight (((b : ℤ) + e) / 2)).bind fun h => (n.index h).map (h, ·)) =
      some (h, p) := by
    exact hentry
  unfold txNumStep
  simp only [hfind, hlt, hbefore, hheight]
  have hprobe : ∀ i ≤ A.length - 1, compare t i = compare t i := fun _ _ => rfl
  rcases Bisect.step_cases hprobe hb he with ⟨hc, hstep⟩ | ⟨hc, hstep⟩ | ⟨hc, hstep⟩
  · rw [hstep, if_pos hc]
    rfl
  · rw [hstep, if_neg (by omega), if_pos (by omega), ← hentry, ← hc]
    rfl
  · rw [hstep, if_neg (by omega), if_neg (by omega)]
    rfl

lemma doWhile_txNumStep (S : Slot n A txNum t) (fuel : ℕ) :
    doWhile (txNumStep n txNum) fuel (0, ((A.length - 1 : ℕ) : ℤ)) =
      (doWhile (Bisect.step (compare t)) fuel (0, A.length - 1)).map n.entryAt := by
  refine doWhile_simulates (f := fun s : ℕ × ℕ => ((s.1 : ℤ), (s.2 : ℤ)))
    (I := fun s => s.1 ≤ A.length - 1 ∧ s.2 ≤ A.length - 1) ?_ ?_ fuel
    (s := (0, A.length - 1)) ⟨Nat.zero_le _, le_rfl⟩
  · rintro ⟨b, e⟩ s' ⟨hb, he⟩ hs
    have hprobe : ∀ i ≤ A.length - 1, compare t i = compare t i := fun _ _ => rfl
    rcases Bisect.step_cases hprobe hb he with ⟨-, hstep⟩ | ⟨-, hstep⟩ | ⟨-, hstep⟩ <;>
      rw [hstep] at hs <;> cases hs
    · exact ⟨hb, by omega⟩
    · exact ⟨by omega, he⟩
  · rintro ⟨b, e⟩ ⟨hb, he⟩
    exact txNumStep_eq S hb he

section

variable (N : Numbered env n A)

include N

lemma exists_tip : ∃ a tip, n.pindexBest = some a ∧ a ∈ A ∧
    n.index a = some tip ∧ n.entryAt (A.length - 1) = some (a, tip) ∧
    n.nBestHeight = ((A.length - 1 : ℕ) : ℤ) := by
  have hchain := N.active.chain
  have hbest := N.active.best
  obtain ⟨a, l, rfl⟩ := exists_cons_of_ne_nil hchain.ne_nil
  obtain ⟨tip, htip⟩ := hchain.index_eq mem_cons_self
  have hheight := hchain.height N.tree
  rw [Ledger.heightOf_eq htip] at hheight
  refine ⟨a, tip, hbest, mem_cons_self, htip, ?_, ?_⟩
  · have := N.entryAt_eq mem_cons_self htip
    rwa [hheight] at this
  · rw [N.best]
    simp

lemma txNumToUsername_eq (S : Slot n A txNum t) (ht : t ≤ A.length - 1)
    (hentry : n.entryAt t = some (h, p)) (fuel : ℕ) :
    txNumToUsername env fuel n txNum =
      match doWhile (Bisect.step (compare t)) fuel (0, A.length - 1) with
      | none => none
      | some _ =>
        match n.readBlockFromDisk env h with
        | none => some none
        | some block =>
          (block.vtx[(txNum - p.chainTxBefore).toNat]?).map fun tx => some tx.getUsername := by
  obtain ⟨a, tip, hbest, -, htip, hlast, hheight⟩ := N.exists_tip
  obtain ⟨a', tip', -, -, -, hlast', hlt, -⟩ := S (A.length - 1) le_rfl
  rw [hlast] at hlast'
  cases hlast'
  have hin : ¬ tip.chainTx ≤ txNum := UInt32.not_le.mpr (hlt.mpr ht)
  unfold txNumToUsername
  rw [hbest, bind_some, htip]
  dsimp only
  rw [if_neg hin, hheight, doWhile_txNumStep S]
  cases hd : doWhile (Bisect.step (compare t)) fuel (0, A.length - 1) with
  | none => rfl
  | some r =>
    have hr : r = t := Bisect.eq_of_doWhile (fun _ _ => rfl) (Nat.zero_le _) le_rfl hd
    cases hread : n.readBlockFromDisk env h <;>
      simp [hr, hentry, hread]

lemma txIdx_lt (S : Slot n A txNum t) (ht : t ≤ A.length - 1)
    (hfit : p.nChainTx < 2 ^ 32) (hentry : n.entryAt t = some (h, p)) {block : CBlock}
    (hread : n.readBlockFromDisk env h = some block) :
    (txNum - p.chainTxBefore).toNat < block.vtx.length := by
  obtain ⟨h', p', hh, hp, -, hentry', hlt, hbefore⟩ := S t ht
  rw [hentry] at hentry'
  cases hentry'
  obtain ⟨b, hb, hsize⟩ := N.counted.size hp
  have hblock : block = b := by
    unfold Node.readBlockFromDisk at hread
    rw [hp] at hread
    dsimp only at hread
    rw [show n.blockFiles p.blockPos = some b from hb] at hread
    dsimp only at hread
    split_ifs at hread
    exact (some.inj hread).symm
  have hle := N.nChainTx_eq hh hp
  have hlo := UInt32.not_lt.mp (mt hbefore.mp (lt_irrefl t))
  have hhi := UInt32.lt_iff_toNat_lt.mp (hlt.mpr le_rfl)
  rw [UInt32.toNat_sub_of_le _ _ hlo, toNat_chainTxBefore hfit (by omega), hblock, ← hsize]
  rw [UInt32.le_iff_toNat_le, toNat_chainTxBefore hfit (by omega)] at hlo
  rw [toNat_chainTx hfit] at hhi
  omega

/-! ### Registered names -/

lemma registration_of_found {b : ℕ}
    (hfound : getTransaction env fuel n u (-1) = some (some (tx, b))) :
    b ∈ A ∧ n.ledger.registration b u = some tx := by
  rw [getTransaction_eq N.tree N.sound] at hfound
  obtain ⟨o, hwalk, ho⟩ := map_eq_some_iff.mp hfound
  obtain ⟨x, rfl, hx⟩ := bind_eq_some_iff.mp ho
  obtain ⟨tx', hreg, he⟩ := map_eq_some_iff.mp hx
  cases he
  refine ⟨?_, hreg⟩
  rw [← N.active.chain.isInMainChain_iff N.tree N.active.vec]
  refine doWhile_spec (I := fun _ => True)
    (Q := fun o : Option ℕ => ∀ x, o = some x → n.isInMainChain x = true)
    (fun _ _ _ _ => trivial) ?_ trivial hwalk b rfl
  -- a walk ends only at a block of the main chain
  rintro k _ - hstep x rfl
  unfold BackLink.walkStep at hstep
  split at hstep
  · cases hstep
  · rename_i y _
    by_cases hoff : n.isInMainChain y = true
    · have hxy : y = x := by
        split_ifs at hstep <;> cases hstep
        rfl
      rwa [← hxy]
    · rw [if_pos (by simpa using hoff)] at hstep
      cases hstep

lemma exists_txIdx (hh : h ∈ A) (hp : n.index h = some p)
    (hreg : n.ledger.registration h u = some tx) :
    p.pprev ≠ none ∧ ∃ block txIdx, n.readBlockFromDisk env h = some block ∧
      p.nTx = block.vtx.length ∧ txIdx < block.vtx.length ∧
      (block.vtx.findIdx? fun tx => tx.getUsername = u) = some txIdx ∧
      (block.vtx[txIdx]?).map CTransaction.getUsername = some u := by
  have hroot : p.pprev ≠ none := by
    intro hq
    have := N.tree.registers_root (u := u) hp hq
    simp [Ledger.registers, hreg] at this
  obtain ⟨block, B⟩ := N.tree.stored_block hp
  obtain ⟨block', hb', hsize⟩ := N.counted.size hp
  cases B.file.symm.trans hb'
  have hread := (readBlockFromDisk_of_stored B (N.work h hh p block B hroot)).2
  have hmem : tx ∈ block.vtx := by
    have := mem_of_find?_eq_some hreg
    rw [B.registrations_eq] at this
    exact mem_of_mem_tail this
  have hname := Ledger.registration_name hreg
  have hany : (block.vtx.any fun tx => tx.getUsername = u) = true :=
    any_eq_true.mpr ⟨tx, hmem, by simpa using hname⟩
  obtain ⟨txIdx, hidx⟩ := isSome_iff_exists.mp (List.findIdx?_isSome.trans hany)
  obtain ⟨hlt, hname', -⟩ := List.findIdx?_eq_some_iff_getElem.mp hidx
  refine ⟨hroot, block, txIdx, hread, hsize, hlt, hidx, ?_⟩
  rw [List.getElem?_eq_getElem hlt, map_some]
  simpa using hname'

lemma txNumToUsername_returns_iff (S : Slot n A txNum t)
    (ht : t ≤ A.length - 1) (hfit : n.txsUpTo (A.length - 1) < 2 ^ 32) :
    (∃ fuel r, txNumToUsername env fuel n txNum = some r) ↔
      t < A.length - 1 ∨ 0 = A.length - 1 := by
  obtain ⟨h, p, hh, hp, hheight, hentry, -, -⟩ := S t ht
  have hbits : p.nChainTx < 2 ^ 32 := by
    have := Bisect.le_of_growing N.txsUpTo_le ht le_rfl
    rw [Node.txsUpTo, hentry] at this
    exact this.trans_lt hfit
  have hprobe : ∀ i ≤ A.length - 1, compare t i = compare t i := fun _ _ => rfl
  rw [← Bisect.returns_iff hprobe (Nat.zero_le t) ht]
  constructor
  · rintro ⟨fuel, r, hr⟩
    rw [N.txNumToUsername_eq S ht hentry] at hr
    cases hd : doWhile (Bisect.step (compare t)) fuel (0, A.length - 1) with
    | none => simp [hd] at hr
    | some r' =>
      exact ⟨fuel, by rw [hd, Bisect.eq_of_doWhile hprobe (Nat.zero_le _) le_rfl hd]⟩
  · rintro ⟨fuel, hd⟩
    refine ⟨fuel, ?_⟩
    rw [N.txNumToUsername_eq S ht hentry, hd]
    cases hread : n.readBlockFromDisk env h with
    | none => exact ⟨none, rfl⟩
    | some block =>
      have hlt := N.txIdx_lt S ht hbits hentry hread
      dsimp only
      rw [List.getElem?_eq_getElem hlt]
      exact ⟨_, rfl⟩

lemma exists_number (hfit : n.txsUpTo (A.length - 1) < 2 ^ 32) {b : ℕ}
    (hfound : getTransaction env fuel n u (-1) = some (some (tx, b))) :
    ∃ p block txNum, n.index b = some p ∧ p.nHeight ≠ 0 ∧ p.nHeight ≤ A.length - 1 ∧
      n.entryAt p.nHeight = some (b, p) ∧
      usernameToTxNum env fuel n u true = some (some txNum.toInt32) ∧
      txNum.toNat < n.txsUpTo (A.length - 1) ∧ ¬ txNum < p.chainTxBefore ∧ txNum < p.chainTx ∧
      n.readBlockFromDisk env b = some block ∧
      (block.vtx[(txNum - p.chainTxBefore).toNat]?).map CTransaction.getUsername = some u := by
  obtain ⟨hb, hreg⟩ := N.registration_of_found hfound
  obtain ⟨p, hp⟩ : ∃ p, n.index b = some p := N.active.chain.index_eq hb
  obtain ⟨hroot, block, txIdx, hread, hsize, hlt, hidx, hname⟩ := N.exists_txIdx hb hp hreg
  have hentry := N.entryAt_eq hb hp
  have hlen : p.nHeight ≤ A.length - 1 := by
    have := N.active.chain.height_lt_length N.tree hb
    rw [Ledger.heightOf_eq hp] at this
    omega
  have hpos : p.nHeight ≠ 0 := by
    obtain ⟨q, hq⟩ := ne_none_iff_exists'.mp hroot
    obtain ⟨pq, -, hheight⟩ := N.tree.parent hp hq
    omega
  have hsum := N.nChainTx_eq hb hp
  have hgrow : p.nChainTx ≤ n.txsUpTo (A.length - 1) := by
    have := Bisect.le_of_growing N.txsUpTo_le hlen le_rfl
    rw [Node.txsUpTo, hentry] at this
    exact this
  have hbits : p.nChainTx < 2 ^ 32 := hgrow.trans_lt hfit
  have hbefore := toNat_chainTxBefore hbits (by omega)
  have hIdx : (UInt32.ofNat txIdx).toNat = txIdx :=
    UInt32.toNat_ofNat_of_lt' (show txIdx < 2 ^ 32 by omega)
  have hnum : (p.chainTxBefore + UInt32.ofNat txIdx).toNat = p.nChainTx - p.nTx + txIdx := by
    rw [UInt32.toNat_add, hbefore, hIdx, Nat.mod_eq_of_lt (by omega)]
  refine ⟨p, block, p.chainTxBefore + UInt32.ofNat txIdx, hp, hpos, hlen, hentry, ?_, by omega, ?_,
    ?_, hread, ?_⟩
  · unfold usernameToTxNum
    rw [if_neg (by decide), hfound]
    dsimp only
    rw [hp, hread]
    dsimp only
    rw [hidx]
  · rw [UInt32.lt_iff_toNat_lt, hbefore, hnum]
    omega
  · rw [UInt32.lt_iff_toNat_lt, toNat_chainTx hbits, hnum]
    omega
  · rw [UInt32.add_comm, UInt32.add_sub_cancel, hIdx]
    exact hname

end

end Numbered

/-- **Numbers of users.** The search for a number below that of the tip returns if and only if the
number does not belong to the tip, or the tip is the genesis block. The number of a registered
user leads back to the user if and only if the registration is not in the tip. -/
theorem txNum_roundTrip_iff {env : Env} {n : Node} {A : List ℕ} (N : Numbered env n A)
    {tip : CBlockIndex} (htip : n.pindexBest.bind n.index = some tip)
    (hfit : tip.nChainTx < 2 ^ 32) :
    (∀ txNum : UInt32, txNum.toNat < tip.nChainTx →
      ((∃ fuel r, txNumToUsername env fuel n txNum = some r) ↔
        n.nBestHeight = 0 ∨ txNum.toNat < tip.nChainTx - tip.nTx)) ∧
    ∀ u fuel tx b, getTransaction env fuel n u (-1) = some (some (tx, b)) →
      ∃ num, usernameToTxNum env fuel n u true = some (some num) ∧
        ((∃ f, txNumToUsername env f n num.toUInt32 = some (some u)) ↔
          n.pindexBest ≠ some b) := by
  obtain ⟨a, tip', hbest, ha, htip', hlast, hheight⟩ := N.exists_tip
  rw [hbest, bind_some, htip', some.injEq] at htip
  subst htip
  have hup : n.txsUpTo (A.length - 1) = tip'.nChainTx := by rw [Node.txsUpTo, hlast]; rfl
  have hle := N.nChainTx_eq ha htip'
  refine ⟨fun txNum hx => ?_, fun u fuel tx b hfound => ?_⟩
  · obtain ⟨t, ht, S⟩ := N.exists_slot (hup ▸ hfit) (hup ▸ hx)
    rw [N.txNumToUsername_returns_iff S ht (hup ▸ hfit), hheight]
    obtain ⟨h, p, -, -, -, hentry, -, hbefore⟩ := S (A.length - 1) le_rfl
    cases hlast.symm.trans hentry
    rw [UInt32.lt_iff_toNat_lt, toNat_chainTxBefore hfit (by omega)] at hbefore
    omega
  · obtain ⟨p, block, txNum, hp, hpos, hlen, hentry, hnum, hx, hlo, hhi, hread, hname⟩ :=
      N.exists_number (hup ▸ hfit) hfound
    refine ⟨txNum.toInt32, hnum, ?_⟩
    rw [UInt32.toUInt32_toInt32]
    obtain ⟨t, ht, S⟩ := N.exists_slot (hup ▸ hfit) hx
    obtain rfl : t = p.nHeight := by
      obtain ⟨h', p', -, -, -, hentry', hlt, hbefore⟩ := S p.nHeight hlen
      cases hentry.symm.trans hentry'
      exact le_antisymm (hlt.mp hhi) (not_lt.mp (mt hbefore.mpr hlo))
    have hback : (∃ f, txNumToUsername env f n txNum = some (some u)) ↔
        ∃ f r, txNumToUsername env f n txNum = some r := by
      refine ⟨fun ⟨f, hf⟩ => ⟨f, _, hf⟩, fun ⟨f, r, hf⟩ => ⟨f, ?_⟩⟩
      rw [N.txNumToUsername_eq S ht hentry, hread] at hf ⊢
      cases hd : doWhile (Bisect.step (compare p.nHeight)) f (0, A.length - 1) with
      | none => simp [hd] at hf
      | some r' =>
        obtain ⟨tx', htx', rfl⟩ := map_eq_some_iff.mp hname
        simp [htx']
    rw [hback, N.txNumToUsername_returns_iff S ht (hup ▸ hfit), hbest, Ne, some.injEq]
    constructor
    · rintro h rfl
      obtain ⟨h', p', -, -, hheight', hentry', -, -⟩ := S (A.length - 1) le_rfl
      cases hlast.symm.trans hentry'
      cases hp.symm.trans htip'
      omega
    · intro hne
      refine Or.inl (lt_of_le_of_ne hlen fun he => hne ?_)
      rw [he, hlast] at hentry
      cases hentry
      rfl

end

namespace Toy

def userBelowTip : Option Node := userInTip.bind (extendFree env · (block 3 2 2 spam []))

end Toy

open Toy in
/-- The number of a user who is registered below the tip leads back to the user. -/
theorem txNum_roundTrip_belowTip : ∃ n num, Reached Toy.env (SwitchesClean Toy.env) n ∧
    n.pindexBest = some 3 ∧ usernameToTxNum Toy.env 5 n alice true = some (some num) ∧
    ∃ f, txNumToUsername Toy.env f n num.toUInt32 = some (some alice) := by
  have h : userBelowTip.map (fun n => (n.pindexBest, (n.pindexBest.bind n.index).map
      nChainTx, getTransaction Toy.env 5 n alice (-1))) =
      some (some 3, some 4, some (some (register alice key1, 2))) := by
    decide +kernel
  obtain ⟨n, hn, he⟩ := map_eq_some_iff.mp h
  simp only [Prod.mk.injEq] at he
  obtain ⟨hbest, htip, hfound⟩ := he
  obtain ⟨tip, htip, hcount⟩ := map_eq_some_iff.mp htip
  obtain ⟨m, hm, hext⟩ := bind_eq_some_iff.mp hn
  have hr := reached_extendFree (reached_userInTip hm) hext
  obtain ⟨A, I⟩ := hr.intact
  obtain ⟨num, hnum, hiff⟩ := (txNum_roundTrip_iff (I.settled.numbered hr.counted) htip
    (by rw [hcount]; decide)).2 _ _ _ _ hfound
  exact ⟨n, num, hr, hbest, hnum, hiff.mpr (by rw [hbest]; decide)⟩

open Toy in
/-- The search for the number of a user who is registered in the tip does not return. -/
theorem txNum_diverges_inTip : ∃ n, Reached Toy.env (SwitchesClean Toy.env) n ∧
    n.pindexBest = some 2 ∧ (n.pindexBest.bind n.index).map nChainTx = some 3 ∧
    getTransaction Toy.env 5 n alice (-1) = some (some (register alice key1, 2)) ∧
    usernameToTxNum Toy.env 5 n alice true = some (some 2) ∧
    ∀ fuel, txNumToUsername Toy.env fuel n 2 = none := by
  have h : userInTip.map (fun n => (n.pindexBest, (n.pindexBest.bind n.index).map
      nChainTx, getTransaction Toy.env 5 n alice (-1))) =
      some (some 2, some 3, some (some (register alice key1, 2))) := by
    decide +kernel
  have h' : userInTip.map (fun n => (n.nBestHeight, usernameToTxNum Toy.env 5 n alice true,
      (txNumStep n 2 (0, 1)).getLeft?)) = some (1, some (some 2), some (0, 1)) := by
    decide +kernel
  obtain ⟨n, hn, he⟩ := map_eq_some_iff.mp h
  rw [hn, map_some, some.injEq] at h'
  simp only [Prod.mk.injEq, Sum.getLeft?_eq_some_iff] at he h'
  obtain ⟨hbest, htip, hfound⟩ := he
  obtain ⟨hheight, hnum, hstep⟩ := h'
  refine ⟨n, reached_userInTip hn, hbest, htip, hfound, hnum, fun fuel => ?_⟩
  obtain ⟨tip, htip, hcount⟩ := map_eq_some_iff.mp htip
  unfold txNumToUsername
  rw [htip]
  dsimp only
  rw [if_neg (by rw [chainTx, hcount]; decide), hheight, doWhile_stuck hstep]
  rfl

end FreechCore
