import FreechCore.Chain.Load
import FreechCore.Registry.Grow

/-!
What a node reads back when it is started again. The database has a record of every block of
the tree, a record holds the header of its block, and work adds up along a chain: so the tree
comes back as it was, and the chain of the stored best block is entered into the vector.
-/

namespace FreechCore

open List Option

/-- The header that an entry of the tree holds. -/
def CBlockIndex.header (p : CBlockIndex) : CBlockHeader where
  nVersion := p.nVersion
  nHeight := p.nHeight
  hashPrevBlock := p.pprev.getD 0
  hashMerkleRoot := p.hashMerkleRoot
  nTime := p.nTime
  nBits := p.nBits
  nNonce := p.nNonce

/-- Work and transactions of an entry, added up on top of its parent. -/
def Ledger.worked (L : Ledger) (p : CBlockIndex) : CBlockIndex :=
  { p with
    nChainWork := ((p.pprev.bind L.index).map CBlockIndex.nChainWork).getD 0 + getBlockWork p.nBits
    nChainTx := ((p.pprev.bind L.index).map CBlockIndex.nChainTx).getD 0 + p.nTx }

/-- Everything about the block tree can be read back: it is on disk, and entries hold the
headers of their blocks and the sums of work. -/
structure Node.Durable (n : Node) (env : Env) : Prop where
  disk : n.OnDisk
  hash : ∀ h p, n.index h = some p → env.hashHeader p.header = h
  worked : ∀ h p, n.index h = some p → n.ledger.worked p = p

/-! ### What keeps the tree durable -/

variable {env : Env} {n : Node} {h : ℕ}

variable {b : CBlock} {pos : CDiskBlockPos} {s s' : Node} {P l : List ℕ}

section Keeps

variable {n' : Node}

lemma Node.Durable.congr (D : n.Durable env) (hL : n'.ledger = n.ledger) (hd : n'.OnDisk) :
    n'.Durable env := by
  refine ⟨hd, ?_, ?_⟩
  · rw [Node.index_congr hL]
    exact D.hash
  · rw [Node.index_congr hL, hL]
    exact D.worked

lemma store_disk (hd : n.OnDisk) : (n.store env b pos).OnDisk := by
  refine hd.writeBlockIndex (fun h => ?_) rfl fun h hne => ⟨if_neg hne, if_neg hne⟩
  by_cases he : h = getHash env b
  · refine Or.inr ⟨he, ?_⟩
    simp [Node.index, he]
  · refine Or.inl ?_
    exact (StdMap.find?_insert _ _ _ _).trans (if_neg he)

lemma Node.Fits.durable (F : n.Fits env b pos) (D : n.Durable env) (T : n.ledger.Tree env) :
    (n.store env b pos).Durable env := by
  obtain ⟨pp, hpp, hH⟩ := F.parent
  have hold : ∀ {h p}, n.index h = some p → (n.store env b pos).index h = some p := fun hp =>
    F.grows.index hp
  refine ⟨store_disk D.disk, fun h p hp => ?_, fun h p hp => ?_⟩
  · rw [store_index] at hp
    split_ifs at hp with he
    · have hhead : (n.newBlockIndex b pos).header = b.toCBlockHeader := by
        simp only [CBlockIndex.header, Node.newBlockIndex, hpp, map_some, getD_some]
        rw [show ((pp.nHeight + 1 : ℕ) : ℤ) = b.nHeight by rw [hH]; rfl]
      rw [← some.inj hp, hhead, he]
      rfl
    · exact D.hash h p hp
  · rw [store_index] at hp
    split_ifs at hp with he
    · have hpp' : (n.store env b pos).ledger.index b.hashPrevBlock = some pp := hold hpp
      rw [← some.inj hp]
      simp [Ledger.worked, Node.newBlockIndex, hpp, hpp']
    · have hprev : p.pprev.bind (n.store env b pos).ledger.index = p.pprev.bind n.ledger.index := by
        cases hq : p.pprev with
        | none => rfl
        | some q =>
          obtain ⟨pq, hpq, -⟩ := T.parent hp hq
          exact (hold hpq).trans hpq.symm
      have := D.worked h p hp
      unfold Ledger.worked at this ⊢
      rw [hprev]
      exact this

end Keeps

/-- An entry before its work is added up. -/
def CBlockIndex.unworked (p : CBlockIndex) : CBlockIndex := { p with nChainWork := 0, nChainTx := 0 }

/-! ### The records -/

section Records

variable {p : CBlockIndex}

/-- The records of the blocks `P` have been read into `s`; other entries are at most made. -/
structure ReadBack (n : Node) (P : List ℕ) (s : Node) : Prop where
  done : ∀ h ∈ P, ∃ p, n.index h = some p ∧ s.index h = some p.unworked
  status : ∀ h ∈ P, s.nStatus h = n.nStatus h ∧ s.undo h = n.undo h
  sound : ∀ h, (s.index h).isSome = true → (n.index h).isSome = true
  made : ∀ h, h ∉ P → s.index h = none ∨ s.index h = some .null
  rest : s = { n.stopped with
    mapBlockIndex := s.mapBlockIndex, nStatus := s.nStatus, undo := s.undo }

lemma find?_insertBlockIndex (m : StdMap ℕ CBlockIndex) (hash k : ℕ) :
    (insertBlockIndex m hash).find? k =
      if k = hash ∧ hash ≠ 0 ∧ m.find? k = none then some .null else m.find? k := by
  unfold insertBlockIndex
  by_cases hk : k = hash
  · subst hk
    by_cases h0 : k = 0
    · simp [h0]
    · cases hf : m.find? k <;> simp [h0, hf, StdMap.contains]
  · simp only [hk, false_and, if_false]
    split_ifs
    · rfl
    · simp [hk]

section

variable (D : n.Durable env) (hz : n.index 0 = none) (T : n.ledger.Tree env)

include D hz T

lemma loadRecord_eq (R : ReadBack n P s) (hp : n.index h = some p) (hh : h ∉ P) :
    ∃ s', loadRecord env s (n.diskBlockIndex h p) = some s' ∧ ReadBack n (h :: P) s' := by
  have hhash : (n.diskBlockIndex h p).getBlockHash env = h := D.hash h p hp
  have h0 : h ≠ 0 := fun e => by rw [e, hz] at hp; cases hp
  have hq : ∀ q, p.pprev = some q → q ≠ 0 ∧ (n.index q).isSome = true := by
    intro q hq
    obtain ⟨pq, hpq, -⟩ := T.parent hp hq
    replace hpq : n.index q = some pq := hpq
    refine ⟨fun e => ?_, by simp [hpq]⟩
    rw [e, hz] at hpq
    cases hpq
  have hptr : blockPtr (p.pprev.getD 0) = p.pprev := by
    cases hpp : p.pprev with
    | none => rfl
    | some q => simp [blockPtr, (hq q hpp).1]
  have hnull : (insertBlockIndex (insertBlockIndex s.mapBlockIndex h) (p.pprev.getD 0)).find? h =
      some .null := by
    have h₁ : (insertBlockIndex s.mapBlockIndex h).find? h = some .null := by
      rw [find?_insertBlockIndex]
      rcases R.made h hh with hm | hm <;> replace hm : s.mapBlockIndex.find? h = _ := hm <;>
        simp [hm, h0]
    simp [find?_insertBlockIndex, h₁]
  have hload : loadRecord env s (n.diskBlockIndex h p) = some { s with
      mapBlockIndex := (insertBlockIndex (insertBlockIndex s.mapBlockIndex h)
        (p.pprev.getD 0)).insert h p.unworked
      nStatus := fun h' => if h' = h then n.nStatus h else s.nStatus h'
      undo := fun h' => if h' = h then n.undo h else s.undo h' } := by
    have hb : (blockPtr h).bind (insertBlockIndex (insertBlockIndex s.mapBlockIndex h)
        (p.pprev.getD 0)).find? = some .null := by
      rw [blockPtr, if_neg h0, bind_some, hnull]
    have hprev : (n.diskBlockIndex h p).hashPrev = p.pprev.getD 0 := rfl
    unfold loadRecord
    simp only [hhash, hprev, hb, hptr]
    rfl
  -- another entry is as it was, or is made now for the parent
  have hother : ∀ k, k ≠ h → ((insertBlockIndex (insertBlockIndex s.mapBlockIndex h)
      (p.pprev.getD 0)).insert h p.unworked).find? k = s.index k ∨ (s.index k = none ∧
        p.pprev = some k ∧ ((insertBlockIndex (insertBlockIndex s.mapBlockIndex h)
      (p.pprev.getD 0)).insert h p.unworked).find? k = some .null) := by
    intro k hk
    rw [StdMap.find?_insert, if_neg hk, find?_insertBlockIndex, find?_insertBlockIndex]
    simp only [hk, false_and, if_false]
    split_ifs with hc
    · refine Or.inr ⟨hc.2.2, ?_, rfl⟩
      cases hpp : p.pprev with
      | none => rw [hpp] at hc; exact absurd rfl hc.2.1
      | some q => rw [hpp] at hc; exact congrArg some hc.1.symm
    · exact Or.inl rfl
  refine ⟨_, hload, ⟨fun k hk => ?_, fun k hk => ?_, fun k hk => ?_, fun k hk => ?_, ?_⟩⟩
  · by_cases hkh : k = h
    · subst hkh
      exact ⟨p, hp, (StdMap.find?_insert _ _ _ _).trans (if_pos rfl)⟩
    · obtain ⟨pk, hpk, hsk⟩ := R.done k ((mem_cons.mp hk).resolve_left hkh)
      rcases hother k hkh with he | ⟨he, -⟩
      · exact ⟨pk, hpk, he.trans hsk⟩
      · rw [he] at hsk
        cases hsk
  · by_cases hkh : k = h
    · simp [hkh]
    · simp only [if_neg hkh]
      exact R.status k ((mem_cons.mp hk).resolve_left hkh)
  · by_cases hkh : k = h
    · simp [hkh, hp]
    · rcases hother k hkh with he | ⟨-, hpk, -⟩
      · exact R.sound k (he ▸ hk)
      · exact (hq k hpk).2
  · rw [mem_cons, not_or] at hk
    rcases hother k hk.1 with he | ⟨-, -, he⟩
    · rcases R.made k hk.2 with hm | hm
      · exact Or.inl (he.trans hm)
      · exact Or.inr (he.trans hm)
    · exact Or.inr he
  · rw [R.rest]

lemma loadRecords_eq {es : List (ℕ × CDiskBlockIndex)} (R : ReadBack n P s)
    (hes : ∀ e ∈ es, ∃ p, n.index e.1 = some p ∧ e.2 = n.diskBlockIndex e.1 p)
    (hnd : (es.map Prod.fst).Nodup) (hP : ∀ e ∈ es, e.1 ∉ P) :
    ∃ s' Q, loadRecords env s (es.map Prod.snd) = some s' ∧ ReadBack n Q s' ∧
      ∀ h, h ∈ Q ↔ h ∈ P ∨ h ∈ es.map Prod.fst := by
  induction es generalizing s P with
  | nil => exact ⟨s, P, rfl, R, by simp⟩
  | cons e es ih =>
    obtain ⟨h, d⟩ := e
    obtain ⟨p, hp, hd⟩ := hes (h, d) mem_cons_self
    simp only at hp hd
    subst hd
    rw [map_cons, nodup_cons] at hnd
    obtain ⟨s₁, h₁, R₁⟩ := loadRecord_eq D hz T R hp (hP _ mem_cons_self)
    obtain ⟨s', Q, h', R', hQ⟩ := ih R₁ (fun e he => hes e (mem_cons_of_mem _ he)) hnd.2
      (fun e he hmem => by
        rcases mem_cons.mp hmem with rfl | hmem
        · exact hnd.1 (mem_map.mpr ⟨e, he, rfl⟩)
        · exact hP e (mem_cons_of_mem _ he) hmem)
    refine ⟨s', Q, ?_, R', fun k => ?_⟩
    · simp only [map_cons, loadRecords, h₁]
      exact h'
    · rw [hQ]
      simp only [mem_cons, map_cons]
      tauto

lemma loadBlockIndexGuts_eq : ∃ s, loadBlockIndexGuts env n.stopped = some s ∧
      (∀ h, s.index h = (n.index h).map CBlockIndex.unworked) ∧
      (∀ h p, n.index h = some p → s.nStatus h = n.nStatus h ∧ s.undo h = n.undo h) ∧
      s = { n.stopped with mapBlockIndex := s.mapBlockIndex, nStatus := s.nStatus, undo := s.undo } := by
  have R : ReadBack n [] n.stopped :=
    ⟨by simp, by simp, fun h hh => (by cases hh), fun h _ => Or.inl rfl, rfl⟩
  have hes : ∀ e ∈ n.blockTree.entries, ∃ p, n.index e.1 = some p ∧ e.2 = n.diskBlockIndex e.1 p := by
    intro e he
    have hd := D.disk e.1
    rw [StdMap.mem_entries_iff.mp he] at hd
    obtain ⟨p, hp, hpe⟩ := map_eq_some_iff.mp hd.symm
    exact ⟨p, hp, hpe.symm⟩
  obtain ⟨s, Q, hs, R, hQ⟩ := loadRecords_eq D hz T R hes n.blockTree.nodup_keys (by simp)
  have hall : ∀ h p, n.index h = some p → h ∈ Q := by
    intro h p hp
    refine (hQ h).mpr (Or.inr (StdMap.mem_keys_iff.mpr ?_))
    rw [D.disk, hp]
    rfl
  refine ⟨s, hs, fun h => ?_, fun h p hp => R.status h (hall h p hp), R.rest⟩
  cases hp : n.index h with
  | none =>
    cases hs : s.index h with
    | none => rfl
    | some q =>
      have := R.sound h (by simp [hs])
      rw [hp] at this
      cases this
  | some p =>
    obtain ⟨q, hq, hsq⟩ := R.done h (hall h p hp)
    cases hp.symm.trans hq
    exact hsq

end

end Records

/-! ### Work -/

/-- The work of the blocks `P` is added up. -/
def Worked (n : Node) (P : List ℕ) (s : Node) : Prop :=
  ∀ h, s.index h = if h ∈ P then n.index h else (n.index h).map CBlockIndex.unworked

lemma Worked.step (D : n.Durable env) (W : Worked n P s) (hP : h ∉ P)
    (hq : ∀ p q, n.index h = some p → p.pprev = some q → q ∈ P) :
    Worked n (h :: P) (addChainWork s h) := by
  have hs := W h
  rw [if_neg hP] at hs
  cases hp : n.index h with
  | none =>
    have hno : addChainWork s h = s := by
      rw [hp] at hs
      simp [addChainWork, hs]
    intro k
    rw [hno, W k]
    by_cases hk : k = h
    · simp [hk, hp]
    · simp [hk]
  | some p =>
    have hprev : p.pprev.bind s.index = p.pprev.bind n.index := by
      cases hpp : p.pprev with
      | none => rfl
      | some q => rw [bind_some, bind_some, W q, if_pos (hq p q hp hpp)]
    have hw : (addChainWork s h).mapBlockIndex = s.mapBlockIndex.insert h p := by
      rw [hp] at hs
      have hD := D.worked h p hp
      unfold addChainWork
      simp only [hs, map_some, CBlockIndex.unworked, hprev]
      exact congrArg _ hD
    intro k
    unfold Node.index
    rw [hw, StdMap.find?_insert]
    by_cases hk : k = h
    · simp only [hk, if_true, mem_cons_self]
      exact hp.symm
    · simp only [hk, if_false, mem_cons, false_or]
      exact W k

lemma addChainWork_rest (s : Node) (h : ℕ) : addChainWork s h = { s with
    mapBlockIndex := (addChainWork s h).mapBlockIndex
    setBlockIndexValid := (addChainWork s h).setBlockIndexValid } := by
  unfold addChainWork
  split <;> rfl

lemma Worked.foldl (D : n.Durable env) (T : n.ledger.Tree env) {hs : List ℕ} (W : Worked n P s)
    (hnd : hs.Nodup) (hdis : ∀ h ∈ hs, h ∉ P) (hall : ∀ h p, n.index h = some p → h ∈ P ∨ h ∈ hs)
    (hsort : hs.Pairwise fun a b => n.heightOf a ≤ n.heightOf b) :
    (∀ h, (hs.foldl addChainWork s).index h = n.index h) ∧
      hs.foldl addChainWork s = { s with
        mapBlockIndex := (hs.foldl addChainWork s).mapBlockIndex
        setBlockIndexValid := (hs.foldl addChainWork s).setBlockIndexValid } := by
  induction hs generalizing s P with
  | nil =>
    refine ⟨fun h => (W h).trans ?_, rfl⟩
    split_ifs with hh
    · rfl
    · cases hp : n.index h with
      | none => rfl
      | some p => exact absurd ((hall h p hp).resolve_right (by simp)) hh
  | cons h hs ih =>
    obtain ⟨hh, hnd'⟩ := nodup_cons.mp hnd
    obtain ⟨hle, hsort'⟩ := pairwise_cons.mp hsort
    have hq : ∀ p q, n.index h = some p → p.pprev = some q → q ∈ P := by
      intro p q hp hpq
      obtain ⟨pq, hpq', hht⟩ := T.parent hp hpq
      have hlt : n.heightOf q < n.heightOf h := by
        replace hpq' : n.index q = some pq := hpq'
        simp [Node.heightOf, hp, hpq', hht]
      refine (hall q pq hpq').resolve_right fun hm => ?_
      rcases mem_cons.mp hm with rfl | hm
      · exact lt_irrefl _ hlt
      · exact absurd (hle q hm) (not_le.mpr hlt)
    obtain ⟨h1, h2⟩ := ih (W.step D (hdis h mem_cons_self) hq) hnd'
      (fun k hk hkP => by
        rcases mem_cons.mp hkP with rfl | hkP
        · exact hh hk
        · exact hdis k (mem_cons_of_mem _ hk) hkP)
      (fun k p hp => by
        rcases hall k p hp with hm | hm
        · exact Or.inl (mem_cons_of_mem _ hm)
        · rcases mem_cons.mp hm with rfl | hm
          · exact Or.inl mem_cons_self
          · exact Or.inr hm) hsort'
    refine ⟨h1, ?_⟩
    rw [foldl_cons, h2, addChainWork_rest]

/-! ### The active chain -/

lemma registerChain_eq (T : n.ledger.Tree env) (hl : n.ledger.Chain (h :: l)) (v : List (Option ℕ)) :
    registerChain n (l.length + 1) (some h)
      (List.replicate (l.length + 1) none ++ v) = some ((h :: l).reverse.map some ++ v) := by
  induction l generalizing h v with
  | nil =>
    have hh : n.heightOf h = 0 := hl.height T
    cases hl with
    | root hp hq =>
      have hpp : n.pprev h = none := by
        replace hp : n.index h = _ := hp
        simp [Node.pprev, hp, hq]
      simp [registerChain, hpp, hh]
  | cons q l ih =>
    have hh : n.heightOf h = (q :: l).length := hl.height T
    have hpp : n.pprev h = some q := hl.pprev_eq
    have hset : (List.replicate ((q :: l).length + 1) none ++ v).set (n.heightOf h) (some h) =
        List.replicate (l.length + 1) none ++ (some h :: v) := by
      rw [hh, replicate_succ', append_assoc, set_append_right _ _ (by simp)]
      simp
    rw [registerChain, hset, hpp]
    refine (ih (hl.of_cons (by simp)) (some h :: v)).trans ?_
    simp

/-- What is the same after a restart, and what the active chain is. -/
structure Reloaded (n : Node) (L : List ℕ) (n' : Node) : Prop where
  ledger : n'.ledger = n.ledger
  txIndex : n'.txIndex = n.txIndex
  status : ∀ h p, n.index h = some p → n'.nStatus h = n.nStatus h ∧ n'.undo h = n.undo h
  vec : n'.vBlockIndexByHeight = L.reverse.map some
  height : n'.nBestHeight = (L.length : ℤ) - 1
  coins : n'.coinsTip = L.head?
  best : n'.pindexBest = L.head?

/-- **A node that is started again** has its block tree back, and the chain of the stored best
block is active; no block may have the hash `0`, which stands for none. -/
theorem loadBlockIndexDB_eq (D : n.Durable env) (hz : n.index 0 = none) (T : n.ledger.Tree env)
    {t : ℕ} (hl : n.ledger.Chain (t :: l)) (hdb : n.coinsDB = some t) :
    ∃ n', loadBlockIndexDB env n.stopped = some n' ∧ Reloaded n (t :: l) n' := by
  obtain ⟨s, hs, hidx, hstat, hrest⟩ := loadBlockIndexGuts_eq D hz T
  have hheight : ∀ h, s.heightOf h = n.heightOf h := by
    intro h
    unfold Node.heightOf
    rw [hidx]
    cases n.index h <;> rfl
  have hkeys : ∀ h, h ∈ s.sortedByHeight ↔ (n.index h).isSome = true := by
    intro h
    rw [Node.sortedByHeight, mem_insertionSort, StdMap.mem_keys_iff]
    rw [show s.mapBlockIndex.find? h = _ from hidx h, isSome_map]
  have hsort : s.sortedByHeight.Pairwise fun a b => n.heightOf a ≤ n.heightOf b := by
    exact (pairwise_insertionSort _ s.mapBlockIndex.keys).imp fun {a b} hab => by
      rwa [hheight, hheight] at hab
  have hnd : s.sortedByHeight.Nodup :=
    (perm_insertionSort _ _).nodup_iff.mpr s.mapBlockIndex.nodup_keys
  have W : Worked n [] s := fun h => by simp [hidx]
  obtain ⟨hidx', hrest'⟩ := W.foldl D T hnd (by simp)
    (fun h p hp => Or.inr ((hkeys h).mpr (by simp [hp]))) hsort
  generalize hw : s.sortedByHeight.foldl addChainWork s = w at hidx' hrest'
  rw [hrest] at hrest'
  have hL : w.ledger = n.ledger := by
    have hf : w.blockFiles = n.blockFiles := by rw [hrest']; rfl
    unfold Node.ledger
    rw [hf, show w.index = n.index from funext hidx']
  have hcoins : w.coinsDB = some t := by rw [hrest']; exact hdb
  have hvec : w.vBlockIndexByHeight = [] := by rw [hrest']; rfl
  have hcont : w.mapBlockIndex.contains t = true := by
    obtain ⟨p, hp⟩ := hl.index_eq mem_cons_self
    rw [StdMap.contains_iff]
    exact ⟨p, (hidx' t).trans hp⟩
  have hlen : w.heightOf t = l.length := (hL ▸ hl).height (hL ▸ T)
  have hreg := registerChain_eq (hL ▸ T) (hL ▸ hl) []
  rw [append_nil, append_nil] at hreg
  refine ⟨{ w with
    coinsTip := some t, pindexBest := some t, nBestHeight := w.heightOf t
    vBlockIndexByHeight := (t :: l).reverse.map some }, ?_, ⟨hL, ?_, fun h p hp => ?_, rfl, ?_, rfl, rfl⟩⟩
  · unfold loadBlockIndexDB
    simp only [hs, hw, hcoins, hcont, Bool.true_eq_false, if_false, hvec, hlen]
    rw [show resize (l.length + 1) [] = List.replicate (l.length + 1) none by simp [resize], hreg]
    rfl
  · rw [hrest']
    rfl
  · have h1 : w.nStatus h = s.nStatus h := by rw [hrest']
    have h2 : w.undo h = s.undo h := by rw [hrest']
    obtain ⟨h3, h4⟩ := hstat h p hp
    exact ⟨h1.trans h3, h2.trans h4⟩
  · simp [hlen]

end FreechCore
