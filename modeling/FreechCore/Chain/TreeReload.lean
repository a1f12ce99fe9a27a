import FreechCore.Checkpoint.Aligned

/-!
The block tree of a node that is started again. Whatever changes the status of a block writes its
record, and a block is a candidate for the best chain as long as it has not failed. So the records
hold everything that the tree is made of, and reading them back after a clean shutdown gives the
tree, the candidates and the active chain that were in memory.
-/

namespace FreechCore

open BlockStatus List Relation

variable {x fuel : ℕ} {now : ℤ}

/-! ### What the records hold -/

/-- The database is up to date, the transactions of every block of the tree were checked, and the
candidates for the best chain are the blocks that have not failed. -/
structure Node.Tracked (n : Node) : Prop where
  disk : n.OnDisk
  valid : ∀ h, (n.index h).isSome = true → validTransactions ≤ (n.nStatus h).valid
  candidates : ∀ h, h ∈ n.setBlockIndexValid ↔
    (n.index h).isSome = true ∧ (n.nStatus h).failed = false

section

variable {env : Env} {n n' : Node}

lemma Node.Tracked.frame (K : n.Tracked) (hF : n.Frame n')
    (hv : ∀ h, validTransactions ≤ (n.nStatus h).valid →
      validTransactions ≤ (n'.nStatus h).valid) : n'.Tracked := by
  have hi := Node.index_congr hF.ledger
  refine ⟨hF.disk K.disk, fun h hh => hv h (K.valid h (hi ▸ hh)), fun h => ?_⟩
  rw [hF.candidates, hF.failed, hi]
  exact K.candidates h

lemma Node.Tracked.mark (K : n.Tracked) {a : ℕ} (hL : n'.ledger = n.ledger) (hd : n'.OnDisk)
    (hs : n'.setBlockIndexValid = n.setBlockIndexValid.filter (· ≠ a))
    (hf : ∀ h, (n'.nStatus h).failed = true ↔ h = a ∨ (n.nStatus h).failed = true)
    (hv : ∀ h, (n'.nStatus h).valid = (n.nStatus h).valid) : n'.Tracked := by
  have hi := Node.index_congr hL
  refine ⟨hd, fun h hh => ?_, fun h => ?_⟩
  · rw [hv]
    exact K.valid h (hi ▸ hh)
  · rw [hs, mem_filter, K.candidates, hi, ← Bool.not_eq_true, ← Bool.not_eq_true, hf]
    simp only [ne_eq, decide_not, Bool.not_eq_true', decide_eq_false_iff_not]
    tauto

lemma setStatus_valid {h : ℕ} (hv : validTransactions ≤ (n.nStatus h).valid) : validTransactions ≤
      ((n.setStatus x fun s => { s with valid := validScripts }).nStatus h).valid := by
  unfold Node.setStatus
  dsimp only
  split_ifs
  · exact (by decide : validTransactions ≤ validScripts)
  · exact hv

lemma writeUndo_valid {k h : ℕ} (hv : validTransactions ≤ (n.nStatus h).valid) :
    validTransactions ≤ ((writeUndo n x k).nStatus h).valid := by
  unfold writeUndo
  split_ifs
  · rw [Node.writeBlockIndex_nStatus]
    exact setStatus_valid hv
  · rw [Node.writeBlockIndex_nStatus]
    exact setStatus_valid hv
  · exact hv

lemma connectBlock_valid {view view' : Option ℕ} {p : CBlockIndex} {b : CBlock} {chk : Check}
    (hc : connectBlock env fuel now n view x p b false = some (n', view', chk)) (h : ℕ)
    (hv : validTransactions ≤ (n.nStatus h).valid) :
    validTransactions ≤ (n'.nStatus h).valid := by
  cases chk with
  | error f =>
    rw [(connectBlock_refused hc).1]
    exact hv
  | ok u =>
    by_cases hg : getHash env b = hashGenesisBlock env
    · rw [(connectBlock_genesis hg hc).1]
      exact hv
    · obtain ⟨n₁, C, -, rfl⟩ := connectBlock_ok hg hc
      refine writeUndo_valid ?_
      rw [(checkOverwrite_indexOnly C.overwrite).1]
      exact hv

lemma Node.Tracked.across (env : Env) : Across env fun n n' => n.Tracked → n'.Tracked where
  refl := fun _ => id
  trans := fun h h' => h' ∘ h
  disconnect := fun hd K => K.frame (disconnectBlock_indexOnly hd).frame fun h hv => by
    rw [disconnectBlock_indexOnly hd]
    exact hv
  connect := fun _ _ hc K => K.frame (connectBlock_frame hc) (connectBlock_valid hc)
  child := fun n h K => K.mark (Node.SameChain.markFailedChild n h).ledger
    (markFailedChild_disk K.disk h) (by simp [markFailedChild, Node.eraseValid, Node.setStatus])
    (fun _ => markFailedChild_failed) fun h' => by
      rw [markFailedChild, Node.writeBlockIndex_nStatus]
      simp only [Node.eraseValid, Node.setStatus]
      split_ifs with he
      · rw [he]
      · rfl
  valid := fun n h K => K.mark (Marked.markFailedValid n h).same.ledger
    ((Marked.markFailedValid n h).disk K.disk)
    (by simp [markFailedValid, Node.eraseValid, Node.setStatus])
    (markFailedValid_failed n h) fun h' => by
      simp only [markFailedValid, Node.eraseValid, Node.writeBlockIndex_nStatus, Node.setStatus]
      split_ifs with he
      · rw [he]
      · rfl
  switch := fun hs K => by
    rw [switchTo_eq hs]
    exact ⟨K.disk, K.valid, K.candidates⟩

lemma Node.Tracked.store (K : n.Tracked) (env : Env) (b : CBlock) (pos : CDiskBlockPos) :
    (n.store env b pos).Tracked := by
  have hst := store_stores n env b pos
  have hstatus : ∀ h, (n.store env b pos).nStatus h = if h = getHash env b
      then ⟨validTransactions, false, false⟩ else n.nStatus h := by
    intro h
    unfold Node.store Node.insertBlockIndex
    rw [Node.writeBlockIndex_nStatus]
    rfl
  refine ⟨store_disk K.disk, fun h hh => ?_, fun h => ?_⟩
  · rw [hstatus]
    rw [store_index] at hh
    split_ifs at hh ⊢
    · exact le_rfl
    · exact K.valid h hh
  · rw [hst.candidates, hstatus, store_index, mem_cons]
    split_ifs with he
    · simp [he, failed]
    · rw [K.candidates]
      simp [he]

lemma Started.tracked (h : Started env n) : n.Tracked := by
  obtain ⟨fuel, rounds, now, fIBD, pos, hi⟩ := h
  obtain ⟨w, hs⟩ := initBlockIndex_eq hi
  have K₀ : Node.start.Tracked :=
    ⟨fun _ => rfl, fun h hh => (by cases hh), fun h => ⟨fun hh => (by cases hh), fun hh => by
      cases hh.1⟩⟩
  exact (Node.Tracked.across env).switch hs (K₀.store env (genesisBlock env) pos)

/-! ### Runs -/

/-- The block of the soft checkpoint, if there is one and it is known, is in the main chain, so
that there is nothing for `SetSoftCPBestChain` to do. -/
def Node.SoftCPIdle (n : Node) : Prop :=
  n.lastSoftCP.1 = 0 ∨ n.mapBlockIndex.contains n.lastSoftCP.2 = false ∨
    n.isInMainChain n.lastSoftCP.2 = true

/-- A node whose databases say everything about its tree. -/
structure Recorded (env : Env) (n : Node) : Prop where
  aligned : ∃ A, Aligned env n A
  durable : n.Durable env
  tracked : n.Tracked

section Runs

variable {C : Node → Prop}

lemma setSoftCPBestChain_idle {rounds : ℕ} {fIBD : Bool} (h : n.SoftCPIdle) :
    setSoftCPBestChain env fuel rounds now fIBD n = some n := by
  unfold setSoftCPBestChain
  rw [if_neg]
  rintro ⟨h1, h2, h3⟩
  rcases h with h | h | h
  · exact h1 h
  · rw [h] at h2
    cases h2
  · rw [h] at h3
    cases h3

lemma Recorded.move (R : Recorded env n) (hm : Move env C Node.SoftCPIdle n n') :
    Recorded env n' := by
  obtain ⟨⟨A, S⟩, D, K⟩ := R
  cases hm with
  | store hfit => exact ⟨⟨A, S.store hfit⟩, hfit.durable D S.tree, K.store env _ _⟩
  | connect _ h =>
    obtain ⟨A', S', -⟩ := S.connectBestBlock h
    have K' := (Node.Tracked.across env).connectBestBlock h K
    exact ⟨⟨A', S'⟩, D.congr (connectBestBlock_sameTree h).ledger K'.disk, K'⟩
  | adopt cp =>
    exact ⟨⟨A, S.softCP cp⟩, D.congr rfl K.disk, K.disk, K.valid, K.candidates⟩
  | follow hidle h =>
    rw [setSoftCPBestChain_idle hidle] at h
    cases h
    exact ⟨⟨A, S⟩, D, K⟩

lemma MovedTo.recorded (hr : MovedTo env C Node.SoftCPIdle n) : Recorded env n :=
  hr.invariant (X := Recorded env)
    (fun _ hn => ⟨⟨_, hn.fresh.aligned⟩, hn.fresh.durable, hn.tracked⟩) fun _ _ hm R => R.move hm

/-- **Deliveries** that leave nothing to do for `SetSoftCPBestChain` are such runs. -/
lemma MovedTo.acceptBlock {rounds : ℕ} {fIBD : Bool} {b : CBlock} {pos : CDiskBlockPos}
    {res : Check} (hr : MovedTo env (fun _ => True) Node.SoftCPIdle n)
    (hpos : n.blockFiles pos = none)
    (hidle : ∀ n₁ r, connectBestBlock env fuel now fIBD rounds (n.store env b pos) = some (n₁, r) →
      n₁.SoftCPIdle) (h : acceptBlock env fuel rounds now fIBD n b pos = some (n', res)) :
    MovedTo env (fun _ => True) Node.SoftCPIdle n' := by
  have hg := hr.genesis
  obtain ⟨n₀, h₀, hrun⟩ := hr
  exact ⟨n₀, h₀, hrun.trans (acceptBlock_movesOf hg hpos trivial hidle h)⟩

end Runs

/-! ### Reading back -/

/-- What makes a block of the tree a candidate when it is read back. -/
def Node.Eligible (n : Node) (h : ℕ) : Prop :=
  (n.index h).isSome = true ∧ validTransactions ≤ (n.nStatus h).valid ∧
    (n.nStatus h).failed = false

lemma addChainWork_nStatus (s : Node) (x : ℕ) : (addChainWork s x).nStatus = s.nStatus := by
  unfold addChainWork
  split <;> rfl

lemma addChainWork_isSome (s : Node) (x h : ℕ) :
    ((addChainWork s x).index h).isSome = (s.index h).isSome := by
  unfold addChainWork
  split
  · rfl
  · rename_i p hp
    unfold Node.index
    rw [StdMap.find?_insert]
    split_ifs with he
    · rw [he, show s.mapBlockIndex.find? x = some p from hp]
      rfl
    · rfl

lemma eligible_addChainWork (s : Node) (x h : ℕ) :
    (addChainWork s x).Eligible h ↔ s.Eligible h := by
  unfold Node.Eligible
  rw [addChainWork_isSome, addChainWork_nStatus]

lemma mem_addChainWork (s : Node) (x h : ℕ) : h ∈ (addChainWork s x).setBlockIndexValid ↔
    h ∈ s.setBlockIndexValid ∨ (h = x ∧ s.Eligible h) := by
  unfold addChainWork Node.Eligible
  split
  · rename_i hp
    refine ⟨.inl, fun hh => hh.resolve_right ?_⟩
    rintro ⟨rfl, hi, -⟩
    rw [hp] at hi
    cases hi
  · rename_i p hp
    split_ifs with hc
    · rw [mem_cons]
      constructor
      · rintro (rfl | hh)
        · exact .inr ⟨rfl, by rw [hp]; rfl, hc⟩
        · exact .inl hh
      · rintro (hh | ⟨rfl, -⟩)
        · exact .inr hh
        · exact .inl rfl
    · refine ⟨.inl, fun hh => hh.resolve_right ?_⟩
      rintro ⟨rfl, -, hv⟩
      exact hc hv

lemma mem_foldl_addChainWork (hs : List ℕ) (s : Node) (h : ℕ) :
    h ∈ (hs.foldl addChainWork s).setBlockIndexValid ↔
      h ∈ s.setBlockIndexValid ∨ (h ∈ hs ∧ s.Eligible h) := by
  induction hs generalizing s with
  | nil => simp
  | cons x hs ih =>
    rw [foldl_cons, ih, mem_addChainWork, eligible_addChainWork, mem_cons]
    tauto

lemma eligible_foldl_addChainWork (hs : List ℕ) (s : Node) (h : ℕ) :
    (hs.foldl addChainWork s).Eligible h ↔ s.Eligible h := by
  induction hs generalizing s with
  | nil => rfl
  | cons x hs ih => rw [foldl_cons, ih, eligible_addChainWork]

lemma loadRecords_candidates {s s' : Node} {ds : List CDiskBlockIndex}
    (h : loadRecords env s ds = some s') : s'.setBlockIndexValid = s.setBlockIndexValid := by
  induction ds generalizing s with
  | nil => cases h; rfl
  | cons d ds ih =>
    unfold loadRecords at h
    split at h
    · cases h
    · rename_i s₁ h₁
      rw [ih h]
      unfold loadRecord at h₁
      dsimp only at h₁
      split at h₁
      · cases h₁
      · cases h₁
        rfl

lemma loadBlockIndexDB_candidates (h : loadBlockIndexDB env n.stopped = some n') (x : ℕ) :
    x ∈ n'.setBlockIndexValid ↔ n'.Eligible x := by
  unfold loadBlockIndexDB at h
  split at h
  · cases h
  rename_i s hs
  have hnone : s.setBlockIndexValid = [] := loadRecords_candidates hs
  -- the rest of the function does not touch what is asked for
  have hkeep : n'.setBlockIndexValid = (s.sortedByHeight.foldl addChainWork s).setBlockIndexValid ∧
      (n'.Eligible x ↔ (s.sortedByHeight.foldl addChainWork s).Eligible x) := by
    dsimp only at h
    split at h
    · cases h
      exact ⟨rfl, Iff.rfl⟩
    · split_ifs at h
      · cases h
        exact ⟨rfl, Iff.rfl⟩
      · obtain ⟨v, -, rfl⟩ := Option.map_eq_some_iff.mp h
        exact ⟨rfl, Iff.rfl⟩
  rw [hkeep.1, hkeep.2, mem_foldl_addChainWork, eligible_foldl_addChainWork, hnone]
  refine ⟨fun hx => (hx.resolve_left not_mem_nil).2, fun hx => .inr ⟨?_, hx⟩⟩
  rw [Node.sortedByHeight, mem_insertionSort, StdMap.mem_keys_iff]
  exact hx.1

/-- A clean shutdown: the coin view is written. -/
def Node.flush (n : Node) : Node := { n with coinsDB := n.coinsTip }

/-- **The block tree comes back.** In every run without switches to a soft checkpoint, a node that
is shut down and started again has the same entry for every block (parent, height, work and number
of transactions with it), the same status for every block, with where its undo data is, the same
candidates for the best chain, the same best block and the same vector. No block may have the hash
`0`, which stands for none. -/
theorem loadBlockIndexDB_flush (hr : MovedTo env (fun _ => True) Node.SoftCPIdle n)
    (hz : n.index 0 = none) :
    ∃ n', loadBlockIndexDB env n.flush.stopped = some n' ∧ (∀ h, n'.index h = n.index h) ∧
      (∀ h, (n.index h).isSome = true → n'.nStatus h = n.nStatus h ∧ n'.undo h = n.undo h) ∧
      (∀ h, h ∈ n'.setBlockIndexValid ↔ h ∈ n.setBlockIndexValid) ∧
      n'.pindexBest = n.pindexBest ∧ n'.vBlockIndexByHeight = n.vBlockIndexByHeight := by
  obtain ⟨⟨A, S⟩, D, K⟩ := hr.recorded
  obtain ⟨t, l, rfl⟩ := exists_cons_of_ne_nil S.chain.ne_nil
  have D' : n.flush.Durable env := D.congr rfl K.disk
  obtain ⟨n', hload, L⟩ := loadBlockIndexDB_eq D' hz S.tree S.chain S.coins
  have hidx : ∀ h, n'.index h = n.index h := congrFun (Node.index_congr L.ledger)
  have hstatus : ∀ h, (n.index h).isSome = true →
      n'.nStatus h = n.nStatus h ∧ n'.undo h = n.undo h := by
    intro h hh
    obtain ⟨p, hp⟩ := Option.isSome_iff_exists.mp hh
    exact L.status h p hp
  refine ⟨n', hload, hidx, hstatus, fun h => ?_, L.best.trans S.best.symm, L.vec.trans S.vec.symm⟩
  rw [loadBlockIndexDB_candidates hload, K.candidates, Node.Eligible, hidx]
  constructor
  · rintro ⟨hi, -, hf⟩
    exact ⟨hi, by rwa [(hstatus h hi).1] at hf⟩
  · rintro ⟨hi, hf⟩
    rw [(hstatus h hi).1]
    exact ⟨hi, K.valid h hi, hf⟩

end

namespace Toy

def badBranch : List MoveAct :=
  [.connect, .store (cpBlock 14 13 2 unsigned []), .store (cpBlock 13 1 1 spam []), .connect,
    .store (cpBlock 2 1 1 spam [])]

end Toy

open Toy in
/-- The failed block comes back as a failed one, and is no candidate. -/
theorem loadBlockIndexDB_badBranch : ∃ n, MovedTo cpEnv (fun _ => True) Node.SoftCPIdle n ∧
    (n.nStatus 14).failed = true ∧ ∃ n', loadBlockIndexDB cpEnv n.flush.stopped = some n' ∧
      n'.pindexBest = some 2 ∧ (n'.nStatus 14).failed = true ∧ 14 ∉ n'.setBlockIndexValid ∧
        13 ∈ n'.setBlockIndexValid := by
  obtain ⟨n, hn, he⟩ := Option.map_eq_some_iff.mp (by decide +kernel :
    (performMoves (fun _ => true) (fun _ => false) badBranch).map (fun n => (n.pindexBest,
      (n.nStatus 14).failed, n.index 0, (n.index 14).isSome, n.setBlockIndexValid)) =
        some (some 2, true, none, true, [13, 2, 1]))
  simp only [Prod.mk.injEq] at he
  obtain ⟨hbest, hfailed, hz, hknown, hcand⟩ := he
  have hm : MovedTo cpEnv (fun _ => True) Node.SoftCPIdle n :=
    movedTo_of_performMoves (fun _ _ => trivial) (fun _ h => by cases h) hn
  obtain ⟨n', hload, -, hstatus, hc, hb, -⟩ := loadBlockIndexDB_flush hm hz
  refine ⟨n, hm, hfailed, n', hload, hb.trans hbest, ?_, ?_, ?_⟩
  · rw [(hstatus 14 hknown).1]
    exact hfailed
  · rw [hc, hcand]
    decide
  · rw [hc, hcand]
    decide

end FreechCore
