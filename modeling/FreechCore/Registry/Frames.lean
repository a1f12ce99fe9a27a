import FreechCore.Registry.Overwrite

/-!
What connecting and disconnecting a block leave alone, whatever the index holds: the blocks,
the vector, the view, the best block, the failures and the soft checkpoint. All that is left
of a block that was connected, besides what it wrote to the index, is its undo data.
-/

namespace FreechCore

open Option

variable {chk : Check} {H : ℤ} {L : Ledger}

/-! ### Failures that count against a block -/

/-- Whoever fails the check is invalid. -/
def Check.Invalidates (chk : Check) : Prop := ∀ f, chk = .error f → f.isInvalid = true

lemma ensure_invalidates (c : Prop) [Decidable c] (level : ℕ) (msg : String) :
    (ensure c level msg).Invalidates := by
  intro f h
  unfold ensure at h
  split_ifs at h
  cases h
  rfl

lemma Check.Invalidates.bind {k : Unit → Check} (hchk : chk.Invalidates) (hk : (k ()).Invalidates) :
    Check.Invalidates (chk >>= k) := by
  cases chk with
  | error g => exact hchk
  | ok u => exact hk

lemma ensure_bind_invalidates {c : Prop} [Decidable c] {level : ℕ} {msg : String}
    {k : Unit → Check} (hk : (k ()).Invalidates) :
    Check.Invalidates (ensure c level msg >>= k) :=
  (ensure_invalidates c level msg).bind hk

lemma Check.Invalidates.reporting (hchk : chk.Invalidates) (level : ℕ) (msg : String) :
    (chk.reporting level msg).Invalidates := by
  intro f h
  cases chk with
  | ok u => cases h
  | error g =>
    have hf : g.report level msg = f := Except.error.inj h
    cases g with
    | invalid n l => rw [← hf]; rfl
    | error l => cases hchk _ rfl

lemma checkAll_invalidates {α : Type*} {chk : α → Check} (hchk : ∀ a, (chk a).Invalidates)
    (l : List α) : (checkAll chk l).Invalidates := by
  induction l with
  | nil => exact fun _ h => by cases h
  | cons a l ih => exact (hchk a).bind ih

lemma checkUsername_invalidates (userName : Bytes) : (checkUsername userName).Invalidates := by
  refine ensure_bind_invalidates (checkAll_invalidates (fun c => ?_) _)
  unfold checkUsernameChar
  split
  · exact ensure_invalidates _ _ _
  · split
    · exact fun _ h => by cases h
    · split
      · exact fun _ h => by cases h; rfl
      · exact ensure_invalidates _ _ _

lemma checkTransaction_invalidates (env : Env) (tx : CTransaction) :
    (checkTransaction env tx).Invalidates := by
  have hrest : Check.Invalidates (do
      ensure (tx.serializeSize ≤ maxTxSize) 100
        "CTransaction::CheckTransaction() : size limits failed"
      ensure (tx.isSpamMessage ∨ checkProofOfWork env (env.hashTx tx) env.txBits) 50
        "CheckTransaction() : proof of work failed") :=
    ensure_bind_invalidates (ensure_invalidates _ _ _)
  unfold checkTransaction
  split
  · refine Check.Invalidates.bind ?_ hrest
    iterate 3 refine ensure_bind_invalidates ?_
    exact ensure_invalidates _ _ _
  · refine Check.Invalidates.bind ?_ hrest
    iterate 4 refine ensure_bind_invalidates ?_
    exact (checkUsername_invalidates _).reporting _ _

lemma checkBlock_invalidates (env : Env) (now : ℤ) (fCheckPOW fCheckMerkleRoot : Bool)
    (b : CBlock) : (checkBlock env now fCheckPOW fCheckMerkleRoot b).Invalidates := by
  iterate 5 refine ensure_bind_invalidates ?_
  refine ((checkAll_invalidates (checkTransaction_invalidates env) _).reporting _ _).bind ?_
  iterate 2 refine ensure_bind_invalidates ?_
  exact ensure_invalidates _ _ _

/-! ### Inverting the two calls -/

variable {env : Env} {fuel h : ℕ} {now : ℤ} {n n' : Node} {view view' : Option ℕ} {p : CBlockIndex}
  {b : CBlock}

variable {f : Failure} {k : ℕ} {tx : CTransaction}

/-- What a block that is connected went through. -/
structure Connects (env : Env) (fuel : ℕ) (now : ℤ) (n n₁ : Node) (view : Option ℕ)
    (p : CBlockIndex) (b : CBlock) : Prop where
  check : checkBlock env now true true b = .ok ()
  parent : p.pprev = view
  spam : ∃ tx, b.vtx.head? = some tx ∧ checkSpamUser env fuel n b.nHeight tx = some (.ok ())
  overwrite : checkOverwrite env fuel b.nHeight n b.registrations = some (n₁, .ok ())

/-- The number of registrations the undo data of a block covers. -/
def CBlock.nUndo (b : CBlock) : ℕ := (b.vtx.filter fun tx => !tx.isSpamMessage).length

lemma connectBlock_ok (hg : getHash env b ≠ hashGenesisBlock env)
    (hc : connectBlock env fuel now n view h p b false = some (n', view', .ok ())) :
    ∃ n₁, Connects env fuel now n n₁ view p b ∧ view' = some h ∧
      n' = (writeUndo n₁ h b.nUndo).writeTxIndex (blockIndexEntries n₁ p.blockPos b) := by
  unfold connectBlock at hc
  simp only [Bool.not_false, Bool.false_eq_true, if_false] at hc
  split at hc
  · simp at hc
  rename_i hcheck
  split_ifs at hc with hp
  rw [not_not] at hp
  split at hc
  · cases hc
  · cases hc
  · simp at hc
  rename_i hspam
  split at hc
  · cases hc
  · simp at hc
  rename_i n₁ hover
  simp only [some.injEq, Prod.mk.injEq, and_true] at hc
  obtain ⟨tx, htx, hs⟩ := map_eq_some_iff.mp hspam
  exact ⟨n₁, ⟨hcheck, hp, ⟨tx, htx, hs⟩, hover⟩, hc.2.symm, hc.1.symm⟩

lemma connectBlock_genesis (hb : getHash env b = hashGenesisBlock env)
    (hc : connectBlock env fuel now n view h p b false = some (n', view', .ok ())) :
    n' = n ∧ view' = some h := by
  unfold connectBlock at hc
  split at hc
  · simp at hc
  · split_ifs at hc
    simp only [some.injEq, Prod.mk.injEq, and_true] at hc
    exact ⟨hc.1.symm, hc.2.symm⟩

lemma connectBlock_error (hc : connectBlock env fuel now n view h p b false =
    some (n', view', .error f)) : view' = view ∧
      ((n' = n ∧ checkBlock env now true true b = .error f) ∨
        (checkBlock env now true true b = .ok () ∧ ∃ tx, b.vtx.head? = some tx ∧
          ((n' = n ∧ checkSpamUser env fuel n b.nHeight tx = some (.error f)) ∨
            (checkSpamUser env fuel n b.nHeight tx = some (.ok ()) ∧
              checkOverwrite env fuel b.nHeight n b.registrations = some (n', .error f))))) := by
  unfold connectBlock at hc
  simp only [Bool.not_false, Bool.false_eq_true, if_false] at hc
  split at hc
  · rename_i f' hcheck
    cases hc
    exact ⟨rfl, Or.inl ⟨rfl, hcheck⟩⟩
  rename_i hcheck
  split_ifs at hc
  · simp at hc
  split at hc
  · cases hc
  · cases hc
  · rename_i f' hspam
    obtain ⟨tx, htx, hs⟩ := map_eq_some_iff.mp hspam
    obtain ⟨rfl, rfl, rfl⟩ := hc
    exact ⟨rfl, Or.inr ⟨hcheck, tx, htx, Or.inl ⟨rfl, hs⟩⟩⟩
  rename_i hspam
  obtain ⟨tx, htx, hs⟩ := map_eq_some_iff.mp hspam
  split at hc
  · cases hc
  · rename_i n₁ f₁ hover
    obtain ⟨rfl, rfl, rfl⟩ := hc
    exact ⟨rfl, Or.inr ⟨hcheck, tx, htx, Or.inr ⟨hs, hover⟩⟩⟩
  · simp at hc

lemma disconnectBlock_ok (hv : view = some h) (hu : n.undo h = some k) (hk : k + 1 = b.vtx.length) :
    disconnectBlock n view h p b false =
      some ({ n with txIndex := n.disconnected b }, p.pprev, .ok ()) := by
  unfold disconnectBlock Node.disconnected
  rw [if_neg (not_not.mpr hv)]
  simp only [hu, hk, ne_eq, not_true, if_false, Bool.false_eq_true, foldl_disconnectTx]

/-! ### Undo data -/

/-- Undo data is written where there was none; the index stays as it is. -/
structure UndoWritten (n n' : Node) (h k : ℕ) : Prop where
  frame : n.Frame n'
  txIndex : n'.txIndex = n.txIndex
  undo : ∀ h', n'.undo h' = if h' = h then (n.undo h).or (some k) else n.undo h'

lemma undoWritten_record (n : Node) (h k : ℕ) (undo : ℕ → Option ℕ)
    (hu : ∀ h', undo h' = if h' = h then (n.undo h).or (some k) else n.undo h') :
    UndoWritten n ((({ n with undo := undo } : Node).setStatus h
      fun s => { s with valid := BlockStatus.validScripts }).writeBlockIndex h) h k := by
  obtain ⟨h1, h2, h3, h4, h5, h6, h7⟩ := Node.SameChain.writeBlockIndex
    (({ n with undo := undo } : Node).setStatus h
      fun s => { s with valid := BlockStatus.validScripts }) h
  refine ⟨⟨h1, h3, h4, h6, h7, fun h' => ?_, ?_, ?_, fun hd => ?_⟩, h2,
    fun h' => by rw [h5]; exact hu h'⟩
  · rw [Node.writeBlockIndex_nStatus]
    unfold Node.setStatus
    dsimp only
    split_ifs with he
    · rw [he]; rfl
    · rfl
  · rw [Node.writeBlockIndex_setBlockIndexValid]
    rfl
  · rw [Node.writeBlockIndex_lastSoftCP]
    rfl
  · refine hd.writeBlockIndex (fun _ => Or.inl rfl) rfl fun h' hne => ⟨?_, ?_⟩
    · simp [Node.setStatus, hne]
    · exact (hu h').trans (if_neg hne)

lemma writeUndo_written (n : Node) (h k : ℕ) : UndoWritten n (writeUndo n h k) h k := by
  unfold writeUndo
  cases hu : n.undo h with
  | none =>
    refine undoWritten_record n h k _ fun h' => ?_
    simp [hu]
  | some j =>
    have hself : ∀ h', n.undo h' = if h' = h then (n.undo h).or (some k) else n.undo h' := by
      intro h'
      split_ifs with he
      · rw [he, hu]; rfl
      · rfl
    simp only [isNone_some, Bool.false_eq_true, false_or, if_false]
    split_ifs
    · exact undoWritten_record n h k n.undo hself
    · exact ⟨.refl n, rfl, hself⟩

/-! ### One block -/

/-- At most the transaction index differs. -/
def Node.IndexOnly (n n' : Node) : Prop := n' = { n with txIndex := n'.txIndex }

lemma Node.IndexOnly.frame (hi : n.IndexOnly n') : n.Frame n' := by
  rw [hi]
  exact .txIndex n _

lemma Node.IndexOnly.undo (hi : n.IndexOnly n') : n'.undo = n.undo := by rw [hi]

lemma Node.IndexOnly.trans {n₁ n₂ n₃ : Node} (h : n₁.IndexOnly n₂) (h' : n₂.IndexOnly n₃) :
    n₁.IndexOnly n₃ := by
  unfold Node.IndexOnly at h h' ⊢
  rw [h', h]

lemma checkSpamUser_invalidates (hc : checkSpamUser env fuel n H tx = some chk) :
    chk.Invalidates := by
  unfold checkSpamUser at hc
  dsimp only at hc
  split_ifs at hc
  · cases hc
    exact fun _ h => by cases h
  · cases hc
    exact fun _ h => by cases h; rfl
  · split at hc
    · cases hc
    · cases hc
      exact fun _ h => by cases h; rfl
    · cases hc
      unfold checkSpamSignature
      split
      · split
        · exact fun _ h => by cases h; rfl
        · exact ensure_invalidates _ _ _
      · exact fun _ h => by cases h; rfl

lemma checkOverwriteTx_indexOnly (hc : checkOverwriteTx env fuel n H tx = some (n', chk)) :
    n.IndexOnly n' ∧ chk.Invalidates := by
  have hdup : ∀ {m : Node} {r : Bool},
      verifyDuplicateOrReplacementTx env fuel n tx true true H true = some (m, r) →
        n.IndexOnly m := by
    intro m r hd
    unfold verifyDuplicateOrReplacementTx at hd
    split at hd
    · cases hd
    · split_ifs at hd <;> · cases hd; rfl
    · split_ifs at hd <;> · cases hd; rfl
  unfold checkOverwriteTx at hc
  split at hc
  · cases hc
  · cases hc
    exact ⟨rfl, fun _ h => by cases h⟩
  · split at hc
    · cases hc
    · rename_i hd
      cases hc
      exact ⟨hdup hd, fun _ h => by cases h⟩
    · rename_i hd
      cases hc
      exact ⟨hdup hd, fun _ h => by cases h; rfl⟩

lemma checkOverwrite_indexOnly {l : List CTransaction}
    (hc : checkOverwrite env fuel H n l = some (n', chk)) : n.IndexOnly n' ∧ chk.Invalidates := by
  induction l generalizing n with
  | nil =>
    cases hc
    exact ⟨rfl, fun _ h => by cases h⟩
  | cons tx l ih =>
    unfold checkOverwrite at hc
    split at hc
    · cases hc
    · rename_i hx
      cases hc
      exact checkOverwriteTx_indexOnly hx
    · rename_i hx
      obtain ⟨hi, -⟩ := checkOverwriteTx_indexOnly hx
      obtain ⟨hi', hchk⟩ := ih hc
      exact ⟨hi.trans hi', hchk⟩

lemma connectBlock_refused (hc : connectBlock env fuel now n view h p b false =
    some (n', view', .error f)) : n.IndexOnly n' ∧ f.isInvalid = true := by
  rcases (connectBlock_error hc).2 with ⟨rfl, hcheck⟩ | ⟨-, tx, -, ⟨rfl, hs⟩ | ⟨-, hover⟩⟩
  · exact ⟨rfl, checkBlock_invalidates _ _ _ _ _ _ hcheck⟩
  · exact ⟨rfl, checkSpamUser_invalidates hs _ rfl⟩
  · obtain ⟨hi, hinv⟩ := checkOverwrite_indexOnly hover
    exact ⟨hi, hinv _ rfl⟩

lemma connectBlock_frame (hc : connectBlock env fuel now n view h p b false =
    some (n', view', chk)) : n.Frame n' := by
  cases chk with
  | error f => exact (connectBlock_refused hc).1.frame
  | ok u =>
    by_cases hg : getHash env b = hashGenesisBlock env
    · rw [(connectBlock_genesis hg hc).1]
      exact .refl n
    · obtain ⟨n₁, C, -, rfl⟩ := connectBlock_ok hg hc
      exact (checkOverwrite_indexOnly C.overwrite).1.frame.trans
        ((writeUndo_written n₁ h b.nUndo).frame.trans (.txIndex _ _))

section

variable (hc : disconnectBlock n view h p b false = some (n', view', chk))

include hc

lemma disconnectBlock_cases : n' = n ∨ n' = { n with txIndex := n.disconnected b } := by
  unfold disconnectBlock at hc
  by_cases hv : view ≠ some h
  · rw [if_pos hv] at hc
    cases hc
  rw [if_neg hv] at hc
  cases hu : n.undo h with
  | none =>
    simp only [hu] at hc
    cases hc
    exact Or.inl rfl
  | some nUndo =>
    simp only [hu, Bool.false_eq_true, if_false, foldl_disconnectTx] at hc
    split_ifs at hc
    · cases hc
      exact Or.inl rfl
    · cases hc
      exact Or.inr rfl

lemma disconnectBlock_indexOnly : n.IndexOnly n' := by
  rcases disconnectBlock_cases hc with rfl | rfl <;> rfl

end

/-! ### Blocks that can be disconnected -/

section Undoable

variable {x : ℕ}
variable {D : List ℕ}

lemma Ledger.Stored.unique {p' : CBlockIndex} {b' : CBlock} (B : L.Stored env x p b)
    (B' : L.Stored env x p' b') : p = p' ∧ b = b' := by
  have hp : p = p' := some.inj (B.index.symm.trans B'.index)
  subst hp
  exact ⟨rfl, some.inj (B.file.symm.trans B'.file)⟩

section

variable {W : List ℕ} (hx : L.Chain (x :: W)) (B : L.Stored env x p b)

include hx B

lemma Ledger.Chain.pprev_eq_head? :
    p.pprev = W.head? := by
  cases hx with
  | root hp hq =>
    rw [B.index, some.injEq] at hp
    rw [hp, hq]
    rfl
  | cons hp hq _ =>
    rw [B.index, some.injEq] at hp
    rw [hp, hq, List.head?_cons]

lemma Ledger.Chain.pprev_ne_none (hW : W ≠ []) : p.pprev ≠ none := by
  rw [hx.pprev_eq_head? B, Ne, List.head?_eq_none_iff]
  exact hW

end

/-- The blocks `D` can be disconnected, and undo data is never at odds with its block. -/
structure Undoable (env : Env) (n : Node) (D : List ℕ) : Prop where
  solid : ∀ h ∈ D, n.Solid env h
  undo : ∀ h p b k, n.ledger.Stored env h p b → n.undo h = some k → k + 1 = b.vtx.length

lemma Undoable.congr (U : Undoable env n D) (hL : n'.ledger = n.ledger) (hu : n'.undo = n.undo) :
    Undoable env n' D :=
  ⟨fun h hh => (U.solid h hh).mono hL (by rw [hu]; exact id), by rw [hL, hu]; exact U.undo⟩

lemma Undoable.mono {D' : List ℕ} (U : Undoable env n D) (h : ∀ x ∈ D', x ∈ D) :
    Undoable env n D' :=
  ⟨fun x hx => U.solid x (h x hx), U.undo⟩

lemma Undoable.connectBlock (U : Undoable env n D) (T : n.ledger.Tree env)
    (B : n.ledger.Stored env x p b) (hroot : p.pprev ≠ none)
    (hc : connectBlock env fuel now n view x p b false = some (n', view', .ok ())) :
    view' = some x ∧ n.Frame n' ∧ Undoable env n' (x :: D) := by
  have hg : getHash env b ≠ hashGenesisBlock env := by
    rw [B.hash]
    exact fun e => hroot ((T.root_iff B.index).mpr e)
  obtain ⟨n₁, C, rfl, hn'⟩ := connectBlock_ok hg hc
  obtain ⟨hi, -⟩ := checkOverwrite_indexOnly C.overwrite
  have hb := checkBlock_checked C.check
  have W := writeUndo_written n₁ x b.nUndo
  have hF : n.Frame n' := by
    rw [hn']
    exact hi.frame.trans (W.frame.trans (.txIndex _ _))
  have hu : ∀ h, n'.undo h = if h = x then (n.undo x).or (some b.nUndo) else n.undo h := by
    intro h
    rw [← hi.undo, ← W.undo, hn']
    rfl
  refine ⟨rfl, hF, fun h hh => ?_, fun h q c k Bq hk => ?_⟩
  · by_cases hx : h = x
    · subst hx
      intro q c Bq _
      rw [hF.ledger] at Bq
      obtain ⟨-, rfl⟩ := B.unique Bq
      exact ⟨hb, checkBlock_work C.check, by rw [hu, if_pos rfl]; simp⟩
    · refine (U.solid h ((List.mem_cons.mp hh).resolve_left hx)).mono hF.ledger fun hs => ?_
      rw [hu, if_neg hx]
      exact hs
  · rw [hF.ledger] at Bq
    rw [hu] at hk
    split_ifs at hk with hx
    · subst hx
      cases hj : n.undo h with
      | some j =>
        rw [hj, some_or] at hk
        exact U.undo h q c k Bq (hj.trans hk)
      | none =>
        rw [hj, none_or, some.injEq] at hk
        obtain ⟨-, rfl⟩ := B.unique Bq
        rw [← hk]
        exact hb.length_filter
    · exact U.undo h q c k Bq hk

end Undoable

end FreechCore
