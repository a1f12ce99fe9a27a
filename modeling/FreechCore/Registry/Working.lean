import FreechCore.Registry.Agree

/-!
The state of a node while it moves from one chain to another: lookups go by the chain `A`
of the main-chain vector, while the index already agrees with the chain `W` that is being
worked on. Between moves the two are the same.
-/

namespace FreechCore

open BackLink Loop

variable {n' : Node} {m : ℤ} {r : Option ℕ}

/-- Two nodes with the same blocks, index and active chain; candidates, statuses, the
memory pool and the databases behind may differ. -/
structure Node.SameChain (n n' : Node) : Prop where
  ledger : n'.ledger = n.ledger
  txIndex : n'.txIndex = n.txIndex
  vec : n'.vBlockIndexByHeight = n.vBlockIndexByHeight
  height : n'.nBestHeight = n.nBestHeight
  undo : n'.undo = n.undo
  coins : n'.coinsTip = n.coinsTip
  best : n'.pindexBest = n.pindexBest

namespace Node.SameChain

lemma refl (n : Node) : n.SameChain n := ⟨rfl, rfl, rfl, rfl, rfl, rfl, rfl⟩

lemma trans {n₁ n₂ n₃ : Node} (h : n₁.SameChain n₂) (h' : n₂.SameChain n₃) : n₁.SameChain n₃ :=
  ⟨h'.1.trans h.1, h'.2.trans h.2, h'.3.trans h.3, h'.4.trans h.4, h'.5.trans h.5,
    h'.6.trans h.6, h'.7.trans h.7⟩

section

variable (n : Node) (h : ℕ)

lemma writeBlockIndex : n.SameChain (n.writeBlockIndex h) := by
  unfold Node.writeBlockIndex
  split
  · exact ⟨rfl, rfl, rfl, rfl, rfl, rfl, rfl⟩
  · exact refl n

lemma setStatus (f : BlockStatus → BlockStatus) :
    n.SameChain (n.setStatus h f) := ⟨rfl, rfl, rfl, rfl, rfl, rfl, rfl⟩

lemma eraseValid : n.SameChain (n.eraseValid h) :=
  ⟨rfl, rfl, rfl, rfl, rfl, rfl, rfl⟩

lemma markFailedChild : n.SameChain (FreechCore.markFailedChild n h) :=
  (setStatus n h _).trans ((eraseValid _ h).trans (writeBlockIndex _ h))

end

lemma foldl {α : Type*} {f : Node → α → Node} (hf : ∀ (n : Node) (a : α), n.SameChain (f n a))
    (l : List α) (n : Node) : n.SameChain (l.foldl f n) := by
  induction l generalizing n with
  | nil => exact refl n
  | cons a l ih => exact (hf n a).trans (ih _)

end Node.SameChain

variable {n : Node} {env : Env} {A : List ℕ}

lemma isInMainChain_congr {n' : Node} (hL : n'.ledger = n.ledger)
    (hv : n'.vBlockIndexByHeight = n.vBlockIndexByHeight) : n'.isInMainChain = n.isInMainChain := by
  have hh : n'.heightOf = n.heightOf := congrArg Ledger.heightOf hL
  funext h
  unfold Node.isInMainChain
  rw [hv, hh]

/-- The block-tree database holds the record of every block of the tree, as it is now. -/
def Node.OnDisk (n : Node) : Prop :=
  ∀ h, n.blockTree.find? h = (n.index h).map (n.diskBlockIndex h)

lemma Node.OnDisk.writeBlockIndex {h : ℕ} (hd : n.OnDisk)
    (hi : ∀ h', n'.index h' = n.index h' ∨ (h' = h ∧ (n'.index h').isSome = true))
    (ht : n'.blockTree = n.blockTree)
    (hs : ∀ h', h' ≠ h → n'.nStatus h' = n.nStatus h' ∧ n'.undo h' = n.undo h') :
    (n'.writeBlockIndex h).OnDisk := by
  have hother : ∀ h', h' ≠ h → n'.blockTree.find? h' = (n'.index h').map (n'.diskBlockIndex h') := by
    intro h' hne
    obtain ⟨h1, h2⟩ := hs h' hne
    have : n'.diskBlockIndex h' = n.diskBlockIndex h' := by
      funext p
      simp only [Node.diskBlockIndex, h1, h2]
    rw [ht, (hi h').resolve_right fun hc => hne hc.1, this]
    exact hd h'
  intro h'
  unfold Node.writeBlockIndex
  cases hp : n'.index h with
  | some p =>
    by_cases hne : h' = h
    · subst hne
      have : ({ n' with blockTree := n'.blockTree.insert h' (n'.diskBlockIndex h' p) } : Node).index h'
        = some p := hp
      rw [this]
      simp [Node.diskBlockIndex]
    · simp only [StdMap.find?_insert, if_neg hne]
      exact hother h' hne
  | none =>
    by_cases hne : h' = h
    · subst hne
      have hn := hd h'
      rw [← (hi h').resolve_right (by simp [hp]), hp] at hn
      simp only [ht, hp, hn, Option.map_none]
    · exact hother h' hne

/-- A block of the tree that has not failed is a candidate for the best chain. -/
def Node.Listed (n : Node) : Prop :=
  ∀ h, (n.index h).isSome = true → (n.nStatus h).failed = false → h ∈ n.setBlockIndexValid

lemma Node.index_congr (hL : n'.ledger = n.ledger) : n'.index = n.index :=
  congrArg Ledger.index hL

lemma Node.Listed.congr (hl : n.Listed) (hL : n'.ledger = n.ledger)
    (hf : ∀ h, (n'.nStatus h).failed = (n.nStatus h).failed)
    (hs : n'.setBlockIndexValid = n.setBlockIndexValid) : n'.Listed := by
  intro h hi hh
  rw [Node.index_congr hL] at hi
  rw [hf] at hh
  rw [hs]
  exact hl h hi hh

lemma Node.Listed.mark {a : ℕ} (hl : n.Listed) (hL : n'.ledger = n.ledger)
    (hs : n'.setBlockIndexValid = n.setBlockIndexValid.filter (· ≠ a))
    (hf : ∀ h, (n'.nStatus h).failed = true ↔ h = a ∨ (n.nStatus h).failed = true) : n'.Listed := by
  intro h hi hh
  rw [Node.index_congr hL] at hi
  rw [← Bool.not_eq_true, hf, not_or, Bool.not_eq_true] at hh
  rw [hs, List.mem_filter]
  exact ⟨hl h hi hh.2, by simpa using hh.1⟩

/-- Two nodes with the same blocks, active chain, failures and candidates. -/
structure Node.Frame (n n' : Node) : Prop where
  ledger : n'.ledger = n.ledger
  vec : n'.vBlockIndexByHeight = n.vBlockIndexByHeight
  height : n'.nBestHeight = n.nBestHeight
  coins : n'.coinsTip = n.coinsTip
  best : n'.pindexBest = n.pindexBest
  failed : ∀ h, (n'.nStatus h).failed = (n.nStatus h).failed
  candidates : n'.setBlockIndexValid = n.setBlockIndexValid
  softCP : n'.lastSoftCP = n.lastSoftCP
  disk : n.OnDisk → n'.OnDisk

lemma Node.Frame.refl (n : Node) : n.Frame n := ⟨rfl, rfl, rfl, rfl, rfl, fun _ => rfl, rfl, rfl, id⟩

lemma Node.Frame.trans {n₁ n₂ n₃ : Node} (h : n₁.Frame n₂) (h' : n₂.Frame n₃) : n₁.Frame n₃ :=
  ⟨h'.1.trans h.1, h'.2.trans h.2, h'.3.trans h.3, h'.4.trans h.4, h'.5.trans h.5,
    fun x => (h'.6 x).trans (h.6 x), h'.7.trans h.7, h'.8.trans h.8, h'.9 ∘ h.9⟩

lemma Node.Frame.txIndex (n : Node) (idx : TxKey → Option CDiskTxPos) :
    n.Frame { n with txIndex := idx } :=
  ⟨rfl, rfl, rfl, rfl, rfl, fun _ => rfl, rfl, rfl, id⟩

/-- The stored block passed its checks, and there is undo data for it. -/
structure Node.SolidBlock (n : Node) (env : Env) (h : ℕ) (b : CBlock) : Prop where
  checked : b.Checked
  work : checkProofOfWork env (getPoWHash env b) b.nBits = true
  undo : (n.undo h).isSome = true

def Node.Solid (n : Node) (env : Env) (h : ℕ) : Prop :=
  ∀ p b, n.ledger.Stored env h p b → p.pprev ≠ none → n.SolidBlock env h b

lemma Node.Solid.mono {h : ℕ} (hs : n.Solid env h) (hL : n'.ledger = n.ledger)
    (hu : (n.undo h).isSome = true → (n'.undo h).isSome = true) : n'.Solid env h := by
  intro p b B hroot
  rw [hL] at B
  obtain ⟨h1, h2, h3⟩ := hs p b B hroot
  exact ⟨h1, h2, hu h3⟩

/-- Lookups go by `A`, and the index agrees with `W`. -/
structure Working (env : Env) (n : Node) (A W : List ℕ) : Prop where
  tree : n.ledger.Tree env
  sound : n.ledger.Sound env n.txIndex
  chainA : n.ledger.Chain A
  chainW : n.ledger.Chain W
  vec : n.vBlockIndexByHeight = A.reverse.map some
  best : n.nBestHeight = (A.length : ℤ) - 1
  solid : ∀ h, h ∈ A ∨ h ∈ W → n.Solid env h
  undo : ∀ h p b k, n.ledger.Stored env h p b → n.undo h = some k → k + 1 = b.vtx.length
  follows : ∀ u, ∃ r, Follows n.ledger.ht (n.entries env u) (-1) (n.ledger.history u W) r

lemma Ledger.Chain.isInMainChain_iff {x : ℕ} (hA : n.ledger.Chain A) (T : n.ledger.Tree env)
    (hvec : n.vBlockIndexByHeight = A.reverse.map some) : n.isInMainChain x = true ↔ x ∈ A := by
  unfold Node.isInMainChain
  rw [decide_eq_true_iff, hvec, List.getElem?_map]
  constructor
  · intro hm
    cases hg : A.reverse[n.heightOf x]? with
    | none => rw [hg] at hm; cases hm
    | some z =>
      rw [hg, Option.map_some, Option.some.injEq, Option.some.injEq] at hm
      exact List.mem_reverse.mp (hm ▸ List.mem_of_getElem? hg)
  · intro hxA
    have hg : A.reverse[n.heightOf x]? = some x := hA.getElem?_reverse T hxA
    rw [hg, Option.map_some]

/-- No register of the node rests on anything harmful. -/
def Node.Tidy (n : Node) (env : Env) (A W : List ℕ) : Prop :=
  ∀ u r, Follows n.ledger.ht (n.entries env u) (-1) (n.ledger.history u W) r →
    n.ledger.Rests (n.entries env u) u A (n.ledger.history u W) r

lemma Node.Tidy.congr {W : List ℕ} (ht : n.Tidy env A W) (hs : n.SameChain n') :
    n'.Tidy env A W := by
  unfold Node.Tidy Node.entries at ht ⊢
  rw [hs.ledger, hs.txIndex]
  exact ht

namespace Working

variable {W : List ℕ} {u : Bytes} {x y : ℕ}

section

variable (h : Working env n A W)

include h

lemma congr (hs : n.SameChain n') : Working env n' A W := by
  obtain ⟨hL, hi, hv, hb, hu, -, -⟩ := hs
  have he : n'.entries env = n.entries env := by unfold Node.entries; rw [hL, hi]
  refine ⟨?_, ?_, ?_, ?_, ?_, ?_, ?_, ?_, ?_⟩
  · rw [hL]; exact h.tree
  · rw [hL, hi]; exact h.sound
  · rw [hL]; exact h.chainA
  · rw [hL]; exact h.chainW
  · rw [hv]; exact h.vec
  · rw [hb]; exact h.best
  · exact fun x hx => (h.solid x hx).mono hL (by rw [hu]; exact id)
  · rw [hL, hu]; exact h.undo
  · rw [hL, he]; exact h.follows

lemma isInMainChain_iff : n.isInMainChain x = true ↔ x ∈ A :=
  h.chainA.isInMainChain_iff h.tree h.vec

lemma isInMainChain_eq_false (hxA : x ∉ A) : n.isInMainChain x = false := by
  rw [← Bool.not_eq_true, h.isInMainChain_iff]
  exact hxA

lemma ht_le_best (hx : x ∈ A) : n.ledger.ht x ≤ n.nBestHeight := by
  have := h.chainA.height_lt_length h.tree hx
  rw [h.best]
  unfold Ledger.ht
  omega

lemma heightBound_nonneg (k : ℤ) : 0 ≤ n.heightBound k := by
  have := List.length_pos_of_ne_nil h.chainA.ne_nil
  unfold Node.heightBound
  split_ifs
  · rw [h.best]; omega
  · omega

end

/-! ### Lookups on the way -/

section

variable (h : Working env n A W)

include h

lemma getTransaction_entry (he : n.entries env u (-1) = some x) (hx : x ∈ A)
    (hm0 : n.ledger.ht x ≤ n.heightBound m) (fuel : ℕ) :
    getTransaction env (fuel + 1) n u m = some (n.ledger.found u x) := by
  have hm := h.isInMainChain_iff.mpr hx
  rw [getTransaction_eq h.tree h.sound, doWhile_inr (walkStep_found he hm hm0)]
  rfl

lemma getTransaction_off (he : ∀ z, n.entries env u (-1) = some z → z ∉ A) (m : ℤ) (fuel : ℕ) :
    getTransaction env (fuel + 1) n u m = some none := by
  rw [getTransaction_eq h.tree h.sound]
  cases hz : n.entries env u (-1) with
  | none => rw [doWhile_inr (walkStep_none hz)]; rfl
  | some z =>
    have hm := h.isInMainChain_eq_false (he z hz)
    rw [doWhile_inr (walkStep_off hz hm)]
    rfl

lemma getTransaction_below (he : n.entries env u (-1) = some x) (hx : x ∈ A)
    (hn : n.entries env u (n.ledger.ht x - 1) = none) (hm0 : n.heightBound m < n.ledger.ht x)
    (fuel : ℕ) :
    getTransaction env (fuel + 2) n u m = some none := by
  have hm := h.isInMainChain_iff.mpr hx
  rw [getTransaction_eq h.tree h.sound]
  by_cases hb : 0 < n.ledger.ht x - 1
  · rw [doWhile_inl (walkStep_below he hm hm0 hb), doWhile_inr (walkStep_none hn)]
    rfl
  · rw [doWhile_inr (walkStep_bottom he hm hm0 hb)]
    rfl

lemma not_mem_of_absent (hu : n.ledger.history u A = [])
    (he : n.entries env u (-1) = some x) : x ∉ A :=
  Ledger.not_mem_of_history_nil hu (h.sound.registers he).2

lemma entry_head {R : List ℕ} (hR : n.ledger.history u W = y :: R) :
    n.entries env u (-1) = some y := by
  obtain ⟨r, hf⟩ := h.follows u
  rw [hR] at hf
  exact hf.1

end

/-! ### Lookups between moves -/

lemma find?_history (L : Ledger) (u : Bytes) (m : ℤ) (A : List ℕ) :
    ((L.history u A).find? fun x => decide (L.ht x ≤ m)).bind (L.found u) = L.latest u A m := by
  unfold Ledger.latest Ledger.history
  rw [List.find?_filter]
  congr 2
  funext x
  rw [Bool.and_comm]
  simp

lemma rests_off (T : n.ledger.Tree env) (hA : n.ledger.Chain A) {e : ℤ → Option ℕ} {A' : List ℕ}
    (hr : n.ledger.Rests e u A' (n.ledger.history u A) r) (hx : r = some x) :
    x ∉ A := by
  intro hxA
  -- the residue would be the last block of the history
  have hmem : x ∈ n.ledger.history u A := Ledger.mem_history.mpr ⟨hxA, (hr.first x hx).1⟩
  obtain ⟨z, hz⟩ : ∃ z, (n.ledger.history u A).getLast? = some z :=
    ⟨_, List.getLast?_eq_some_getLast (List.ne_nil_of_mem hmem)⟩
  obtain ⟨hzA, hzf⟩ := hA.first_getLast T hz
  have hxz : x = z := (hr.first x hx).unique hA hzf hxA hzA
  exact hr.ne_last x hx (hxz ▸ hz)

lemma residue_off (h : Working env n A A) (ht : n.Tidy env A A)
    (hf : Follows n.ledger.ht (n.entries env u) (-1) (n.ledger.history u A) r) (hx : r = some x) :
    x ∉ A :=
  rests_off h.tree h.chainA (ht u r hf) hx

/-- The lookup of a name is right when the index agrees with the chain as to this name, and
the register rests on nothing on the chain. -/
lemma getTransaction_follows (h : Working env n A W)
    (hf : Follows n.ledger.ht (n.entries env u) (-1) (n.ledger.history u A) r)
    (hoff : ∀ x, r = some x → x ∉ A) (hm0 : 0 ≤ n.heightBound m) {fuel : ℕ}
    (hfuel : A.length < fuel) :
    getTransaction env fuel n u m = some (n.ledger.latest u A (n.heightBound m)) := by
  have hd := h.chainA.descending h.tree u
  have hm : ∀ x ∈ n.ledger.history u A, n.isInMainChain x = true := fun x hx =>
    h.isInMainChain_iff.mpr (Ledger.mem_history.mp hx).1
  have hres : ∀ x, r = some x → n.isInMainChain x = false := fun x hx =>
    h.isInMainChain_eq_false (hoff x hx)
  have hlen : (n.ledger.history u A).length < fuel :=
    lt_of_le_of_lt (List.length_filter_le _ _) hfuel
  rw [getTransaction_eq h.tree h.sound, walk_follows hf hd hm hres hm0 hlen, Option.map_some,
    find?_history]

/-- **Lookups are right** when the index agrees with the chain they go by and rests on
nothing harmful. -/
theorem getTransaction_latest (h : Working env n A A) (ht : n.Tidy env A A)
    (hm0 : 0 ≤ n.heightBound m) {fuel : ℕ} (hfuel : A.length < fuel) :
    getTransaction env fuel n u m = some (n.ledger.latest u A (n.heightBound m)) := by
  obtain ⟨r, hf⟩ := h.follows u
  exact h.getTransaction_follows hf (fun x hx => h.residue_off ht hf hx) hm0 hfuel

end Working

end FreechCore
