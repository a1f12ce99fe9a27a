import FreechCore.Registry.Judge

/-!
Blocks that are bound to connect. A block that is in order on its own chain connects in the
middle of a switch, too, unless a lookup is misled: by a signer who is registered only in a
lower block of the same branch, or by a registration of the abandoned branch that the new one
is held against.
-/

namespace FreechCore

open BackLink Ledger List

variable {env : Env} {now : ℤ} {n : Node} {A : List ℕ} {tx : CTransaction} {fuel : ℕ}

variable {now' : ℤ} {b : CBlock} {x z : ℕ} {r : Node × Check} {l : List CTransaction} {m m' : Node}
  {W : List ℕ}

lemma checkBlock_mono {f g : Bool} (hle : now ≤ now') (h : checkBlock env now f g b = .ok ()) :
    checkBlock env now' f g b = .ok () := by
  simp only [checkBlock, check_bind_eq_ok, ensure_eq_ok, reporting_eq_ok, checkAll_eq_ok] at h ⊢
  obtain ⟨h1, h2, h3, hrest⟩ := h
  exact ⟨h1, h2, by omega, hrest⟩

lemma Node.PassesBy.mono (hle : now ≤ now') (h : n.PassesBy env now A x) :
    n.PassesBy env now' A x := by
  obtain ⟨b, hb, h1, h2, h3⟩ := h
  exact ⟨b, hb, checkBlock_mono hle h1, h2, h3⟩

/-! ### More rounds do not change the outcome of a check -/

section Rounds

variable {f g : ℕ} {H : ℤ}

lemma checkSpamUser_mono {r : Check} (hfg : f ≤ g) (h : checkSpamUser env f n H tx = some r) :
    checkSpamUser env g n H tx = some r := by
  unfold checkSpamUser at h ⊢
  dsimp only at h ⊢
  split_ifs at h ⊢
  · exact h
  · exact h
  · cases hg : getTransaction env f n (CScript.extractPushDataString tx.userName 0) H with
    | none => simp [hg] at h
    | some o =>
      rw [getTransaction_mono hfg hg]
      rw [hg] at h
      exact h

lemma checkOverwriteTx_mono (hfg : f ≤ g) (h : checkOverwriteTx env f n H tx = some r) :
    checkOverwriteTx env g n H tx = some r := by
  obtain ⟨o, ho, ho'⟩ := checkOverwriteTx_returns h
  unfold checkOverwriteTx verifyDuplicateOrReplacementTx at h ⊢
  rw [ho] at h
  rw [getTransaction_mono hfg ho]
  cases o with
  | none => exact h
  | some x =>
    obtain ⟨o', ho'⟩ := ho' (by simp)
    rw [ho'] at h
    rw [getTransaction_mono hfg ho']
    exact h

lemma checkOverwrite_mono (hfg : f ≤ g) (h : checkOverwrite env f H n l = some r) :
    checkOverwrite env g H n l = some r := by
  induction l generalizing n with
  | nil => exact h
  | cons tx l ih =>
    unfold checkOverwrite at h ⊢
    cases h₁ : checkOverwriteTx env f n H tx with
    | none => simp [h₁] at h
    | some r₁ =>
      obtain ⟨n₁, res⟩ := r₁
      rw [checkOverwriteTx_mono hfg h₁]
      rw [h₁] at h
      cases res with
      | error e => exact h
      | ok v => exact ih h

lemma connectBlock_mono {view : Option ℕ} {h : ℕ} {p : CBlockIndex} {j : Bool}
    {r : Node × Option ℕ × Check} (hfg : f ≤ g)
    (hc : connectBlock env f now n view h p b j = some r) :
    connectBlock env g now n view h p b j = some r := by
  unfold connectBlock at hc ⊢
  split at hc
  · exact hc
  · by_cases hv : p.pprev ≠ view
    · rw [if_pos hv] at hc ⊢
      exact hc
    by_cases hG : getHash env b = hashGenesisBlock env
    · rw [if_neg hv, if_pos hG] at hc ⊢
      exact hc
    rw [if_neg hv, if_neg hG] at hc ⊢
    cases hx : b.vtx.head? with
    | none => simp [hx] at hc
    | some tx =>
      cases hs : checkSpamUser env f n b.nHeight tx with
      | none => simp [hx, hs] at hc
      | some c =>
        simp only [hx, Option.map_some, hs, checkSpamUser_mono hfg hs] at hc ⊢
        cases c with
        | error e => exact hc
        | ok v =>
          cases ho : checkOverwrite env f b.nHeight n b.registrations with
          | none => simp [ho] at hc
          | some q =>
            simp only [ho, checkOverwrite_mono hfg ho] at hc ⊢
            exact hc

end Rounds

section Single

variable {u : Bytes}

lemma Working.lookAt_head (h : Working env m A W) {y : ℕ} {R : List ℕ}
    (hR : m.ledger.history u W = y :: R) :
    m.ledger.lookAt W W.length u = m.ledger.found u y := by
  have hy := (mem_of_history_cons hR).1
  have := h.chainW.height_lt_length h.tree hy
  have hle : m.ledger.ht y ≤ W.length := by unfold ht; omega
  unfold lookAt
  rw [← Working.find?_history, hR, List.find?_cons_of_pos (by simpa using hle)]
  rfl

lemma Working.getTransaction_visible (h : Working env m A W) (hz : m.entries env u (-1) = some z)
    (hzA : z ∈ A) {k : ℤ} (hk : m.ledger.ht z ≤ k) (fuel : ℕ) :
    getTransaction env (fuel + 1) m u k = some (m.ledger.found u z) := by
  refine h.getTransaction_entry hz hzA ?_ fuel
  have h0 : 0 ≤ m.ledger.ht z := by unfold ht; omega
  rwa [heightBound_of_nonneg (by omega)]

/-- The registration is not held against one of the abandoned branch that it may not replace. -/
def Node.OwnerOk (m : Node) (env : Env) (A W : List ℕ) (tx : CTransaction) : Prop :=
  m.ledger.history tx.getUsername W = [] → ∀ z old,
    m.entries env tx.getUsername (-1) = some z → z ∈ A → m.ledger.ht z ≤ W.length →
      m.ledger.registration z tx.getUsername = some old → Allowed env old tx

lemma checkOverwriteTx_valid (h : Working env m A W) (ht : m.Tidy env A W)
    (hown : overwriteAllowed env (m.ledger.lookAt W W.length) tx = true)
    (hok : m.OwnerOk env A W tx) (fuel : ℕ) :
    ∃ m', checkOverwriteTx env (fuel + 2) m W.length tx = some (m', .ok ()) := by
  by_cases hA : ∃ z, m.entries env tx.getUsername (-1) = some z ∧ z ∈ A
  · obtain ⟨z, hz, hzA⟩ := hA
    obtain ⟨old, hold, hfound⟩ := found_eq_some (h.sound.registers hz).2
    have hbest := h.getTransaction_best hz hzA (fuel + 1)
    rw [hfound] at hbest
    by_cases hH : m.ledger.ht z ≤ W.length
    · have hat := h.getTransaction_visible hz hzA hH (fuel + 1)
      rw [hfound] at hat
      refine ⟨m, ?_⟩
      rw [checkOverwriteTx_found hbest hat, verdict_eq_ok.mpr]
      cases hR : m.ledger.history tx.getUsername W with
      | nil => exact hok hR z old hz hzA hH hold
      | cons y R =>
        have hyz : y = z := Option.some.inj ((h.entry_head hR).symm.trans hz)
        rw [overwriteAllowed, h.lookAt_head hR, hyz, hfound] at hown
        simpa using hown
    · -- an entry above the block has nothing under it
      have hR := h.history_eq_nil_of_above hz hH
      have hrest := ht tx.getUsername (some z) (by rw [hR]; exact hz)
      have hbelow := h.getTransaction_below hz hzA (hrest.bottom z rfl hR hzA) (m := W.length)
        (by rw [heightBound_of_nonneg (by omega)]; omega) fuel
      exact ⟨_, checkOverwriteTx_orphan hbest hbelow (isSome_txIndex_of_entries hz)⟩
  · exact ⟨m, checkOverwriteTx_hidden
      (h.getTransaction_off (fun z hz hzA => hA ⟨z, hz, hzA⟩) (-1) (fuel + 1))⟩

lemma checkOverwrite_valid (h : Working env m A W) (ht : m.Tidy env A W)
    (hnd : (l.map CTransaction.getUsername).Nodup)
    (hown : ∀ tx ∈ l, overwriteAllowed env (m.ledger.lookAt W W.length) tx = true)
    (hok : ∀ tx ∈ l, m.OwnerOk env A W tx) (fuel : ℕ) :
    ∃ m', checkOverwrite env (fuel + 2) W.length m l = some (m', .ok ()) := by
  induction l generalizing m with
  | nil => exact ⟨m, rfl⟩
  | cons tx l ih =>
    rw [map_cons, nodup_cons] at hnd
    obtain ⟨m₁, h₁⟩ := checkOverwriteTx_valid h ht (hown tx (by simp)) (hok tx (by simp)) fuel
    obtain ⟨hL, hW, ht₁, hrow⟩ := checkOverwriteTx_keeps h h₁
    obtain ⟨m₂, h₂⟩ := ih hW (ht₁ ht) hnd.2
      (by rw [hL]; exact fun t ht => hown t (mem_cons_of_mem _ ht))
      (fun t htl => by
        have hne : t.getUsername ≠ tx.getUsername := fun e => hnd.1 (e ▸ mem_map_of_mem htl)
        unfold Node.OwnerOk
        rw [hL, hrow _ hne]
        exact hok t (mem_cons_of_mem _ htl))
    refine ⟨m₂, ?_⟩
    unfold checkOverwrite
    simp only [h₁]
    exact h₂

/-- **A promoted message that is in order on its own chain passes**, if the signer is known to
the vector. -/
lemma checkSpamUser_valid (h : Working env m A W)
    (hv : spamVerdict env (m.ledger.lookAt W W.length) tx = .ok ())
    (hs : CScript.extractPushDataString tx.userName 0 ≠ nobody → ∀ y R,
      m.ledger.history (CScript.extractPushDataString tx.userName 0) W = y :: R → y ∈ A)
    (fuel : ℕ) : checkSpamUser env (fuel + 1) m W.length tx = some (.ok ()) := by
  unfold spamVerdict at hv
  unfold checkSpamUser
  dsimp only at hv ⊢
  split_ifs at hv ⊢ with hn hsig
  · rfl
  · cases hR : m.ledger.history (CScript.extractPushDataString tx.userName 0) W with
    | nil =>
      have hnone : m.ledger.lookAt W W.length (CScript.extractPushDataString tx.userName 0) = none :=
        latest_eq_none hR _
      simp [hnone] at hv
    | cons y R =>
      have hyW := mem_of_history_cons hR
      obtain ⟨old, -, hfound⟩ := found_eq_some hyW.2
      have hlt := h.chainW.height_lt_length h.tree hyW.1
      have hg := h.getTransaction_visible (h.entry_head hR) (hs hn y R hR)
        (k := W.length) (by unfold ht; omega) fuel
      rw [hfound] at hg
      rw [h.lookAt_head hR, hfound] at hv
      simp only [hg]
      exact congrArg some hv

end Single

/-! ### Blocks and branches -/

section Branch

variable {up : List ℕ}

/-- The name a promoted message is signed for. -/
def CTransaction.signer (tx : CTransaction) : Bytes := CScript.extractPushDataString tx.userName 0

/-- A block that is in order on its own chain `W`, and that no lookup is misled for. -/
structure Node.Connectable (m : Node) (env : Env) (now : ℤ) (A W : List ℕ) (x : ℕ) : Prop where
  passes : m.PassesBy env now W x
  signer : ∀ b tx, m.readBlockFromDisk env x = some b → b.vtx.head? = some tx →
    tx.signer ≠ nobody → ∀ y R, m.ledger.history tx.signer W = y :: R → y ∈ A
  owners : ∀ tx ∈ m.ledger.registrations x, m.OwnerOk env A W tx

lemma Node.Connectable.connectBlock (C : m.Connectable env now A W x) (h : Working env m A W)
    (ht : m.Tidy env A W) (hx : m.ledger.Chain (x :: W)) (fuel : ℕ) :
    ∃ p b m', m.index x = some p ∧ m.readBlockFromDisk env x = some b ∧
      m.ledger.Stored env x p b ∧
      connectBlock env (fuel + 2) now m W.head? x p b false = some (m', some x, .ok ()) := by
  obtain ⟨p, hp⟩ := hx.index_eq mem_cons_self
  obtain ⟨b, hb, hcheck, ⟨tx, htx, hspam⟩, hover⟩ := C.passes
  have B := stored_of_readBlockFromDisk h.tree hp hb
  have hH := B.height_eq h.tree hx
  have hht : m.ledger.ht x = W.length := B.ht_eq.trans hH
  rw [hht] at hspam hover
  have hparent : p.pprev = W.head? := by
    cases hx with
    | root _ _ => exact absurd rfl h.chainW.ne_nil
    | cons hp' hq _ =>
      cases hp.symm.trans hp'
      exact hq
  have hown : ∀ t ∈ b.registrations, m.OwnerOk env A W t := by
    rw [← B.registrations_eq]
    exact C.owners
  obtain ⟨m₁, ho⟩ := checkOverwrite_valid h ht (checkBlock_checked hcheck).names hover hown fuel
  have hs := checkSpamUser_valid h hspam (C.signer b tx hb htx) (fuel + 1)
  refine ⟨p, b, (writeUndo m₁ x b.nUndo).writeTxIndex (blockIndexEntries m₁ p.blockPos b), hp, hb,
    B, ?_⟩
  unfold FreechCore.connectBlock
  simp only [Bool.not_false, hcheck, hparent, ne_eq, not_true, if_false, h.hash_ne_genesis B hx,
    htx, Option.map_some, hH, hs, ho, Bool.false_eq_true]
  rfl

lemma Node.Connectable.tail {m₁ : Node} (hz : m.Connectable env now A W z)
    (hL : m₁.ledger = m.ledger)
    (hrows : ∀ u, m.ledger.history u W = [] → m₁.entries env u = m.entries env u) :
    m₁.Connectable env now A W z := by
  obtain ⟨h1, h2, h3⟩ := hz
  refine ⟨?_, ?_, ?_⟩
  · unfold Node.PassesBy
    rw [readBlockFromDisk_congr hL, hL]
    exact h1
  · rw [hL]
    intro b tx hb
    rw [readBlockFromDisk_congr hL] at hb
    exact h2 b tx hb
  · intro tx htx
    rw [hL] at htx
    unfold Node.OwnerOk
    rw [hL]
    intro hR
    rw [hrows _ hR]
    exact h3 tx htx hR

lemma connectAll_valid (h : Working env m A W) (ht : m.Tidy env A W)
    (hup : m.ledger.Chain (up.reverse ++ W)) (htb : m.TidyBranch env A W up)
    (hc : ∀ lo x hi, up = lo ++ x :: hi → m.Connectable env now A (lo.reverse ++ W) x) (fuel : ℕ) :
    ∃ m' v, connectAll env (fuel + 2) now m W.head? up =
      some (m', (up.reverse ++ W).head?, .ok v) := by
  induction up generalizing m W with
  | nil => exact ⟨m, [], rfl⟩
  | cons x up ih =>
    have hx : m.ledger.Chain (x :: W) := hup.of_up
    obtain ⟨p, b, m₁, hp, hb, B, hcb⟩ := (hc [] x up rfl).connectBlock h ht hx fuel
    rw [reverse_nil, nil_append] at hcb
    obtain ⟨-, C⟩ := h.connectBlock B hx hcb
    have hL := C.frame.ledger
    obtain ⟨m₂, v, hall⟩ := ih C.working (C.tidy ht (htb [] x up rfl))
      (by rw [hL]; simpa using hup) (htb.tail hL C.rows) fun lo z hi he => by
        have hz := hc (x :: lo) z hi (by rw [he]; rfl)
        rw [reverse_cons, append_assoc] at hz
        refine hz.tail hL fun u hu => C.rows u ?_
        exact not_registers_of_history_nil hu (by simp)
    refine ⟨m₂, b.vtx ++ v, ?_⟩
    unfold connectAll
    rw [List.head?_cons] at hall
    simp only [hp, hb, hcb, hall, reverse_cons, append_assoc, singleton_append]

end Branch

/-! ### The memory pool -/

section Pool

variable {n' : Node} {D : List ℕ}

lemma mempoolAccept_returns {r : Option Found}
    (h : getTransaction env fuel n tx.getUsername (-1) = some r) :
    ∃ n' ok, mempoolAccept env fuel n tx = some (n', ok) := by
  unfold mempoolAccept
  split_ifs
  · exact ⟨_, _, rfl⟩
  · cases r with
    | none => simp only [h]; exact ⟨_, _, rfl⟩
    | some f =>
      obtain ⟨old, y⟩ := f
      simp only [h, verifyDuplicateOrReplacementTx, Bool.false_eq_true, false_and, if_false,
        Bool.true_and]
      cases isReplacement env old tx <;> exact ⟨_, _, rfl⟩

lemma resurrect_returns {vtx : List CTransaction}
    (h : ∀ u, ∃ r, getTransaction env fuel n u (-1) = some r) :
    ∃ n', resurrect env fuel n vtx = some n' := by
  induction vtx generalizing n with
  | nil => exact ⟨n, rfl⟩
  | cons tx vtx ih =>
    obtain ⟨r, hr⟩ := h tx.getUsername
    obtain ⟨n₁, ok, hacc⟩ := mempoolAccept_returns hr
    obtain ⟨n₂, hn₂⟩ := ih (n := n₁) (by rw [mempoolAccept_eq hacc]; exact h)
    refine ⟨n₂, ?_⟩
    unfold resurrect
    simp only [hacc]
    exact hn₂

lemma getTransaction_settling (h : Working env n A D) (ht : n.Tidy env A D)
    (hL : n'.ledger = n.ledger) (hi : n'.txIndex = n.txIndex)
    (hv : n'.vBlockIndexByHeight = D.reverse.map some) (hb : 0 ≤ n'.nBestHeight)
    (hfuel : D.length < fuel) (u : Bytes) :
    getTransaction env fuel n' u (-1) = some (n.ledger.latest u D n'.nBestHeight) := by
  let m : Node := { n' with nBestHeight := (D.length : ℤ) - 1, undo := n.undo }
  have hm : Working env m D D := h.settle hL hi rfl hv rfl
  have htm : m.Tidy env D D := by
    have := ht.settle
    unfold Node.Tidy Node.entries at this ⊢
    rw [show m.ledger = n.ledger from hL, show m.txIndex = n.txIndex from hi]
    exact this
  have hlook := hm.getTransaction_latest (u := u) htm (m := n'.nBestHeight)
    (by rw [heightBound_of_nonneg hb]; exact hb) hfuel
  rw [heightBound_of_nonneg hb, show m.ledger = n.ledger from hL] at hlook
  rw [← hlook]
  unfold getTransaction
  rw [heightBound_neg, heightBound_of_nonneg hb]
  rfl

end Pool

end FreechCore
