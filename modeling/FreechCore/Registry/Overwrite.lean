import FreechCore.Registry.Working

/-!
The overwrite check of a block. For a name whose newest registration on the chain worked on
is known to the vector, the check asks for the same transaction or the older key's
signature. A registration the vector does not know yet is not checked at all. For a name the
chain does not have, an entry left by the abandoned branch is either checked against or, if
it lies above the block, dropped.
-/

namespace FreechCore

open BackLink Option

/-- A registration may stand over an older one: it repeats it, or the older key signed it. -/
def Allowed (env : Env) (old tx : CTransaction) : Prop :=
  env.hashTx old = env.hashTx tx ∨ isReplacement env old tx = true

instance (env : Env) (old tx : CTransaction) : Decidable (Allowed env old tx) :=
  inferInstanceAs (Decidable (_ ∨ _))

def overwriteError : Failure := .invalid 100 ["ConnectBlock() : tried to overwrite transaction"]

/-- The verdict on a registration over an older one. -/
def verdict (env : Env) (old tx : CTransaction) : Check :=
  if Allowed env old tx then .ok () else .error overwriteError

variable {env : Env} {fuel : ℕ} {n : Node} {tx : CTransaction} {A W : List ℕ} {u : Bytes}

variable {H : ℤ} {f : Found} {n' : Node} {res : Check} {x z : ℕ}

lemma checkOverwriteTx_hidden (h : getTransaction env fuel n tx.getUsername (-1) = some none) :
    checkOverwriteTx env fuel n H tx = some (n, .ok ()) := by
  simp [checkOverwriteTx, h]

lemma checkOverwriteTx_found {f' : Found}
    (h : getTransaction env fuel n tx.getUsername (-1) = some (some f))
    (h' : getTransaction env fuel n tx.getUsername H = some (some f')) :
    checkOverwriteTx env fuel n H tx = some (n, verdict env f'.1 tx) := by
  unfold checkOverwriteTx verifyDuplicateOrReplacementTx verdict Allowed
  simp only [h, h', true_and, Bool.true_and]
  by_cases hd : env.hashTx f'.1 = env.hashTx tx
  · simp [hd]
  · by_cases hr : isReplacement env f'.1 tx = true
    · simp [hd, hr]
    · simp [hd, hr, overwriteError]

lemma checkOverwriteTx_orphan (h : getTransaction env fuel n tx.getUsername (-1) = some (some f))
    (h' : getTransaction env fuel n tx.getUsername H = some none)
    (hs : (n.txIndex (tx.getUsername, -1)).isSome = true) :
    checkOverwriteTx env fuel n H tx = some (n.eraseTxIndex (tx.getUsername, -1), .ok ()) := by
  simp [checkOverwriteTx, verifyDuplicateOrReplacementTx, h, h', Node.readTxIndex, hs]

lemma checkOverwriteTx_returns {r : Node × Check} (h : checkOverwriteTx env fuel n H tx = some r) :
    ∃ o, getTransaction env fuel n tx.getUsername (-1) = some o ∧
      (o ≠ none → ∃ o', getTransaction env fuel n tx.getUsername H = some o') := by
  unfold checkOverwriteTx at h
  cases ho : getTransaction env fuel n tx.getUsername (-1) with
  | none => simp [ho] at h
  | some o =>
    refine ⟨o, rfl, fun hne => ?_⟩
    cases o with
    | none => exact absurd rfl hne
    | some f =>
      simp only [ho, verifyDuplicateOrReplacementTx] at h
      cases ho' : getTransaction env fuel n tx.getUsername H with
      | none => simp [ho'] at h
      | some o' => exact ⟨o', rfl⟩

/-! ### Dropping an entry -/

section Erase

variable {v : Bytes}

lemma entries_eraseTxIndex (v : Bytes) : (n.eraseTxIndex (v, -1)).entries env u =
    if u = v then eraseLatest (n.entries env u) else n.entries env u :=
  entries_erase v

lemma Working.erase (h : Working env n A W) (hv : n.ledger.history v W = []) :
    Working env (n.eraseTxIndex (v, -1)) A W where
  tree := h.tree
  sound := sound_erase h.sound _
  chainA := h.chainA
  chainW := h.chainW
  vec := h.vec
  best := h.best
  solid := fun x hx => (h.solid x hx).mono rfl id
  undo := h.undo
  follows := by
    intro u
    rw [entries_eraseTxIndex]
    split_ifs with huv
    · exact ⟨none, by rw [huv, show (n.eraseTxIndex (v, -1)).ledger = n.ledger from rfl, hv]
                      exact follows_eraseLatest⟩
    · exact h.follows u

lemma Node.Tidy.erase (ht : n.Tidy env A W) (hv : n.ledger.history v W = []) :
    (n.eraseTxIndex (v, -1)).Tidy env A W := by
  intro u r hf
  rw [entries_eraseTxIndex] at hf ⊢
  split_ifs at hf ⊢ with huv
  · subst huv
    have hr : r = none := by
      rw [show (n.eraseTxIndex (u, -1)).ledger = n.ledger from rfl, hv] at hf
      exact hf.symm
    subst hr
    exact ⟨fun _ hx => (by cases hx), fun _ hx => (by cases hx), fun _ hx => (by cases hx)⟩
  · exact ht u r hf

end Erase

/-! ### One registration -/

lemma heightBound_of_nonneg (hH : 0 ≤ H) : n.heightBound H = H := by
  unfold Node.heightBound
  rw [if_neg (by omega)]

lemma heightBound_neg : n.heightBound (-1) = n.nBestHeight := by
  simp [Node.heightBound]

lemma Ledger.found_eq_some {L : Ledger} (hu : L.registers u x = true) :
    ∃ old, L.registration x u = some old ∧ L.found u x = some (old, x) := by
  obtain ⟨old, hold⟩ := isSome_iff_exists.mp hu
  exact ⟨old, hold, by simp [Ledger.found, hold]⟩

namespace Working

lemma getTransaction_best (h : Working env n A W) (he : n.entries env u (-1) = some x) (hx : x ∈ A)
    (fuel : ℕ) : getTransaction env (fuel + 1) n u (-1) = some (n.ledger.found u x) :=
  h.getTransaction_entry he hx (by rw [heightBound_neg]; exact h.ht_le_best hx) fuel

/-- Only a name the chain does not have can have its entry above the block. -/
lemma history_eq_nil_of_above (h : Working env n A W) (hz : n.entries env u (-1) = some z)
    (hH : ¬ n.ledger.ht z ≤ W.length) : n.ledger.history u W = [] := by
  cases hR : n.ledger.history u W with
  | nil => rfl
  | cons y R =>
    cases (h.entry_head hR).symm.trans hz
    have := h.chainW.height_lt_length h.tree (Ledger.mem_of_history_cons hR).1
    unfold Ledger.ht at hH
    omega

end Working

lemma isSome_txIndex_of_entries {k : ℤ} (hz : n.entries env u k = some z) :
    (n.txIndex (u, k)).isSome = true := by
  rw [isSome_iff_ne_none]
  intro hn
  cases (Ledger.entries_none hn).symm.trans hz

/-- What became of the register of a name in the overwrite check of a block at height `H`:
nothing, or its newest entry was dropped because it lies above the block. -/
def Dropped (env : Env) (n : Node) (A W : List ℕ) (H : ℤ) (u : Bytes) : Prop :=
  n.ledger.history u W = [] ∧
    ∃ z, n.entries env u (-1) = some z ∧ z ∈ A ∧ H < n.ledger.ht z

section

variable (h : Working env n A W) (hc : checkOverwriteTx env fuel n W.length tx = some (n', res))

include h hc

/-- **The check of one registration**, on a chain of `W.length` blocks. -/
lemma checkOverwriteTx_cases :
    (n' = n ∧ (∀ y R, n.ledger.history tx.getUsername W = y :: R → y ∈ A →
        ∃ old, n.ledger.registration y tx.getUsername = some old ∧ res = verdict env old tx)) ∨
      (Dropped env n A W W.length tx.getUsername ∧ res = .ok () ∧
        n' = n.eraseTxIndex (tx.getUsername, -1)) := by
  obtain ⟨o, ho, ho'⟩ := checkOverwriteTx_returns hc
  obtain ⟨f, rfl⟩ : ∃ f, fuel = f + 1 := by
    cases fuel with
    | zero => simp [getTransaction] at ho
    | succ f => exact ⟨f, rfl⟩
  have hb := heightBound_of_nonneg (n := n) (H := W.length) (by omega)
  -- the entry, if it is on the vector's chain, is found at the best height
  have hbest : ∀ z, n.entries env tx.getUsername (-1) = some z → z ∈ A →
      ∃ old, n.ledger.registration z tx.getUsername = some old ∧ o = some (old, z) := by
    intro z hz hzA
    obtain ⟨old, hold, hfound⟩ := Ledger.found_eq_some (h.sound.registers hz).2
    have := h.getTransaction_best hz hzA f
    rw [ho, hfound, some.injEq] at this
    exact ⟨old, hold, this⟩
  by_cases hA : ∃ z, n.entries env tx.getUsername (-1) = some z ∧ z ∈ A
  · obtain ⟨z, hz, hzA⟩ := hA
    obtain ⟨old, hold, rfl⟩ := hbest z hz hzA
    obtain ⟨o', ho'⟩ := ho' (by simp)
    by_cases hH : n.ledger.ht z ≤ W.length
    · have hf := h.getTransaction_entry hz hzA (m := W.length) (by rw [hb]; exact hH) f
      rw [Ledger.found, hold] at hf
      rw [checkOverwriteTx_found ho hf, some.injEq, Prod.mk.injEq] at hc
      refine Or.inl ⟨hc.1.symm, fun y R hR hy => ?_⟩
      have hyz : y = z := some.inj ((h.entry_head hR).symm.trans hz)
      exact ⟨old, hyz ▸ hold, hc.2.symm⟩
    · have hR := h.history_eq_nil_of_above hz hH
      cases o' with
      | some f' =>
        rw [checkOverwriteTx_found ho ho', some.injEq, Prod.mk.injEq] at hc
        refine Or.inl ⟨hc.1.symm, fun y R hR' => ?_⟩
        rw [hR] at hR'
        cases hR'
      | none =>
        rw [checkOverwriteTx_orphan ho ho' (isSome_txIndex_of_entries hz), some.injEq,
          Prod.mk.injEq] at hc
        exact Or.inr ⟨⟨hR, z, hz, hzA, by omega⟩, hc.2.symm, hc.1.symm⟩
  · have hoff := h.getTransaction_off (u := tx.getUsername) (fun z hz hzA => hA ⟨z, hz, hzA⟩) (-1) f
    rw [checkOverwriteTx_hidden hoff, some.injEq, Prod.mk.injEq] at hc
    refine Or.inl ⟨hc.1.symm, fun y R hR hy => ?_⟩
    exact absurd ⟨y, h.entry_head hR, hy⟩ hA

lemma checkOverwriteTx_keeps :
    n'.ledger = n.ledger ∧ Working env n' A W ∧ (n.Tidy env A W → n'.Tidy env A W) ∧
      ∀ u ≠ tx.getUsername, n'.entries env u = n.entries env u := by
  rcases checkOverwriteTx_cases h hc with ⟨rfl, -⟩ | ⟨hd, -, rfl⟩
  · exact ⟨rfl, h, id, fun _ _ => rfl⟩
  · exact ⟨rfl, h.erase hd.1, fun ht => ht.erase hd.1,
      fun u hu => (entries_eraseTxIndex _).trans (if_neg hu)⟩

end

/-! ### All registrations of a block -/

section Many

variable {l : List CTransaction}

/-- What the overwrite check of registrations `l` leaves behind. -/
structure Overwritten (env : Env) (A W : List ℕ) (l : List CTransaction) (n n' : Node)
    (res : Check) : Prop where
  working : Working env n' A W
  tidy : n.Tidy env A W → n'.Tidy env A W
  same : n' = { n with txIndex := n'.txIndex }
  rows : ∀ u, n'.entries env u = n.entries env u ∨
    ((∃ tx ∈ l, tx.getUsername = u) ∧ Dropped env n A W W.length u ∧
      n'.entries env u = eraseLatest (n.entries env u))
  allowed : res = .ok () → ∀ tx ∈ l, ∀ y R, n.ledger.history tx.getUsername W = y :: R → y ∈ A →
    ∃ old, n.ledger.registration y tx.getUsername = some old ∧ Allowed env old tx

lemma verdict_eq_ok {old : CTransaction} : verdict env old tx = .ok () ↔ Allowed env old tx := by
  unfold verdict
  split_ifs with h <;> simp [h]

lemma Overwritten.refl (h : Working env n A W) {f : Failure} :
    Overwritten env A W l n n (.error f) :=
  ⟨h, id, rfl, fun _ => Or.inl rfl, fun hr => by cases hr⟩

lemma eraseLatest_eraseLatest (e : ℤ → Option ℕ) : eraseLatest (eraseLatest e) = eraseLatest e := by
  simp [eraseLatest]

lemma Overwritten.cons {n₁ : Node} (h : Working env n A W)
    (h₁ : checkOverwriteTx env fuel n W.length tx = some (n₁, .ok ()))
    (h₂ : Working env n₁ A W → Overwritten env A W l n₁ n' res) :
    Overwritten env A W (tx :: l) n n' res := by
  rcases checkOverwriteTx_cases h h₁ with ⟨rfl, hv⟩ | ⟨hdrop, -, rfl⟩
  · obtain ⟨hw, ht, hs, hr, ha⟩ := h₂ h
    refine ⟨hw, ht, hs, fun u => ?_, fun hok t htl y R hR hy => ?_⟩
    · rcases hr u with h | ⟨⟨t, ht, hu⟩, hd, he⟩
      · exact Or.inl h
      · exact Or.inr ⟨⟨t, List.mem_cons_of_mem _ ht, hu⟩, hd, he⟩
    · rcases List.mem_cons.mp htl with rfl | htl
      · obtain ⟨old, hold, hok'⟩ := hv y R hR hy
        exact ⟨old, hold, verdict_eq_ok.mp hok'.symm⟩
      · exact ha hok t htl y R hR hy
  · obtain ⟨hw, ht, hs, hr, ha⟩ := h₂ (h.erase hdrop.1)
    refine ⟨hw, fun hn => ht (hn.erase hdrop.1), by rw [hs]; rfl, fun u => ?_, ?_⟩
    · by_cases hu : u = tx.getUsername
      · subst hu
        refine Or.inr ⟨⟨tx, by simp, rfl⟩, hdrop, ?_⟩
        rcases hr tx.getUsername with h | ⟨-, -, he⟩
        · rw [h, entries_eraseTxIndex, if_pos rfl]
        · rw [he, entries_eraseTxIndex, if_pos rfl, eraseLatest_eraseLatest]
      · have he : (n.eraseTxIndex (tx.getUsername, -1)).entries env u = n.entries env u := by
          rw [entries_eraseTxIndex, if_neg hu]
        rcases hr u with h | ⟨⟨t, ht, htu⟩, ⟨hd, hd'⟩, he'⟩
        · exact Or.inl (h.trans he)
        · rw [he] at hd' he'
          exact Or.inr ⟨⟨t, List.mem_cons_of_mem _ ht, htu⟩, ⟨hd, hd'⟩, he'⟩
    · intro hok t htl y R hR hy
      rcases List.mem_cons.mp htl with rfl | htl
      · rw [hdrop.1] at hR
        cases hR
      · exact ha hok t htl y R hR hy

lemma checkOverwrite_overwritten (h : Working env n A W)
    (hc : checkOverwrite env fuel W.length n l = some (n', res)) :
    Overwritten env A W l n n' res := by
  induction l generalizing n with
  | nil =>
    obtain ⟨rfl, rfl⟩ := hc
    exact ⟨h, id, rfl, fun _ => Or.inl rfl, fun _ t ht => by cases ht⟩
  | cons tx l ih =>
    unfold checkOverwrite at hc
    cases h₁ : checkOverwriteTx env fuel n W.length tx with
    | none => simp [h₁] at hc
    | some r =>
      obtain ⟨n₁, res₁⟩ := r
      simp only [h₁] at hc
      cases res₁ with
      | ok v => exact Overwritten.cons h h₁ fun h' => ih h' hc
      | error f =>
        obtain ⟨rfl, rfl⟩ := hc
        -- a registration that fails leaves the index as it is
        rcases checkOverwriteTx_cases h h₁ with ⟨rfl, -⟩ | ⟨-, hok, -⟩
        · exact Overwritten.refl h
        · cases hok

end Many

end FreechCore
