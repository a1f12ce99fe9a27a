import FreechCore.Mining.Template

/-!
The registrations of a new block. A lookup at the tip takes one round, and finds the newest
entry of a name if that lies on the chain. So what `CreateNewBlock` asks of a transaction of the
memory pool is what `ConnectBlock` will ask of it in the next block.
-/

namespace FreechCore

open BackLink Loop List

/-! ### Lookups at the tip -/

/-- A node between calls, with the active chain `A`. Its index may have lost names. -/
structure Node.AtTip (n : Node) (env : Env) (A : List ℕ) : Prop where
  tree : n.ledger.Tree env
  sound : n.ledger.Sound env n.txIndex
  chain : n.ledger.Chain A
  vec : n.vBlockIndexByHeight = A.reverse.map some
  best : n.nBestHeight = (A.length : ℤ) - 1
  coins : n.coinsTip = A.head?
  tip : n.pindexBest = A.head?

variable {env : Env} {n : Node} {A : List ℕ} {fuel : ℕ} {tx : CTransaction}

lemma Settled.atTip (S : Settled env n A) : n.AtTip env A :=
  ⟨S.working.tree, S.working.sound, S.working.chainA, S.working.vec, S.working.best, S.coins,
    S.best⟩

lemma Node.AtTip.withPool (h : n.AtTip env A) (m : StdMap ℕ CTransaction) :
    Node.AtTip { n with mapTx := m } env A :=
  ⟨h.tree, h.sound, h.chain, h.vec, h.best, h.coins, h.tip⟩

/-- The newest registration of a name, if its block is on the chain. -/
def Node.newest (n : Node) (env : Env) (u : Bytes) : Option Found :=
  (n.entries env u (-1)).bind fun x => if n.isInMainChain x then n.ledger.found u x else none

section Lookup

variable {u : Bytes} {H : ℤ}

lemma Node.AtTip.getTransaction_eq (h : n.AtTip env A) (hH : n.nBestHeight ≤ n.heightBound H) :
    getTransaction env (fuel + 1) n u H = some (n.newest env u) := by
  rw [FreechCore.getTransaction_eq h.tree h.sound]
  unfold Node.newest
  cases hx : n.entries env u (-1) with
  | none =>
    rw [doWhile_inr (walkStep_none hx)]
    rfl
  | some x =>
    cases hm : n.isInMainChain x with
    | false =>
      rw [doWhile_inr (walkStep_off hx hm)]
      simp [hm]
    | true =>
      have hlt := h.chain.height_lt_length h.tree ((h.chain.isInMainChain_iff h.tree h.vec).mp hm)
      have hle : n.ledger.ht x ≤ n.heightBound H := by
        rw [h.best] at hH
        unfold Ledger.ht
        omega
      rw [doWhile_inr (walkStep_found hx hm hle)]
      simp [hm]

lemma Node.AtTip.getTransaction_best (h : n.AtTip env A) :
    getTransaction env (fuel + 1) n u (-1) = some (n.newest env u) :=
  h.getTransaction_eq (by rw [heightBound_neg])

lemma Node.AtTip.getTransaction_next (h : n.AtTip env A) :
    getTransaction env (fuel + 1) n u A.length = some (n.newest env u) := by
  refine h.getTransaction_eq ?_
  rw [heightBound_of_nonneg (by omega), h.best]
  omega

/-- A registration may stand on top of the chain: its name is free, or its key is signed with the
key before. -/
def Node.MayRegister (n : Node) (env : Env) (tx : CTransaction) : Prop :=
  ∀ old h, n.newest env tx.getUsername = some (old, h) → isReplacement env old tx = true

lemma Node.AtTip.checkOverwrite_ok (h : n.AtTip env A) {l : List CTransaction}
    (hl : ∀ tx ∈ l, n.MayRegister env tx) :
    checkOverwrite env (fuel + 1) A.length n l = some (n, .ok ()) := by
  induction l with
  | nil => rfl
  | cons tx l ih =>
    have htx : checkOverwriteTx env (fuel + 1) n A.length tx = some (n, .ok ()) := by
      unfold checkOverwriteTx verifyDuplicateOrReplacementTx
      rw [h.getTransaction_best, h.getTransaction_next]
      cases hnew : n.newest env tx.getUsername with
      | none => rfl
      | some f =>
        obtain ⟨old, x⟩ := f
        have hrep := hl tx (by simp) old x hnew
        dsimp only
        rw [hrep]
        by_cases hd : env.hashTx old = env.hashTx tx <;> simp [hd]
    unfold checkOverwrite
    rw [htx]
    exact ih fun t ht => hl t (mem_cons_of_mem _ ht)

end Lookup

/-! ### The memory pool -/

/-- The memory pools that come about by `accept` and `remove`, of nodes in any state. -/
inductive PoolFilled (env : Env) : StdMap ℕ CTransaction → Prop
  | empty : PoolFilled env .empty
  | accept {n n' : Node} {fuel : ℕ} {tx : CTransaction} {ok : Bool} : PoolFilled env n.mapTx →
      mempoolAccept env fuel n tx = some (n', ok) → PoolFilled env n'.mapTx
  | remove {n : Node} {tx : CTransaction} : PoolFilled env n.mapTx →
      PoolFilled env (mempoolRemove env n tx).mapTx

section Pool

variable {n' : Node} {ok : Bool}

lemma mempoolAccept_cases (h : mempoolAccept env fuel n tx = some (n', ok)) : n' = n ∨
    (checkTransaction env tx = .ok () ∧ tx.isSpamMessage = false ∧
      n' = { n with mapTx := n.mapTx.insert (env.hashTx tx) tx }) := by
  unfold mempoolAccept at h
  split_ifs at h with hbad
  · cases h
    exact Or.inl rfl
  · rw [not_or, not_or, not_not, Bool.not_eq_true] at hbad
    split at h
    · cases h
    · cases h
      exact Or.inr ⟨hbad.1, hbad.2.1, rfl⟩
    · split at h
      · cases h
      · cases h
        exact Or.inr ⟨hbad.1, hbad.2.1, rfl⟩
      · cases h
        exact Or.inl rfl

lemma PoolFilled.entry {m : StdMap ℕ CTransaction} (hm : PoolFilled env m) {h : ℕ}
    (htx : m.find? h = some tx) :
    h = env.hashTx tx ∧ checkTransaction env tx = .ok () ∧ tx.isSpamMessage = false := by
  induction hm with
  | empty => cases htx
  | accept hn hacc ih =>
    rcases mempoolAccept_cases hacc with rfl | ⟨hcheck, hspam, rfl⟩
    · exact ih htx
    · rw [StdMap.find?_insert] at htx
      split_ifs at htx with hh
      · cases htx
        exact ⟨hh, hcheck, hspam⟩
      · exact ih htx
  | remove hn ih =>
    unfold mempoolRemove at htx
    split_ifs at htx with hspam
    · exact ih htx
    · rw [StdMap.find?_erase] at htx
      split_ifs at htx
      exact ih htx

lemma PoolFilled.hashes (hm : PoolFilled env n.mapTx) :
    ((n.mapTx.entries.map Prod.snd).map env.hashTx).Nodup := by
  have hkeys : (n.mapTx.entries.map Prod.snd).map env.hashTx = n.mapTx.keys := by
    rw [StdMap.keys, map_map]
    refine map_congr_left fun e he => ?_
    exact (hm.entry (StdMap.mem_entries_iff.mp he)).1.symm
  rw [hkeys]
  exact n.mapTx.nodup_keys

end Pool

/-! ### The choice -/

section Select

variable {nMax : ℕ}
variable {l l' : List CTransaction} {s s' : Selection}

lemma Node.AtTip.isFreeOrReplacement_eq (h : n.AtTip env A) (tx : CTransaction) :
    ∃ ok, isFreeOrReplacement env (fuel + 1) n tx = some ok ∧
      (ok = true → n.MayRegister env tx) := by
  unfold isFreeOrReplacement verifyDuplicateOrReplacementTx
  rw [h.getTransaction_best]
  cases hnew : n.newest env tx.getUsername with
  | none => exact ⟨true, rfl, fun _ old x hx => by rw [hnew] at hx; cases hx⟩
  | some f =>
    obtain ⟨old, x⟩ := f
    refine ⟨isReplacement env old tx, by simp, fun hrep old' x' hx => ?_⟩
    rw [hnew] at hx
    cases hx
    exact hrep

/-- What holds of the registrations chosen from the list `l`. -/
structure Selected (env : Env) (n : Node) (nMax : ℕ) (l : List CTransaction) (s : Selection) :
    Prop where
  sub : s.vtx.Sublist l
  size : s.nBlockSize = 1000 + (s.vtx.map CTransaction.serializeSize).sum
  small : s.nBlockSize ≤ nMax
  names : (s.vtx.map (CTransaction.getUsernameHash env)).Nodup
  met : ∀ tx ∈ s.vtx, tx.getUsernameHash env ∈ s.uniqueUsers
  loose : ∀ tx ∈ s.vtx, tx.isSpamMessage = false
  may : ∀ tx ∈ s.vtx, n.MayRegister env tx

lemma selected_start (hMax : 1000 ≤ nMax) : Selected env n nMax [] .start where
  sub := List.Sublist.refl _
  size := rfl
  small := hMax
  names := nodup_nil
  met := fun _ h => absurd h not_mem_nil
  loose := fun _ h => absurd h not_mem_nil
  may := fun _ h => absurd h not_mem_nil

lemma Selected.skip (hs : Selected env n nMax l s) (tx : CTransaction) :
    Selected env n nMax (l ++ [tx]) s :=
  { hs with sub := hs.sub.trans (sublist_append_left l [tx]) }

lemma Selected.meet (hs : Selected env n nMax l s) (k : ℕ) :
    Selected env n nMax l { s with uniqueUsers := k :: s.uniqueUsers } :=
  { hs with met := fun tx htx => mem_cons_of_mem _ (hs.met tx htx) }

lemma Selected.step (h : n.AtTip env A) (hs : Selected env n nMax l s) (tx : CTransaction) :
    ∃ s', selectTx env (fuel + 1) n nMax s tx = some s' ∧ Selected env n nMax (l ++ [tx]) s' := by
  unfold selectTx
  by_cases hspam : tx.isSpamMessage = true
  · exact ⟨s, if_pos hspam, hs.skip tx⟩
  rw [if_neg hspam]
  obtain ⟨ok, hok, hmay⟩ := h.isFreeOrReplacement_eq tx
  rw [hok, Option.map_some]
  refine ⟨_, rfl, ?_⟩
  dsimp only
  split_ifs with h1 h2 h3
  · exact hs.skip tx
  · exact hs.skip tx
  · exact (hs.skip tx).meet _
  · rw [Bool.not_eq_false] at h1
    rw [not_le] at h3
    rw [Bool.not_eq_true] at hspam
    obtain ⟨hsub, hsize, hsmall, hnames, hmet, hloose, hall⟩ := hs
    refine ⟨hsub.append (List.Sublist.refl _), ?_, h3.le, ?_, ?_, ?_, ?_⟩
    · simp only [map_append, sum_append, map_cons, map_nil, sum_cons,
        sum_nil, hsize]
      omega
    · rw [map_append, nodup_append]
      refine ⟨hnames, by simp, fun a ha b hb hab => ?_⟩
      obtain ⟨t, ht, rfl⟩ := mem_map.mp ha
      rw [map_cons, map_nil, mem_singleton] at hb
      exact h2 (hb ▸ hab ▸ hmet t ht)
    · exact forall_mem_append.mpr ⟨fun t ht => mem_cons_of_mem _ (hmet t ht),
        forall_mem_singleton.mpr mem_cons_self⟩
    · exact forall_mem_append.mpr ⟨hloose, forall_mem_singleton.mpr hspam⟩
    · exact forall_mem_append.mpr ⟨hall, forall_mem_singleton.mpr (hmay h1)⟩

lemma Selected.run (h : n.AtTip env A) (hs : Selected env n nMax l s) :
    ∃ s', selectAll env (fuel + 1) n nMax s l' = some s' ∧ Selected env n nMax (l ++ l') s' := by
  induction l' generalizing l s with
  | nil => exact ⟨s, rfl, by rwa [append_nil]⟩
  | cons tx l' ih =>
    obtain ⟨s₁, hs₁, hsel⟩ := hs.step h tx
    obtain ⟨s', hs', hsel'⟩ := ih hsel
    refine ⟨s', ?_, ?_⟩
    · rw [selectAll, hs₁, Option.bind_some, hs']
    · rwa [append_assoc, singleton_append] at hsel'

end Select

end FreechCore
