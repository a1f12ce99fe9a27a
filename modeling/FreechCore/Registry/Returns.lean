import Mathlib.Algebra.Order.BigOperators.Group.List
import FreechCore.Registry.Across

/-!
When connecting a branch comes to an end. A lookup walks down the register of a name by its height
keys, and only a block of the vector above the bound leads on. So it ends if the keys that it
passes lead down. While a branch is connected the vector is still that of the chain that is left,
and what the branch writes for a name hides the older keys of that name; when the transactions of
the chain that is left are brought back, the vector is new and the bound still the old best height.
-/

namespace FreechCore

open BackLink Ledger Loop

/-! ### Indexes that lead to registrations -/

/-- The index of the node leads to registrations in blocks of its tree. -/
structure Node.Indexed (n : Node) (env : Env) : Prop where
  tree : n.ledger.Tree env
  sound : n.ledger.Sound env n.txIndex

/-- Newest entries of names were dropped from the index, and nothing else was changed. -/
structure Node.Thinned (n n' : Node) : Prop where
  same : n.IndexOnly n'
  keys : ∀ u k, n'.txIndex (u, k) = n.txIndex (u, k) ∨ (k = -1 ∧ n'.txIndex (u, k) = none)

variable {env : Env} {fuel x : ℕ} {n n' : Node} {H now : ℤ} {view : Option ℕ} {p : CBlockIndex}
  {b : CBlock}

lemma Node.Thinned.refl (n : Node) : n.Thinned n := ⟨rfl, fun _ _ => Or.inl rfl⟩

lemma Node.Thinned.trans {n₁ n₂ n₃ : Node} (h : n₁.Thinned n₂) (h' : n₂.Thinned n₃) :
    n₁.Thinned n₃ := by
  refine ⟨h.same.trans h'.same, fun u k => ?_⟩
  rcases h'.keys u k with hk | hk
  · rw [hk]
    exact h.keys u k
  · exact Or.inr hk

lemma Node.Thinned.entries (h : n.Thinned n') (u : Bytes) (k : ℤ) :
    n'.entries env u k = n.entries env u k ∨ (k = -1 ∧ n'.entries env u k = none) := by
  unfold Node.entries
  rw [h.same.frame.ledger]
  rcases h.keys u k with hk | ⟨hk, hn⟩
  · exact Or.inl (entries_congr hk)
  · exact Or.inr ⟨hk, entries_none hn⟩

lemma Node.Thinned.entries_of_some (h : n.Thinned n') {u : Bytes} {k : ℤ}
    (hx : n'.entries env u k = some x) : n.entries env u k = some x := by
  have he : n'.entries env u k = n.entries env u k ∨ (k = -1 ∧ n'.entries env u k = none) :=
    h.entries u k
  rcases he with he | ⟨-, he⟩
  · rw [← he]
    exact hx
  · rw [he] at hx
    cases hx

lemma Node.Thinned.indexed (h : n.Thinned n') (I : n.Indexed env) : n'.Indexed env := by
  have hL := h.same.frame.ledger
  refine ⟨by rw [hL]; exact I.tree, fun u k pos hk => ?_⟩
  rw [hL]
  rcases h.keys u k with he | ⟨-, he⟩
  · exact I.sound u k pos (he ▸ hk)
  · rw [he] at hk
    cases hk

lemma Node.Thinned.erase (n : Node) (u : Bytes) : n.Thinned (n.eraseTxIndex (u, -1)) := by
  refine ⟨rfl, fun v k => ?_⟩
  by_cases hk : (v, k) = (u, -1)
  · exact Or.inr ⟨(Prod.mk.inj hk).2, by simp [Node.eraseTxIndex, hk]⟩
  · exact Or.inl (by simp [Node.eraseTxIndex, hk])

variable {tx : CTransaction} {chk : Check} {view' : Option ℕ} {T : ℕ}

lemma verifyDuplicateOrReplacementTx_thinned {dup rep orphan ok : Bool}
    (hv : verifyDuplicateOrReplacementTx env fuel n tx dup rep H orphan = some (n', ok)) :
    n.Thinned n' := by
  unfold verifyDuplicateOrReplacementTx at hv
  split at hv
  · cases hv
  · split_ifs at hv <;> · cases hv; exact .refl n
  · split_ifs at hv
    · cases hv
      exact .erase n _
    · cases hv
      exact .refl n

lemma checkOverwriteTx_thinned (hc : checkOverwriteTx env fuel n H tx = some (n', chk)) :
    n.Thinned n' := by
  unfold checkOverwriteTx at hc
  split at hc
  · cases hc
  · cases hc
    exact .refl n
  · split at hc
    · cases hc
    · rename_i hv
      cases hc
      exact verifyDuplicateOrReplacementTx_thinned hv
    · rename_i hv
      cases hc
      exact verifyDuplicateOrReplacementTx_thinned hv

lemma checkOverwrite_thinned {l : List CTransaction}
    (hc : checkOverwrite env fuel H n l = some (n', chk)) : n.Thinned n' := by
  induction l generalizing n with
  | nil =>
    cases hc
    exact .refl _
  | cons tx l ih =>
    unfold checkOverwrite at hc
    split at hc
    · cases hc
    · rename_i hx
      cases hc
      exact checkOverwriteTx_thinned hx
    · rename_i hx
      exact (checkOverwriteTx_thinned hx).trans (ih hc)

/-! ### One block -/

lemma connectBlock_entries (I : n.Indexed env) (B : n.ledger.Stored env x p b)
    (hroot : p.pprev ≠ none)
    (hc : connectBlock env fuel now n view x p b false = some (n', view', .ok ())) :
    n'.Indexed env ∧ view' = some x ∧ ∃ n₁, n.Thinned n₁ ∧
      ∀ u, n'.entries env u = if n.ledger.registers u x
        then connect n.ledger.ht (n₁.entries env u) x else n₁.entries env u := by
  have hg : getHash env b ≠ hashGenesisBlock env := by
    rw [B.hash]
    exact fun e => hroot ((I.tree.root_iff B.index).mpr e)
  obtain ⟨n₁, C, hv, hn'⟩ := connectBlock_ok hg hc
  have ht := checkOverwrite_thinned C.overwrite
  have hb := checkBlock_checked C.check
  have hL₁ := ht.same.frame.ledger
  have B₁ : n₁.ledger.Stored env x p b := hL₁.symm ▸ B
  have I₁ := ht.indexed I
  obtain ⟨hL, hi, he⟩ := written_eq B₁ hb I₁.sound hn'
  refine ⟨⟨by rw [hL]; exact I₁.tree, ?_⟩, hv, n₁, ht, fun u => ?_⟩
  · rw [hL, hi]
    exact sound_connected B₁ hb I₁.sound
  · rw [← hL₁]
    exact he u

lemma Node.Indexed.across (env : Env) : Across env fun n n' => n.Indexed env → n'.Indexed env where
  refl := fun _ => id
  trans := fun h h' => h' ∘ h
  disconnect := fun hd I => by
    rcases disconnectBlock_cases hd with rfl | rfl
    · exact I
    · exact ⟨I.tree, sound_disconnected I.sound⟩
  connect := fun {fuel now n view h p b n' view' r} hp hb hc I => by
    have B := stored_of_readBlockFromDisk I.tree hp hb
    cases r with
    | error f =>
      obtain ⟨-, ⟨rfl, -⟩ | ⟨-, tx, -, ⟨rfl, -⟩ | ⟨-, ho⟩⟩⟩ := connectBlock_error hc
      · exact I
      · exact I
      · exact (checkOverwrite_thinned ho).indexed I
    | ok u =>
      by_cases hroot : p.pprev = none
      · -- the first block writes nothing
        have hg : getHash env b = hashGenesisBlock env := by
          rw [B.hash]
          exact (I.tree.root_iff B.index).mp hroot
        rw [(connectBlock_genesis hg hc).1]
        exact I
      · exact (connectBlock_entries I B hroot hc).1
  child := fun n h I => by
    have hs := Node.SameChain.markFailedChild n h
    exact ⟨by rw [hs.ledger]; exact I.tree, by rw [hs.ledger, hs.txIndex]; exact I.sound⟩
  valid := fun n h I => by
    have hs := (Marked.markFailedValid n h).same
    exact ⟨by rw [hs.ledger]; exact I.tree, by rw [hs.ledger, hs.txIndex]; exact I.sound⟩
  switch := fun hs I => by
    rw [switchTo_eq hs]
    exact ⟨I.tree, I.sound⟩

/-! ### Lookups that return -/

/-- No block of the tree is higher. -/
def Node.Under (n : Node) (T : ℕ) : Prop := ∀ h p, n.index h = some p → p.nHeight ≤ T

/-- Lookups with the bound lead down: where the newest block for a name is in the vector and above
the bound, the keys lead to no such block above them. -/
def Node.LeadsDown (n : Node) (env : Env) (mh : ℤ) : Prop :=
  ∀ u x, n.entries env u (-1) = some x → n.isInMainChain x = true → mh < n.ledger.ht x →
    Grounded n.ledger.ht (fun y => n.isInMainChain y = true ∧ mh < n.ledger.ht y) (n.entries env u)

/-- All lookups with the bound return. -/
def Node.Responds (n : Node) (env : Env) (fuel : ℕ) (maxHeight : ℤ) : Prop :=
  ∀ u, ∃ r, getTransaction env fuel n u maxHeight = some r

section Lookups

variable {mh : ℤ}

lemma exists_under (n : Node) : ∃ T, n.Under T := by
  refine ⟨n.mapBlockIndex.total CBlockIndex.nHeight, fun h p hp => ?_⟩
  exact List.le_sum_of_mem (List.mem_map.mpr ⟨(h, p), StdMap.mem_entries_iff.mpr hp, rfl⟩)

lemma Node.LeadsDown.responds (hd : n.LeadsDown env (n.heightBound H)) (I : n.Indexed env)
    (hT : n.Under T) (hfuel : T + 1 < fuel) : n.Responds env fuel H := by
  intro u
  rw [getTransaction_eq I.tree I.sound]
  have hH : ∀ k y, n.entries env u k = some y → n.ledger.ht y ≤ T := by
    intro k y hy
    obtain ⟨⟨q, hq⟩, -⟩ := I.sound.registers hy
    have := hT y q hq
    unfold ht
    rw [heightOf_eq hq]
    omega
  obtain ⟨o, ho⟩ := walk_returns (hd u) hH hfuel
  exact ⟨_, by rw [ho]; rfl⟩

lemma Node.LeadsDown.thinned (hd : n.LeadsDown env mh) (h : n.Thinned n') :
    n'.LeadsDown env mh := by
  have hF := h.same.frame
  unfold Node.LeadsDown
  rw [hF.ledger, isInMainChain_congr hF.ledger hF.vec]
  intro u y hy hm hlow
  exact (hd u y (h.entries_of_some hy) hm hlow).mono (fun _ _ _ => h.entries_of_some) fun _ => id

lemma checkSpamUser_ends (h : n.Responds env fuel H) (tx : CTransaction) :
    ∃ chk, checkSpamUser env fuel n H tx = some chk := by
  obtain ⟨r, hr⟩ := h (CScript.extractPushDataString tx.userName 0)
  unfold checkSpamUser
  simp only [hr]
  split_ifs
  · exact ⟨_, rfl⟩
  · exact ⟨_, rfl⟩
  · cases r <;> exact ⟨_, rfl⟩

lemma verifyDuplicateOrReplacementTx_ends (h : n.Responds env fuel H) (tx : CTransaction)
    (dup rep orphan : Bool) :
    ∃ r, verifyDuplicateOrReplacementTx env fuel n tx dup rep H orphan = some r := by
  obtain ⟨r, hr⟩ := h tx.getUsername
  unfold verifyDuplicateOrReplacementTx
  simp only [hr]
  cases r with
  | _ =>
    dsimp only
    split_ifs <;> exact ⟨_, rfl⟩

lemma checkOverwriteTx_ends (hnew : n.Responds env fuel (-1)) (h : n.Responds env fuel H)
    (tx : CTransaction) : ∃ r, checkOverwriteTx env fuel n H tx = some r := by
  obtain ⟨r, hr⟩ := hnew tx.getUsername
  obtain ⟨⟨m, ok⟩, hm⟩ := verifyDuplicateOrReplacementTx_ends h tx true true true
  unfold checkOverwriteTx
  rw [hr]
  cases r with
  | none => exact ⟨_, rfl⟩
  | some found =>
    simp only [hm]
    cases ok <;> exact ⟨_, rfl⟩

/-- The lookups return also when entries were dropped on the way. -/
def Node.StaysResponding (n : Node) (env : Env) (fuel : ℕ) (H : ℤ) : Prop :=
  ∀ m, n.Thinned m → m.Responds env fuel (-1) ∧ m.Responds env fuel H

lemma checkOverwrite_ends (h : n.StaysResponding env fuel H) (l : List CTransaction) :
    ∃ r, checkOverwrite env fuel H n l = some r := by
  induction l generalizing n with
  | nil => exact ⟨_, rfl⟩
  | cons tx l ih =>
    obtain ⟨hnew, hH⟩ := h n (.refl n)
    obtain ⟨⟨m, chk⟩, hm⟩ := checkOverwriteTx_ends hnew hH tx
    unfold checkOverwrite
    rw [hm]
    cases chk with
    | error f => exact ⟨_, rfl⟩
    | ok u => exact ih fun m' hm' => h m' ((checkOverwriteTx_thinned hm).trans hm')

lemma connectBlock_ends (hview : p.pprev = view) (h : n.StaysResponding env fuel b.nHeight) :
    ∃ r, connectBlock env fuel now n view x p b false = some r := by
  unfold connectBlock
  simp only [Bool.not_false, Bool.false_eq_true, if_false]
  cases hcheck : checkBlock env now true true b with
  | error f => exact ⟨_, rfl⟩
  | ok u =>
    obtain ⟨tx, hvtx, -⟩ := (checkBlock_checked hcheck).first
    obtain ⟨chk, hspam⟩ := checkSpamUser_ends (h n (.refl n)).2 tx
    obtain ⟨⟨m, res⟩, hover⟩ := checkOverwrite_ends h b.registrations
    rw [if_neg (not_not.mpr hview)]
    split_ifs
    · exact ⟨_, rfl⟩
    · rw [hvtx, List.head?_cons, Option.map_some, hspam]
      cases chk with
      | error f => exact ⟨_, rfl⟩
      | ok u =>
        rw [hover]
        cases res <;> exact ⟨_, rfl⟩

lemma mempoolAccept_ends (h : n.Responds env fuel (-1)) (tx : CTransaction) :
    ∃ m ok, mempoolAccept env fuel n tx = some (m, ok) ∧ m.Responds env fuel (-1) := by
  obtain ⟨r, hr⟩ := h tx.getUsername
  obtain ⟨⟨m, ok⟩, hm⟩ := verifyDuplicateOrReplacementTx_ends h tx false true false
  unfold mempoolAccept
  split_ifs
  · exact ⟨n, false, rfl, h⟩
  · rw [hr]
    cases r with
    | none => exact ⟨_, _, rfl, h⟩
    | some found =>
      simp only [hm]
      cases ok
      · exact ⟨_, _, rfl, h⟩
      · exact ⟨_, _, rfl, h⟩

lemma resurrect_ends (h : n.Responds env fuel (-1)) (vtx : List CTransaction) :
    ∃ m, resurrect env fuel n vtx = some m := by
  induction vtx generalizing n with
  | nil => exact ⟨n, rfl⟩
  | cons tx vtx ih =>
    obtain ⟨m, ok, hm, h'⟩ := mempoolAccept_ends h tx
    unfold resurrect
    rw [hm]
    exact ih h'

end Lookups

/-! ### The two branches of a switch -/

/-- The index leads to no block above the best height, and what it holds under a height leads to
no block of the vector above that height. -/
structure Node.Downward (n : Node) (env : Env) : Prop where
  active : ∀ u, Grounded n.ledger.ht (fun y => n.isInMainChain y = true) (n.entries env u)
  height : ∀ u k y, n.entries env u k = some y → n.ledger.ht y ≤ n.nBestHeight

/-- The lookups of a block at the height lead down, unless it is above the vector. -/
def Node.Passable (n : Node) (env : Env) (H : ℤ) : Prop :=
  H ≤ n.nBestHeight → ∀ u x, n.entries env u (-1) = some x → n.isInMainChain x = true →
    Grounded n.ledger.ht (fun y => n.isInMainChain y = true) (n.entries env u)

/-- Above the best height, the index leads to blocks below the height `H` and by keys that lead
down. -/
structure Node.Upward (n : Node) (env : Env) (H : ℤ) : Prop where
  keys : ∀ u, Grounded n.ledger.ht (fun y => n.nBestHeight < n.ledger.ht y) (n.entries env u)
  newest : ∀ u x, n.entries env u (-1) = some x → n.nBestHeight < n.ledger.ht x →
    n.ledger.ht x < H

section Branches

variable {H' : ℤ} {W up dis : List ℕ}

lemma Node.Downward.congr (D : n.Downward env) (hL : n'.ledger = n.ledger)
    (hv : n'.vBlockIndexByHeight = n.vBlockIndexByHeight) (hh : n'.nBestHeight = n.nBestHeight)
    (hkeys : ∀ u k, k ≠ -1 → n'.txIndex (u, k) = n.txIndex (u, k))
    (hrows : ∀ u k pos, n'.txIndex (u, k) = some pos → ∃ k', n.txIndex (u, k') = some pos) :
    n'.Downward env := by
  constructor
  · intro u
    rw [hL, isInMainChain_congr hL hv]
    refine (D.active u).mono (fun k y hk hy => ?_) fun _ => id
    rw [← hy, Node.entries, Node.entries, hL]
    exact entries_congr (hkeys u k (by omega)).symm
  · intro u k y hy
    rw [hL, hh]
    unfold Node.entries at hy
    rw [hL] at hy
    cases hpos : n'.txIndex (u, k) with
    | none =>
      rw [entries_none hpos] at hy
      cases hy
    | some pos =>
      obtain ⟨k', hk'⟩ := hrows u k pos hpos
      refine D.height u k' y ?_
      rw [← hy]
      exact entries_congr (hk'.trans hpos.symm)

lemma foldl_restoreEntry_keys (l : List CTransaction) (idx : TxKey → Option CDiskTxPos) (u : Bytes)
    (k : ℤ) : (k ≠ -1 → l.foldl (restoreEntry H) idx (u, k) = idx (u, k)) ∧
      ∀ pos, l.foldl (restoreEntry H) idx (u, k) = some pos → ∃ k', idx (u, k') = some pos := by
  induction l generalizing idx with
  | nil => exact ⟨fun _ => rfl, fun pos hpos => ⟨k, hpos⟩⟩
  | cons tx l ih =>
    obtain ⟨h1, h2⟩ := ih (restoreEntry H idx tx)
    rw [List.foldl_cons]
    refine ⟨fun hk => ?_, fun pos hpos => ?_⟩
    · rw [h1 hk]
      by_cases hu : tx.getUsername = u
      · rw [restoreEntry_self hu, if_neg hk]
      · exact restoreEntry_other hu k
    · obtain ⟨k', hk'⟩ := h2 pos hpos
      exact restoreEntry_cases hk'

lemma disconnectAll_downward {r : Except Failure (List CTransaction)}
    (hd : disconnectAll env n view dis = some (n', view', r)) (D : n.Downward env) :
    n'.Downward env := by
  refine disconnectAll_of_disconnectBlock (R := fun n n' => n.Downward env → n'.Downward env)
    (fun _ => id) (fun h h' => h' ∘ h) (fun {m _ _ _ b _ _ _} hone D => ?_) hd D
  rcases disconnectBlock_cases hone with rfl | rfl
  · exact D
  · exact D.congr rfl rfl rfl
      (fun u k => (foldl_restoreEntry_keys b.registrations.reverse m.txIndex u k).1)
      fun u k => (foldl_restoreEntry_keys b.registrations.reverse m.txIndex u k).2

lemma Node.Downward.passable (D : n.Downward env) (H : ℤ) : n.Passable env H :=
  fun _ u _ _ _ => D.active u

lemma Node.Downward.upward (D : n.Downward env) (H : ℤ) : n.Upward env H := by
  refine ⟨fun u k y _ hy hlow => ?_, fun u y hy hlow => ?_⟩
  · have := D.height u k y hy
    omega
  · have := D.height u (-1) y hy
    omega

lemma Node.Passable.thinned (P : n.Passable env H) (h : n.Thinned n') : n'.Passable env H := by
  have hF := h.same.frame
  unfold Node.Passable
  rw [hF.ledger, isInMainChain_congr hF.ledger hF.vec, hF.height]
  intro hH u y hy hm
  exact (P hH u y (h.entries_of_some hy) hm).mono (fun _ _ _ => h.entries_of_some) fun _ => id

lemma Node.Upward.thinned (U : n.Upward env H) (h : n.Thinned n') : n'.Upward env H := by
  have hF := h.same.frame
  constructor
  · intro u
    rw [hF.ledger, hF.height]
    exact (U.keys u).mono (fun _ _ _ => h.entries_of_some) fun _ => id
  · intro u y hy
    rw [hF.ledger, hF.height]
    exact U.newest u y (h.entries_of_some hy)

/-- **Every lookup of the block returns**, if no block of the vector is above the best height. -/
lemma Node.Passable.staysResponding (P : n.Passable env H) (hH : 0 ≤ H) (I : n.Indexed env)
    (hlow : ∀ y, n.isInMainChain y = true → n.ledger.ht y ≤ n.nBestHeight) (hT : n.Under T)
    (hfuel : T + 1 < fuel) : n.StaysResponding env fuel H := by
  have hnew : n.LeadsDown env (n.heightBound (-1)) := by
    intro u y _ hm hlt
    have := hlow y hm
    simp only [Node.heightBound] at hlt
    omega
  have hat : n.LeadsDown env (n.heightBound H) := by
    intro u y hy hm hlt
    have := hlow y hm
    rw [Node.heightBound, if_neg (by omega)] at hlt ⊢
    exact (P (by omega) u y hy hm).mono (fun _ _ _ => id) fun _ hz => hz.1
  intro m hm
  have hF := hm.same.frame
  have hb : ∀ k, m.heightBound k = n.heightBound k := fun k => by
    rw [Node.heightBound, Node.heightBound, hF.height]
  have hT' : m.Under T := by
    unfold Node.Under
    rw [Node.index_congr hF.ledger]
    exact hT
  exact ⟨LeadsDown.responds (by rw [hb]; exact hnew.thinned hm) (hm.indexed I) hT' hfuel,
    LeadsDown.responds (by rw [hb]; exact hat.thinned hm) (hm.indexed I) hT' hfuel⟩

/-- After a block outside the vector, what it wrote hides the older keys of its names. -/
lemma Node.Passable.connectBlock (P : n.Passable env H) (I : n.Indexed env)
    (B : n.ledger.Stored env x p b) (hroot : p.pprev ≠ none) (hx : n.isInMainChain x = false)
    (hH : H ≤ H')
    (hc : connectBlock env fuel now n view x p b false = some (n', view', .ok ())) :
    n'.Passable env H' := by
  obtain ⟨-, -, n₁, hthin, he⟩ := connectBlock_entries I B hroot hc
  have hF := connectBlock_frame hc
  have P₁ := P.thinned hthin
  have hF₁ := hthin.same.frame
  unfold Node.Passable at P₁ ⊢
  rw [hF₁.ledger, isInMainChain_congr hF₁.ledger hF₁.vec, hF₁.height] at P₁
  rw [hF.ledger, isInMainChain_congr hF.ledger hF.vec, hF.height]
  intro hle u y
  rw [he]
  split_ifs with hu
  · have hpos := I.tree.height_pos B.index hu
    rw [connect_newest hpos]
    intro hy hm
    cases hy
    rw [hx] at hm
    cases hm
  · exact P₁ (hH.trans hle) u y

lemma Node.Upward.connectBlock (U : n.Upward env (n.ledger.ht x)) (I : n.Indexed env)
    (B : n.ledger.Stored env x p b) (hroot : p.pprev ≠ none)
    (hc : connectBlock env fuel now n view x p b false = some (n', view', .ok ())) :
    n'.Upward env (n.ledger.ht x + 1) := by
  obtain ⟨-, -, n₁, hthin, he⟩ := connectBlock_entries I B hroot hc
  have hF := connectBlock_frame hc
  obtain ⟨hkeys, hnew⟩ := U.thinned hthin
  have hF₁ := hthin.same.frame
  rw [hF₁.ledger, hF₁.height] at hkeys hnew
  constructor
  · intro u
    rw [he, hF.ledger, hF.height]
    split_ifs with hu
    · exact (hkeys u).connect fun y hy hlow => Or.inr (hnew u y hy hlow)
    · exact hkeys u
  · intro u y
    rw [he, hF.ledger, hF.height]
    split_ifs with hu
    · have hpos := I.tree.height_pos B.index hu
      rw [connect_newest hpos]
      intro hy _
      cases hy
      omega
    · intro hy hlow
      have := hnew u y hy hlow
      omega

/-- **A branch outside the vector is connected, or given up at a block**; it does not take for
ever. -/
theorem connectAll_ends (P : n.Passable env W.length) (I : n.Indexed env)
    (hlow : ∀ y, n.isInMainChain y = true → n.ledger.ht y ≤ n.nBestHeight) (hT : n.Under T)
    (hfuel : T + 1 < fuel) (hW : W ≠ []) (hup : n.ledger.Chain (up.reverse ++ W))
    (hoff : ∀ y ∈ up, n.isInMainChain y = false) :
    ∃ r, connectAll env fuel now n W.head? up = some r := by
  induction up generalizing n W with
  | nil => exact ⟨_, rfl⟩
  | cons x up ih =>
    have hx : n.ledger.Chain (x :: W) := hup.of_up
    obtain ⟨p, hp⟩ := hx.index_eq List.mem_cons_self
    unfold connectAll
    rw [show n.index x = some p from hp]
    cases hb : n.readBlockFromDisk env x with
    | none => exact ⟨_, rfl⟩
    | some b =>
      have B := stored_of_readBlockFromDisk I.tree hp hb
      have hroot := hx.pprev_ne_none B hW
      have hH : b.nHeight = W.length := B.ht_eq.symm.trans (hx.ht_eq I.tree)
      obtain ⟨⟨n₁, view₁, chk⟩, hc⟩ : ∃ r, connectBlock env fuel now n W.head? x p b false = some r :=
        connectBlock_ends (hx.pprev_eq_head? B)
          (by rw [hH]; exact P.staysResponding (by omega) I hlow hT hfuel)
      simp only [hc]
      cases chk with
      | error f => exact ⟨_, rfl⟩
      | ok u =>
        obtain ⟨I₁, hv₁, -⟩ := connectBlock_entries I B hroot hc
        have hF := connectBlock_frame hc
        have hm := isInMainChain_congr hF.ledger hF.vec
        have P₁ : n₁.Passable env ((x :: W).length : ℕ) :=
          P.connectBlock I B hroot (hoff x List.mem_cons_self)
            (by rw [List.length_cons]; push_cast; omega) hc
        obtain ⟨⟨n₂, view₂, res⟩, hr⟩ : ∃ r, connectAll env fuel now n₁ (x :: W).head? up = some r :=
          ih P₁ I₁ (by rw [hm, hF.ledger, hF.height]; exact hlow)
            (by unfold Node.Under; rw [Node.index_congr hF.ledger]; exact hT) (by simp)
            (by rw [hF.ledger]; simpa using hup)
            (by rw [hm]; exact fun y hy => hoff y (List.mem_cons_of_mem _ hy))
        dsimp only
        rw [hv₁, show some x = (x :: W).head? from rfl, hr]
        cases res <;> exact ⟨_, rfl⟩

/-- **When the branch is connected**, the blocks that it has above the best height are reached by
keys that lead down. -/
theorem connectAll_upward (U : n.Upward env W.length) (I : n.Indexed env) (hW : W ≠ [])
    (hup : n.ledger.Chain (up.reverse ++ W)) {v : List CTransaction}
    (hc : connectAll env fuel now n W.head? up = some (n', view', .ok v)) :
    n'.Indexed env ∧ ∀ u, Grounded n'.ledger.ht (fun y => n'.nBestHeight < n'.ledger.ht y)
      (n'.entries env u) := by
  induction up generalizing n W v with
  | nil =>
    cases hc
    exact ⟨I, U.keys⟩
  | cons x up ih =>
    have hx : n.ledger.Chain (x :: W) := hup.of_up
    obtain ⟨p, b, n₁, view₁, v₁, hp, hb, hcb, hall⟩ := connectAll_cons_ok hc
    have B := stored_of_readBlockFromDisk I.tree hp hb
    have hroot := hx.pprev_ne_none B hW
    have hH := hx.ht_eq I.tree
    obtain ⟨I₁, rfl, -⟩ := connectBlock_entries I B hroot hcb
    have U₁ : n₁.Upward env ((x :: W).length : ℕ) := by
      have := Node.Upward.connectBlock (by rw [hH]; exact U) I B hroot hcb
      rw [hH] at this
      simpa using this
    have hF := connectBlock_frame hcb
    exact ih U₁ I₁ (by simp) (by rw [hF.ledger]; simpa using hup) hall

end Branches

end FreechCore
