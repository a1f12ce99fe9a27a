import FreechCore.Wallet.KeyReplacement

/-!
Which old key a registration is signed with, over whole runs of the two commands with the chain
moving in between. The wallet looks for the old key by the name only, so that it is the registered
one as long as nothing but the registered key is moved aside.
-/

namespace FreechCore

open Option

/-- The key with the identifier `r` is registered for a user. -/
def RegisteredKey (env : Env) (n : Node) (u : Bytes) (r : ℕ) : Prop :=
  ∃ fuel tx hashBlock pubkey rest, getTransaction env fuel n u (-1) = some (some (tx, hashBlock)) ∧
    CScript.extractPushData tx.pubKey = some (pubkey :: rest) ∧ env.keyID pubkey = r

structure WalletNode where
  node : Node
  wallet : ReplacingWallet

inductive WalletEvent
  | createwalletuser (secret : CKey) (time : ℤ) (strUsername : Bytes) (replaceKey : Bool)
  | sendnewusertransaction (strUsername : Bytes)
  | chainMoves (n : Node)

/-- A command is called, whatever its answer is, or the chain moves. -/
inductive WalletStep (env : Env) (S : SignEnv) : WalletNode → WalletEvent → WalletNode → Prop
  | created {s : WalletNode} {fuel : ℕ} {secret : CKey} {time : ℤ} {u : Bytes} {replaceKey : Bool}
      {w : ReplacingWallet} {r : Except WalletRPCError CKey}
      (h : createwalletuser env S fuel s.node s.wallet secret time u replaceKey = some (w, r)) :
      WalletStep env S s (.createwalletuser secret time u replaceKey) ⟨s.node, w⟩
  | sent {s : WalletNode} {fuel : ℕ} {u : Bytes} {n : Node} {w : ReplacingWallet}
      {r : Except WalletRPCError ℕ}
      (h : sendnewusertransaction env S fuel s.node s.wallet u = some (n, w, r)) :
      WalletStep env S s (.sendnewusertransaction u) ⟨n, w⟩
  | moved {s : WalletNode} (n : Node) : WalletStep env S s (.chainMoves n) ⟨n, s.wallet⟩

/-- A key is new if it is nobody's on the chain. One is moved aside only if nothing is being
replaced for the name, and if it is the registered one, should the wallet hold that. The chain
keeps the registered key of a name as long as it is being replaced. -/
def Careful (env : Env) (S : SignEnv) (s : WalletNode) : WalletEvent → Prop
  | .createwalletuser secret _ u replaceKey =>
    (∀ v, ¬RegisteredKey env s.node v (env.keyID (S.getPubKey secret))) ∧
      (replaceKey = true → s.wallet.getKeyIdBeingReplaced u = none ∧
        ∀ r, RegisteredKey env s.node u r → s.wallet.haveKey r = true →
          s.wallet.getKeyIdFromUsername u = some r)
  | .sendnewusertransaction _ => True
  | .chainMoves n => ∀ u, (s.wallet.getKeyIdBeingReplaced u).isSome = true →
    ∀ r, RegisteredKey env n u r → RegisteredKey env s.node u r

/-- A run in which every step meets the condition. -/
def CarefulRun (env : Env) (S : SignEnv) : WalletNode → WalletNode → Prop :=
  Relation.ReflTransGen fun s s' => ∃ e, Careful env S s e ∧ WalletStep env S s e s'

/-! ### What a call changes -/

section

variable {w w' : ReplacingWallet} {u : Bytes} {k r : ℕ} {secret : CKey} {time : ℤ} {env : Env}
  {S : SignEnv} {n n' : Node} {tx : CTransaction}

namespace ReplacingWallet

variable {v : Bytes}

lemma find?_of_getKeyIdBeingReplaced (h : w.getKeyIdBeingReplaced u = some k) :
    w.mapKeyReplacement.find? k = some u := by
  obtain ⟨⟨k', v⟩, hit, rfl⟩ := map_eq_some_iff.mp h
  have hv := List.find?_some hit
  rw [decide_eq_true_eq] at hv
  exact StdMap.mem_entries_iff.mp (hv ▸ List.mem_of_find?_eq_some hit)

lemma getKeyIdBeingReplaced_isSome (h : w.mapKeyReplacement.find? k = some u) :
    (w.getKeyIdBeingReplaced u).isSome = true := by
  rw [getKeyIdBeingReplaced, isSome_map, List.find?_isSome]
  exact ⟨(k, u), StdMap.mem_entries_iff.mpr h, by simp⟩

lemma moveKeyForReplacement_spec (h : w.moveKeyForReplacement u = some w') :
    w'.mapKeys = w.mapKeys ∧ ∀ k v, w'.mapKeyReplacement.find? k = some v →
      w.mapKeyReplacement.find? k = some v ∨ v = u ∧ w.getKeyIdFromUsername u = some k := by
  obtain ⟨it, hit, rfl⟩ := map_eq_some_iff.mp h
  refine ⟨rfl, fun k v hkv => ?_⟩
  split_ifs at hkv with hnoted
  · exact .inl hkv
  · rw [StdMap.find?_insert] at hkv
    split_ifs at hkv with hk
    · refine .inr ⟨(some.inj hkv).symm, ?_⟩
      rw [CWallet.getKeyIdFromUsername, hit, hk]
      rfl
    · exact .inl hkv

lemma haveKey_generateNewKey {keyID : ℕ}
    (h : (w.generateNewKey keyID secret time u).1.haveKey r = true) :
    w.haveKey r = true ∨ r = keyID := by
  unfold generateNewKey CWallet.addKeyPubKey at h
  dsimp only at h
  split_ifs at h
  · exact .inl h
  · rw [CWallet.haveKey, StdMap.contains, StdMap.find?_insert] at h
    split_ifs at h with hr
    · exact .inr hr
    · exact .inl h

lemma find?_forgetReplacementMap (h : (w.forgetReplacementMap u).mapKeyReplacement.find? k = some v) :
    w.mapKeyReplacement.find? k = some v := by
  unfold forgetReplacementMap at h
  split at h
  · rw [StdMap.find?_erase] at h
    split_ifs at h
    exact h
  · exact h

lemma mapKeys_forgetReplacementMap : (w.forgetReplacementMap u).mapKeys = w.mapKeys := by
  unfold forgetReplacementMap
  split <;> rfl

end ReplacingWallet

open ReplacingWallet

section Calls

variable {fuel : ℕ}

lemma createwalletuser_spec {replaceKey : Bool} {r : Except WalletRPCError CKey}
    (h : createwalletuser env S fuel n w secret time u replaceKey = some (w', r)) :
    (∀ k v, w'.mapKeyReplacement.find? k = some v → w.mapKeyReplacement.find? k = some v ∨
      replaceKey = true ∧ v = u ∧ w.getKeyIdFromUsername u = some k) ∧
    ∀ k, w'.haveKey k = true → w.haveKey k = true ∨ k = env.keyID (S.getPubKey secret) := by
  -- the wallet is left alone, or the new key is put into a wallet in which one may have moved
  have hcases : w' = w ∨ ∃ w₁, (if replaceKey then w.moveKeyForReplacement u else some w) = some w₁ ∧
      w' = (w₁.generateNewKey (env.keyID (S.getPubKey secret)) secret time u).1 := by
    unfold createwalletuser at h
    grind
  rcases hcases with rfl | ⟨w₁, hw₁, rfl⟩
  · exact ⟨fun k v hk => .inl hk, fun k hk => .inl hk⟩
  · have hmove : w₁.mapKeys = w.mapKeys ∧ ∀ k v, w₁.mapKeyReplacement.find? k = some v →
        w.mapKeyReplacement.find? k = some v ∨
          replaceKey = true ∧ v = u ∧ w.getKeyIdFromUsername u = some k := by
      cases replaceKey with
      | false => cases hw₁; exact ⟨rfl, fun k v hk => .inl hk⟩
      | true =>
        obtain ⟨hkeys, hmap⟩ := moveKeyForReplacement_spec hw₁
        exact ⟨hkeys, fun k v hk => (hmap k v hk).imp_right fun h => ⟨rfl, h⟩⟩
    refine ⟨fun k v hk => hmove.2 k v hk, fun k hk => ?_⟩
    refine (haveKey_generateNewKey hk).imp_left fun h => ?_
    rwa [CWallet.haveKey, hmove.1] at h

lemma newUserTransaction_none (hold : w.getKeyIdBeingReplaced u = none) :
    newUserTransaction env S fuel n w u ≠ some (.ok (some k, tx)) := by
  intro h
  rw [newUserTransaction, hold] at h
  grind [except_map_eq_ok]

lemma sendrawtransaction_node {r : Except WalletRPCError ℕ}
    (h : sendrawtransaction env fuel n tx = some (n', r)) : n' = { n with mapTx := n'.mapTx } := by
  have haccept : ∀ g : Node × Bool → Node × Except WalletRPCError ℕ, (∀ x, (g x).1 = x.1) →
      (mempoolAccept env fuel n tx).map g = some (n', r) → n' = { n with mapTx := n'.mapTx } := by
    intro g hg hmap
    obtain ⟨⟨n₁, b⟩, hacc, hx⟩ := map_eq_some_iff.mp hmap
    have hn : n₁ = n' := (hg (n₁, b)).symm.trans (congrArg Prod.fst hx)
    exact hn ▸ mempoolAccept_eq hacc
  unfold sendrawtransaction at h
  dsimp only at h
  split at h
  · cases h
  · exact haccept _ (by rintro ⟨_, _ | _⟩ <;> rfl) h
  · split at h
    · cases h
    · exact haccept _ (by rintro ⟨_, _ | _⟩ <;> rfl) h
    · split_ifs at h <;> cases h <;> rfl

lemma sendnewusertransaction_spec {r : Except WalletRPCError ℕ}
    (h : sendnewusertransaction env S fuel n w u = some (n', w', r)) :
    n' = { n with mapTx := n'.mapTx } ∧ w'.mapKeys = w.mapKeys ∧
      ∀ k v, w'.mapKeyReplacement.find? k = some v → w.mapKeyReplacement.find? k = some v := by
  unfold sendnewusertransaction at h
  split at h
  · cases h
  · cases h
    exact ⟨rfl, rfl, fun _ _ hk => hk⟩
  · obtain ⟨⟨n₁, r₁⟩, hraw, heq⟩ := map_eq_some_iff.mp h
    cases heq
    refine ⟨sendrawtransaction_node hraw, ?_, fun k v hk => ?_⟩
    · split_ifs
      · exact mapKeys_forgetReplacementMap
      · rfl
    · split_ifs at hk
      · exact find?_forgetReplacementMap hk
      · exact hk

end Calls

/-! ### Runs -/

section Runs

variable {s s' : WalletNode}

lemma RegisteredKey.unique {r' : ℕ} (h : RegisteredKey env n u r) (h' : RegisteredKey env n u r') :
    r = r' := by
  obtain ⟨f, tx, hb, pubkey, rest, hget, hpush, rfl⟩ := h
  obtain ⟨f', tx', hb', pubkey', rest', hget', hpush', rfl⟩ := h'
  cases getTransaction_unique hget hget'
  rw [hpush] at hpush'
  cases hpush'
  rfl

/-- Every key that is being replaced is the registered one, if the wallet holds that. -/
def WalletNode.Aligned (env : Env) (s : WalletNode) : Prop :=
  ∀ k u, s.wallet.mapKeyReplacement.find? k = some u →
    ∀ r, RegisteredKey env s.node u r → s.wallet.haveKey r = true → k = r

lemma WalletNode.Aligned.step {e : WalletEvent} (h : s.Aligned env) (hc : Careful env S s e)
    (hs : WalletStep env S s e s') : s'.Aligned env := by
  intro k v hk r hr hheld
  cases hs with
  | created hcall =>
    obtain ⟨hmap, hkeys⟩ := createwalletuser_spec hcall
    have hheld' : s.wallet.haveKey r = true := by
      refine (hkeys r hheld).resolve_right ?_
      rintro rfl
      exact hc.1 v hr
    rcases hmap k v hk with hk' | ⟨hrep, rfl, hid⟩
    · exact h k v hk' r hr hheld'
    · have hname := (hc.2 hrep).2 r hr hheld'
      rw [hid] at hname
      exact some.inj hname
  | sent hcall =>
    obtain ⟨hn, hkeys, hmap⟩ := sendnewusertransaction_spec hcall
    rw [CWallet.haveKey, hkeys] at hheld
    refine h k v (hmap k v hk) r ?_ hheld
    -- lookups do not read the memory pool
    rw [hn] at hr
    exact hr
  | moved n =>
    exact h k v hk r (hc v (getKeyIdBeingReplaced_isSome hk) r hr) hheld

lemma WalletNode.Aligned.run (h : s.Aligned env) (hrun : CarefulRun env S s s') :
    s'.Aligned env := by
  induction hrun with
  | refl => exact h
  | tail _ hstep ih =>
    obtain ⟨e, hc, hs⟩ := hstep
    exact ih.step hc hs

/-- **The old key is the registered one.** In every run of the two commands from a wallet in which
nothing is being replaced, whose steps all meet the condition, a registration that is sent for a
registered user is signed with the registered key, whenever the wallet holds it. -/
theorem signs_with_registered (h₀ : s.wallet.mapKeyReplacement = .empty)
    (hrun : CarefulRun env S s s') {fuel k r : ℕ} {u : Bytes} {tx : CTransaction}
    (hnew : newUserTransaction env S fuel s'.node s'.wallet u = some (.ok (some k, tx)))
    (hr : RegisteredKey env s'.node u r) (hheld : s'.wallet.haveKey r = true) : k = r := by
  have hstart : s.Aligned env := by
    intro k u hk
    rw [h₀] at hk
    cases hk
  refine hstart.run hrun k u ?_ r hr hheld
  cases hold : s'.wallet.getKeyIdBeingReplaced u with
  | none => exact absurd hnew (newUserTransaction_none hold)
  | some k' =>
    obtain ⟨hk, -⟩ := (newUserTransaction_ok_iff hold).mp hnew
    exact some.inj hk ▸ find?_of_getKeyIdBeingReplaced hold

end Runs

end

namespace Toy

def registryBlock : CBlock := blockIn keyEnv 2 1 1 spam [register alice longKey]

def registryNode : Node where
  __ := Node.start
  mapBlockIndex := StdMap.empty.insert 2 { CBlockIndex.null with nHeight := 1 }
  vBlockIndexByHeight := [none, some 2]
  nBestHeight := 1
  blockFiles := fun pos => if pos = ⟨0, 2⟩ then some registryBlock else none
  txIndex := fun k => if k = (alice, -1) then some ⟨⟨0, 2⟩, 21⟩ else none

lemma registeredKey_registryNode {v : Bytes} {r : ℕ} :
    RegisteredKey keyEnv registryNode v r ↔ v = alice ∧ r = code longKey := by
  have halice : RegisteredKey keyEnv registryNode alice (code longKey) :=
    ⟨9, register alice longKey, 2, longKey, [], by decide +kernel, by decide +kernel, rfl⟩
  constructor
  · intro h
    by_cases hv : v = alice
    · exact ⟨hv, (hv ▸ h).unique halice⟩
    · obtain ⟨fuel, tx, hb, pubkey, rest, hget, -⟩ := h
      have hidx : registryNode.readTxIndex (v, -1) = none := if_neg fun h => hv (congrArg Prod.fst h)
      have hnone : getTransaction keyEnv 1 registryNode v (-1) = some none := by
        rw [getTransaction, Loop.doWhile_inr (r := some none)]
        · rfl
        · rw [getTransactionStep, hidx]
      cases getTransaction_unique hget hnone
  · rintro ⟨rfl, rfl⟩
    exact halice

/-- Two replacements begin, and none is sent. -/
def twoReplacements : Option (Node × ReplacingWallet) :=
  (keyInTip.bind fun n => replaceWith lowKey (n, replacingWallet)).bind (replaceWith highKey)

end Toy

open Toy in
/-- One replacement is begun with a fresh key, and the old key signs it. -/
theorem signs_with_registered_once : ∃ s k tx,
    CarefulRun keyEnv signEnv ⟨registryNode, replacingWallet⟩ s ∧
    newUserTransaction keyEnv signEnv 9 s.node s.wallet alice = some (.ok (some k, tx)) ∧
    k = code longKey := by
  have hrun : (createwalletuser keyEnv signEnv 9 registryNode replacingWallet lowKey 0 alice
      true).map (fun r => ((newUserTransaction keyEnv signEnv 9 registryNode r.1 alice).any
        fun x => x.toOption.any fun y => y.1.isSome, r.1.haveKey (code longKey))) =
      some (true, true) := by decide +kernel
  obtain ⟨⟨w, r⟩, hcall, heq⟩ := map_eq_some_iff.mp hrun
  obtain ⟨hany, hheld⟩ := Prod.mk.inj heq
  obtain ⟨k, tx, hnew⟩ : ∃ k tx, newUserTransaction keyEnv signEnv 9 registryNode w alice =
      some (.ok (some k, tx)) := by
    rcases hx : newUserTransaction keyEnv signEnv 9 registryNode w alice with
      _ | _ | ⟨_ | k, tx⟩ <;> simp [hx, Except.toOption] at hany
    exact ⟨k, tx, rfl⟩
  have hsteps : CarefulRun keyEnv signEnv ⟨registryNode, replacingWallet⟩ ⟨registryNode, w⟩ := by
    refine .single ⟨.createwalletuser lowKey 0 alice true, ⟨fun v hv => ?_, fun _ => ⟨rfl, ?_⟩⟩,
      .created hcall⟩
    · have hne : code lowKey ≠ code longKey := by decide +kernel
      exact hne (registeredKey_registryNode.mp hv).2
    · intro r hr _
      rw [(registeredKey_registryNode.mp hr).2]
      decide +kernel
  exact ⟨⟨registryNode, w⟩, k, tx, hsteps, hnew, signs_with_registered rfl hsteps hnew
    (registeredKey_registryNode.mpr ⟨rfl, rfl⟩) hheld⟩

open Toy in
/-- The second replacement is signed with the key of the first one, which nobody registered. -/
theorem signs_with_unregistered : ∃ s k tx r, twoReplacements = some s ∧
    newUserTransaction keyEnv signEnv 9 s.1 s.2 alice = some (.ok (some k, tx)) ∧
    RegisteredKey keyEnv s.1 alice r ∧ s.2.haveKey r = true ∧ k ≠ r := by
  have hrun : twoReplacements.map (fun s =>
      ((newUserTransaction keyEnv signEnv 9 s.1 s.2 alice).bind fun x => x.toOption.bind Prod.fst,
        getTransaction keyEnv 9 s.1 alice (-1), s.2.haveKey (code longKey))) =
      some (some (code lowKey), some (some (register alice longKey, 2)), true) := by decide +kernel
  obtain ⟨s, hs, heq⟩ := map_eq_some_iff.mp hrun
  simp only [Prod.mk.injEq] at heq
  obtain ⟨hk, hget, hheld⟩ := heq
  obtain ⟨tx, hnew⟩ : ∃ tx, newUserTransaction keyEnv signEnv 9 s.1 s.2 alice =
      some (.ok (some (code lowKey), tx)) := by
    rcases hx : newUserTransaction keyEnv signEnv 9 s.1 s.2 alice with
      _ | _ | ⟨_ | k, tx⟩ <;> simp [hx, Except.toOption] at hk
    exact ⟨tx, by rw [hk]⟩
  exact ⟨s, code lowKey, tx, code longKey, hs, hnew,
    ⟨9, _, 2, longKey, [], hget, by decide +kernel, rfl⟩, hheld, by decide +kernel⟩

end FreechCore
