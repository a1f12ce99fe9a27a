import FreechCore.Core.ToyEnv
import FreechCore.Registry.Reload

/-!
The runs of a node. Between calls of `SetBestChain` a node only stores blocks, passes
failures on to the blocks above, and adopts soft checkpoints. Every delivery of a block is a
sequence of such steps. A run is described by what all its calls of `SetBestChain` have in
common.
-/

namespace FreechCore

open BackLink Ledger Relation

/-- A call of `SetBestChain`, with the clock and the bounds on loops. -/
structure Call where
  fuel : ℕ
  rounds : ℕ
  now : ℤ
  fIsInitialDownload : Bool
  pindexNew : ℕ

def Call.run (c : Call) (env : Env) (n : Node) : Option (Node × Check) :=
  setBestChain env c.fuel c.now c.fIsInitialDownload
    (fun n => (connectBestBlock env c.fuel c.now c.fIsInitialDownload c.rounds n).map Prod.fst)
    n c.pindexNew

/-- The steps of a node, with calls of `SetBestChain` that meet the condition `P`. -/
inductive Step (env : Env) (P : Call → Node → Prop) : Node → Node → Prop
  | store {n : Node} {b : CBlock} {pos : CDiskBlockPos} :
      n.Fits env b pos → Step env P n (n.store env b pos)
  | mark {n : Node} {fuel t : ℕ} {above : List ℕ} :
      n.checkAncestry fuel t [] [] = some (.failed above) →
        Step env P n (above.foldl markFailedChild n)
  | adopt {n : Node} (cp : ℕ × ℕ) : Step env P n { n with lastSoftCP := cp }
  | switch {n n' : Node} {c : Call} {res : Check} :
      P c n → c.run env n = some (n', res) → Step env P n n'

def Started (env : Env) (n : Node) : Prop :=
  ∃ fuel rounds now fIBD pos, initBlockIndex env fuel rounds now fIBD pos = some (n, .ok ())

def Reached (env : Env) (P : Call → Node → Prop) (n : Node) : Prop :=
  ∃ n₀, Started env n₀ ∧ ReflTransGen (Step env P) n₀ n

variable {P : Call → Node → Prop} {b : CBlock} {A : List ℕ} {E : Env}

section

variable {env : Env} {n : Node} {fuel : ℕ}

lemma Reached.invariant {X : Node → Prop} (hi : ∀ n, Started env n → X n)
    (hs : ∀ n n', Step env P n n' → X n → X n') (hr : Reached env P n) : X n := by
  obtain ⟨n₀, h₀, hrun⟩ := hr
  induction hrun with
  | refl => exact hi n₀ h₀
  | tail _ hstep ih => exact hs _ _ hstep ih

lemma Reached.steps {n' : Node} (hr : Reached env P n) (hs : ReflTransGen (Step env P) n n') :
    Reached env P n' := by
  obtain ⟨n₀, h₀, hs₀⟩ := hr
  exact ⟨n₀, h₀, hs₀.trans hs⟩

/-! ### The start -/

section Start

variable {rounds : ℕ} {now : ℤ} {fIBD : Bool} {pos : CDiskBlockPos}

/-- The node with the genesis block stored and not yet connected. -/
def Node.withGenesis (env : Env) (pos : CDiskBlockPos) : Node :=
  Node.start.store env (genesisBlock env) pos

lemma withGenesis_index (h : ℕ) : (Node.withGenesis env pos).index h =
    if h = hashGenesisBlock env then some (Node.start.newBlockIndex (genesisBlock env) pos)
    else none :=
  store_index h

lemma withGenesis_tree : (Node.withGenesis env pos).ledger.Tree env := by
  have hcases : ∀ {h p}, (Node.withGenesis env pos).ledger.index h = some p →
      h = hashGenesisBlock env ∧ p = Node.start.newBlockIndex (genesisBlock env) pos := by
    intro h p hp
    have hp' : (Node.withGenesis env pos).index h = some p := hp
    rw [withGenesis_index] at hp'
    split_ifs at hp' with he
    exact ⟨he, (Option.some.inj hp').symm⟩
  refine ⟨?_, ?_, ?_, ?_⟩
  · intro h p hp
    obtain ⟨rfl, rfl⟩ := hcases hp
    simp [Node.newBlockIndex, Node.start, Node.index]
  · intro h p hp _
    obtain ⟨-, rfl⟩ := hcases hp
    rfl
  · intro h p q hp hq
    obtain ⟨-, rfl⟩ := hcases hp
    cases hq
  · intro h p hp
    obtain ⟨rfl, rfl⟩ := hcases hp
    exact ⟨genesisBlock env, (store_blockFiles pos).trans (if_pos rfl), rfl, rfl, fun _ => rfl⟩

lemma withGenesis_self : (Node.withGenesis env pos).index (hashGenesisBlock env) =
    some (Node.start.newBlockIndex (genesisBlock env) pos) := by
  rw [withGenesis_index, if_pos rfl]

lemma withGenesis_pprev : (Node.withGenesis env pos).pprev (hashGenesisBlock env) = none := by
  rw [Node.pprev, withGenesis_self]
  rfl

lemma withGenesis_heightOf : (Node.withGenesis env pos).heightOf (hashGenesisBlock env) = 0 := by
  rw [Node.heightOf, withGenesis_self]
  rfl

lemma withGenesis_valid : (Node.withGenesis env pos).setBlockIndexValid = [hashGenesisBlock env] :=
  Node.writeBlockIndex_setBlockIndexValid _ _

lemma withGenesis_stores : Node.start.Stores (Node.withGenesis env pos) (hashGenesisBlock env) :=
  store_stores _ _ _ _

lemma withGenesis_failed (h : ℕ) : ((Node.withGenesis env pos).nStatus h).failed = false := by
  rw [withGenesis_stores.failed]
  split_ifs <;> rfl

lemma withGenesis_checkAncestry : (Node.withGenesis env pos).checkAncestry 1
    (hashGenesisBlock env) [] [] = some (.attach [hashGenesisBlock env]) := by
  have hbest : (Node.withGenesis env pos).pindexBest = none := withGenesis_stores.best
  simp [Node.checkAncestry, withGenesis_failed, hbest, withGenesis_pprev]

lemma withGenesis_setBestChain {reconnect : Node → Option Node} :
    setBestChain env fuel now fIBD reconnect (Node.withGenesis env pos) (hashGenesisBlock env) =
      reorganise env fuel now fIBD reconnect (Node.withGenesis env pos) (hashGenesisBlock env) []
        [hashGenesisBlock env] := by
  have hcoins : (Node.withGenesis env pos).coinsTip = none := withGenesis_stores.coins
  simp [setBestChain, hcoins, withGenesis_heightOf, findFork, walkTo, withGenesis_pprev, collectStep,
    withGenesis_failed]

lemma withGenesis_reorganise {reconnect : Node → Option Node}
    (h : reorganise env fuel now fIBD reconnect (Node.withGenesis env pos) (hashGenesisBlock env) []
      [hashGenesisBlock env] = some (n, .ok ())) :
    ∃ w, switchTo env fuel fIBD (Node.withGenesis env pos) (some (hashGenesisBlock env))
      (hashGenesisBlock env) [hashGenesisBlock env] [] w = some n := by
  obtain ⟨n₂, view₂, w, hcon, hs, -⟩ :=
    (reorganise_cases rfl h).resolve_right fun ⟨_, _, _, _, _, hno, _⟩ => hno rfl
  obtain ⟨p, b, n₁, view₁, v₁, hp, hb, hc, hall⟩ := connectAll_cons_ok hcon
  have B := stored_of_readBlockFromDisk withGenesis_tree hp hb
  obtain ⟨rfl, rfl⟩ := connectBlock_genesis B.hash hc
  cases hall
  exact ⟨w, hs⟩

lemma initBlockIndex_eq (h : initBlockIndex env fuel rounds now fIBD pos = some (n, .ok ())) :
    ∃ w, switchTo env fuel fIBD (Node.withGenesis env pos) (some (hashGenesisBlock env))
      (hashGenesisBlock env) [hashGenesisBlock env] [] w = some n := by
  replace h : connectBestBlock env fuel now fIBD rounds (Node.withGenesis env pos) =
    some (n, .ok ()) := h
  have hbest : (Node.withGenesis env pos).pindexBest = none := withGenesis_stores.best
  have hcand : (Node.withGenesis env pos).bestCandidate = some (hashGenesisBlock env) := by
    rw [Node.bestCandidate, withGenesis_valid]
    rfl
  cases rounds with
  | zero => cases h
  | succ rounds =>
    simp only [connectBestBlock, hcand, hbest, withGenesis_heightOf, withGenesis_checkAncestry,
      switchAll, withGenesis_setBestChain, reduceCtorEq, Option.map_none, or_self, if_false,
      Nat.zero_add] at h
    split at h
    · cases h
    · simp at h
    · rename_i n₁ hr
      exact withGenesis_reorganise (h ▸ hr)

lemma withGenesis_disk : (Node.withGenesis env pos).OnDisk :=
  store_disk fun _ => rfl

/-- A node that has just been started has the genesis block for its chain, and no index. -/
structure Fresh (env : Env) (n : Node) : Prop where
  settled : Settled env n [hashGenesisBlock env]
  only : ∀ {h p}, n.index h = some p → h = hashGenesisBlock env
  entry : ∃ pos, n.index (hashGenesisBlock env) =
    some (Node.start.newBlockIndex (genesisBlock env) pos)
  txIndex : n.txIndex = fun _ => none
  failed : ∀ h, (n.nStatus h).failed = false
  candidates : n.setBlockIndexValid = [hashGenesisBlock env]
  softCP : n.lastSoftCP = (0, 0)
  disk : n.OnDisk

section

variable (F : Fresh env n)

include F

lemma Fresh.entries (u : Bytes) (k : ℤ) : n.entries env u k = none := by
  simp [Node.entries, Ledger.entries, F.txIndex]

lemma Fresh.tidy :
    n.Tidy env [hashGenesisBlock env] [hashGenesisBlock env] := by
  intro u r hf
  have hR : n.ledger.history u [hashGenesisBlock env] = [] := by
    cases F.settled.working.chainA with
    | root hp hq =>
      have := F.settled.working.tree.registers_root (u := u) hp hq
      rw [history_cons_of_not this, history_nil]
  rw [hR, follows_nil, F.entries] at hf
  subst hf
  exact ⟨fun _ hx => (by cases hx), fun _ hx => (by cases hx), fun _ hx => (by cases hx)⟩

lemma Fresh.durable : n.Durable env := by
  obtain ⟨pos, he⟩ := F.entry
  refine ⟨F.disk, fun h p hp => ?_, fun h p hp => ?_⟩ <;>
  · have hh := F.only hp
    subst hh
    cases he.symm.trans hp
    rfl

end

lemma Started.fresh (h : Started env n) : Fresh env n := by
  obtain ⟨fuel, rounds, now, fIBD, pos, hi⟩ := h
  obtain ⟨w, hs⟩ := initBlockIndex_eq hi
  have he := switchTo_eq hs
  have hL : n.ledger = (Node.withGenesis env pos).ledger := by rw [he]; rfl
  have hidx : n.txIndex = fun _ => none := by
    rw [he]
    exact withGenesis_stores.txIndex
  have hroot : n.ledger.Chain [hashGenesisBlock env] := by
    rw [hL]
    exact .root withGenesis_self rfl
  have T : n.ledger.Tree env := hL ▸ withGenesis_tree
  have hvec : n.vBlockIndexByHeight = [some (hashGenesisBlock env)] := by
    have : (Node.withGenesis env pos).vBlockIndexByHeight = [] := withGenesis_stores.vec
    rw [he]
    simp [Node.registerBestChain, this, withGenesis_heightOf, resize]
  have honly : ∀ {x p}, n.index x = some p → x = hashGenesisBlock env := by
    intro x p hp
    have : (Node.withGenesis env pos).index x = some p := by rw [he] at hp; exact hp
    rw [withGenesis_index] at this
    split_ifs at this with hx
    exact hx
  refine ⟨⟨⟨T, ?_, hroot, hroot, ?_, ?_, ?_, ?_, ?_⟩, ?_, ?_⟩, ?_,
    ⟨pos, (congrFun (Node.index_congr hL) _).trans withGenesis_self⟩, hidx, ?_, ?_, ?_, ?_⟩
  · intro u k pos hk
    rw [hidx] at hk
    cases hk
  · rw [hvec]; rfl
  · rw [he, withGenesis_heightOf]; rfl
  · intro x hx p b B hne
    have hxg : x = hashGenesisBlock env := by simpa using hx
    exact absurd ((T.root_iff B.index).mpr hxg) hne
  · intro x p b k _ hk
    have : n.undo x = none := by
      rw [he]
      exact (withGenesis_stores.undo x).trans (by split_ifs <;> rfl)
    rw [this] at hk
    cases hk
  · intro u
    refine ⟨none, ?_⟩
    cases hroot with
    | root hp hq =>
      rw [history_cons_of_not (T.registers_root hp hq), history_nil, follows_nil]
      simp [Node.entries, Ledger.entries, hidx]
  · rw [he]; rfl
  · rw [he]; rfl
  · exact honly
  · intro x
    rw [he]
    exact withGenesis_failed x
  · rw [he]
    exact withGenesis_valid
  · rw [he]
    exact withGenesis_stores.softCP
  · rw [he]
    exact withGenesis_disk

end Start

/-! ### Failures passed on -/

lemma checkAncestry_failed {t : ℕ} {acc att above : List ℕ}
    (h : n.checkAncestry fuel t acc att = some (.failed above)) :
    ∃ hi z, above = acc ++ hi ∧ (n.nStatus z).failed = true ∧
      (hi ≠ [] → (n.index t).isSome = true) ∧
      ∀ l, n.ledger.Chain (t :: l) → ∃ lo, t :: l = hi ++ z :: lo := by
  induction fuel generalizing t acc att with
  | zero => cases h
  | succ fuel ih =>
    unfold Node.checkAncestry at h
    by_cases hf : (n.nStatus t).failed = true
    · rw [if_pos hf] at h
      simp only [Option.some.injEq, Ancestry.failed.injEq] at h
      exact ⟨[], t, by simp [h], hf, by simp, fun l _ => ⟨l, rfl⟩⟩
    · rw [if_neg hf] at h
      cases hq : n.pprev t with
      | none => simp [hq] at h
      | some q =>
        simp only [hq] at h
        by_cases hm : (n.getNextInMainChain t).isSome = true
        · rw [if_pos hm] at h
          cases h
        rw [if_neg hm] at h
        obtain ⟨hi, z, rfl, hz, -, hch⟩ := ih h
        have ht : (n.index t).isSome = true := by
          obtain ⟨p, hp, -⟩ := Option.bind_eq_some_iff.mp hq
          simp [hp]
        refine ⟨t :: hi, z, by simp, hz, fun _ => ht, fun l hl => ?_⟩
        cases l with
        | nil =>
          cases hl with
          | root hp hroot =>
            have : n.index t = some _ := hp
            rw [Node.pprev, this, Option.bind_some, hroot] at hq
            cases hq
        | cons q' l =>
          have hqq : some q = some q' := hq.symm.trans hl.pprev_eq
          cases hqq
          obtain ⟨lo, hlo⟩ := hch l (hl.of_cons (by simp))
          exact ⟨lo, by rw [hlo]; rfl⟩

/-! ### Deliveries are runs -/

section Deliveries

variable {rounds : ℕ} {now : ℤ} {fIBD : Bool} {n' : Node} {res : Check}

/-- The steps of a node without a condition on its calls of `SetBestChain`. -/
abbrev AnyStep (env : Env) : Node → Node → Prop := Step env fun _ _ => True

lemma switchAll_steps {hs : List ℕ} (h : switchAll (setBestChain env fuel now fIBD fun n =>
      (connectBestBlock env fuel now fIBD rounds n).map Prod.fst) n hs = some (n', res)) :
    ReflTransGen (AnyStep env) n n' := by
  induction hs generalizing n with
  | nil =>
    cases h
    exact .refl
  | cons t hs ih =>
    unfold switchAll at h
    split at h
    · cases h
    · rename_i n₁ f hr
      cases h
      exact .single (.switch (c := ⟨fuel, rounds, now, fIBD, t⟩) trivial hr)
    · rename_i n₁ hr
      exact .head (.switch (c := ⟨fuel, rounds, now, fIBD, t⟩) trivial hr) (ih h)

lemma connectBestBlock_steps (h : connectBestBlock env fuel now fIBD rounds n = some (n', res)) :
    ReflTransGen (AnyStep env) n n' := by
  induction rounds generalizing n with
  | zero => cases h
  | succ rounds ih =>
    unfold connectBestBlock at h
    split at h
    · cases h; exact .refl
    · split_ifs at h
      · cases h; exact .refl
      · split at h
        · cases h
        · rename_i above hf
          exact .head (.mark hf) (ih h)
        · exact switchAll_steps h

lemma setSoftCPBestChain_steps (h : setSoftCPBestChain env fuel rounds now fIBD n = some n') :
    ReflTransGen (AnyStep env) n n' := by
  unfold setSoftCPBestChain at h
  dsimp only at h
  split_ifs at h
  · split at h
    · cases h; exact .refl
    · obtain ⟨⟨n₁, r⟩, hr, rfl⟩ := Option.map_eq_some_iff.mp h
      exact .single (.switch (c := ⟨fuel, rounds, now, fIBD, n.lastSoftCP.2⟩) trivial hr)
  · cases h; exact .refl

lemma checkContext_height {p : CBlockIndex} (h : checkContext env n b p = some (.ok ())) :
    b.nHeight = (p.nHeight : ℤ) + 1 := by
  obtain ⟨nBits, -, hc⟩ := Option.map_eq_some_iff.mp h
  simp only [check_bind_eq_ok, ensure_eq_ok] at hc
  obtain ⟨-, -, -, -, hh⟩ := hc
  rw [hh]
  rfl

variable {pos : CDiskBlockPos}

lemma addToBlockIndex_store (hk : ¬n.mapBlockIndex.contains (getHash env b) = true) :
    addToBlockIndex env fuel rounds now fIBD (n.writeBlockToDisk b pos) b pos =
      connectBestBlock env fuel now fIBD rounds (n.store env b pos) := if_neg hk

section

variable (h : acceptBlock env fuel rounds now fIBD n b pos = some (n', res))

include h

/-- What a delivery does: the block is refused; or it is new, passes the checks against its parent
and is stored, and the node moves to the best chain and then to that of the soft checkpoint. -/
lemma acceptBlock_outcome : (n' = n ∧ ∃ f, res = .error f) ∨
      (n.index (getHash env b) = none ∧
        (getHash env b ≠ hashGenesisBlock env →
          ∃ p, n.index b.hashPrevBlock = some p ∧ checkContext env n b p = some (.ok ())) ∧
        ∃ n₁ r, connectBestBlock env fuel now fIBD rounds (n.store env b pos) = some (n₁, r) ∧
          ((n' = n₁ ∧ ∃ f, res = .error f) ∨ (r = .ok () ∧ res = .ok () ∧
            setSoftCPBestChain env fuel rounds now fIBD n₁ = some n'))) := by
  unfold acceptBlock at h
  dsimp only at h
  by_cases hknown : n.mapBlockIndex.contains (getHash env b) = true
  · rw [if_pos hknown] at h
    cases h
    exact Or.inl ⟨rfl, _, rfl⟩
  rw [if_neg hknown, addToBlockIndex_store hknown] at h
  split at h
  · cases h
  · cases h
    exact Or.inl ⟨rfl, _, rfl⟩
  rename_i hc
  refine Or.inr ⟨Option.not_isSome_iff_eq_none.mp hknown, fun hgen => ?_, ?_⟩
  · rw [if_neg hgen] at hc
    split at hc
    · cases hc
    · rename_i p hp
      exact ⟨p, hp, hc⟩
  · split at h
    · cases h
    · rename_i hr
      cases h
      exact ⟨_, _, hr, Or.inl ⟨rfl, _, rfl⟩⟩
    · rename_i n₁ hr
      obtain ⟨n₂, hr₂, he⟩ := Option.map_eq_some_iff.mp h
      cases he
      exact ⟨n₁, _, hr, Or.inr ⟨rfl, rfl, hr₂⟩⟩

variable (hg : (n.index (hashGenesisBlock env)).isSome = true) (hpos : n.blockFiles pos = none)

include hg hpos

/-- What is stored fits: the genesis block is known. -/
lemma acceptBlock_cases : (n' = n ∧ ∃ f, res = .error f) ∨
      (n.Fits env b pos ∧
        (∃ p, n.index b.hashPrevBlock = some p ∧ checkContext env n b p = some (.ok ())) ∧
        ∃ n₁ r, connectBestBlock env fuel now fIBD rounds (n.store env b pos) = some (n₁, r) ∧
          ((n' = n₁ ∧ ∃ f, res = .error f) ∨ (r = .ok () ∧ res = .ok () ∧
            setSoftCPBestChain env fuel rounds now fIBD n₁ = some n'))) := by
  rcases acceptBlock_outcome h with hout | ⟨hnew, hctx, hrun⟩
  · exact Or.inl hout
  · obtain ⟨p, hp, hc⟩ := hctx fun hgen => by simp [← hgen, hnew] at hg
    exact Or.inr ⟨⟨hnew, hpos, p, hp, checkContext_height hc⟩, ⟨p, hp, hc⟩, hrun⟩

/-- **Every delivery is a run.** -/
theorem acceptBlock_steps : ReflTransGen (AnyStep env) n n' := by
  rcases acceptBlock_cases h hg hpos with
    ⟨rfl, -⟩ | ⟨hfit, -, n₁, r, hr, ⟨rfl, -⟩ | ⟨-, -, hr₂⟩⟩
  · exact .refl
  · exact .head (.store hfit) (connectBestBlock_steps hr)
  · exact (ReflTransGen.head (.store hfit) (connectBestBlock_steps hr)).trans
      (setSoftCPBestChain_steps hr₂)

end

/-- The states after blocks were delivered one after the other, the last one first in the
list. -/
inductive Delivered (env : Env) : List CBlock → Node → Prop
  | start {n : Node} : Started env n → Delivered env [] n
  | block {bs : List CBlock} {b : CBlock} {n n' : Node} {fuel rounds : ℕ} {now : ℤ} {fIBD : Bool}
      {pos : CDiskBlockPos} {res : Check} : Delivered env bs n → n.blockFiles pos = none →
      acceptBlock env fuel rounds now fIBD n b pos = some (n', res) → Delivered env (b :: bs) n'

/-- The active chain of a node: it ends in the best block, and the vector lists it. -/
structure Node.Active (n : Node) (A : List ℕ) : Prop where
  chain : n.ledger.Chain A
  best : n.pindexBest = A.head?
  vec : n.vBlockIndexByHeight = A.reverse.map some

lemma Settled.active (S : Settled env n A) : n.Active A :=
  ⟨S.working.chainA, S.best, S.working.vec⟩

lemma Node.Active.unique {A' : List ℕ} (h : n.Active A) (h' : n.Active A') : A = A' := by
  have := h.vec.symm.trans h'.vec
  exact List.reverse_injective ((List.map_injective_iff.mpr (Option.some_injective _)) this)

end Deliveries

end

/-! ### Deliveries with the small instance -/

namespace Toy

/-- A fresh node. -/
def startedIn (E : Env) : Option Node :=
  match initBlockIndex E 20 20 10000000 false ⟨0, 0⟩ with
  | some (n, .ok ()) => some n
  | _ => none

lemma startedIn_of_eq {n : Node} (h : startedIn E = some n) : Started E n := by
  unfold startedIn at h
  split at h
  · rename_i n' hi
    cases h
    exact ⟨_, _, _, _, _, hi⟩
  · cases h

def started : Option Node := startedIn env

lemma started_of_eq {n : Node} (h : started = some n) : Started env n := startedIn_of_eq h

/-- Deliver a block; it is stored at the position of its hash. -/
def deliverIn (E : Env) (n : Node) (b : CBlock) : Option Node :=
  let pos : CDiskBlockPos := ⟨0, getHash E b⟩
  if (n.blockFiles pos).isSome then none
  else (acceptBlock E 20 20 10000000 false n b pos).map Prod.fst

/-- Deliver blocks to a fresh node, the last one first in the list. -/
def deliverAllIn (E : Env) : List CBlock → Option Node
  | [] => startedIn E
  | b :: bs => (deliverAllIn E bs).bind (deliverIn E · b)

def deliverAll (bs : List CBlock) : Option Node := deliverAllIn env bs

lemma delivered_of_deliverAllIn {bs : List CBlock} {n : Node} (h : deliverAllIn E bs = some n) :
    Delivered E bs n := by
  induction bs generalizing n with
  | nil => exact .start (startedIn_of_eq h)
  | cons b bs ih =>
    obtain ⟨n₁, h₁, h₂⟩ := Option.bind_eq_some_iff.mp h
    unfold deliverIn at h₂
    dsimp only at h₂
    split_ifs at h₂ with hpos
    obtain ⟨⟨n₂, r⟩, hr, rfl⟩ := Option.map_eq_some_iff.mp h₂
    exact .block (ih h₁) (Option.not_isSome_iff_eq_none.mp hpos) hr

lemma delivered_of_deliverAll {bs : List CBlock} {n : Node} (h : deliverAll bs = some n) :
    Delivered env bs n := delivered_of_deliverAllIn h

def activeOf (n : Node) : Option (List ℕ) :=
  match n.pindexBest.bind (n.ledger.path 20) with
  | some A => if n.vBlockIndexByHeight = A.reverse.map some then some A else none
  | none => none

lemma active_of_activeOf {n : Node} (h : activeOf n = some A) : n.Active A := by
  unfold activeOf at h
  split at h
  · rename_i A' hA
    split_ifs at h with hv
    cases h
    obtain ⟨t, ht, hp⟩ := Option.bind_eq_some_iff.mp hA
    obtain ⟨hc, hh⟩ := chain_of_path hp
    exact ⟨hc, ht.trans hh.symm, hv⟩
  · cases h

def call (t : ℕ) : Call := ⟨20, 20, 10000000, false, t⟩

/-- The conditions on a block to store it, at the position of its hash. -/
def fitsIn (E : Env) (n : Node) (b : CBlock) : Bool :=
  (n.index (getHash E b)).isNone && (n.blockFiles ⟨0, getHash E b⟩).isNone &&
    decide ((n.index b.hashPrevBlock).map (fun p => (p.nHeight : ℤ) + 1) = some b.nHeight)

lemma fitsIn_of_eq {n : Node} (h : fitsIn E n b = true) : n.Fits E b ⟨0, getHash E b⟩ := by
  unfold fitsIn at h
  simp only [Bool.and_eq_true, Option.isNone_iff_eq_none, decide_eq_true_eq] at h
  obtain ⟨⟨h1, h2⟩, h3⟩ := h
  obtain ⟨p, hp, hh⟩ := Option.map_eq_some_iff.mp h3
  exact ⟨h1, h2, p, hp, hh.symm⟩

/-- Store a block on top of the active chain and switch to it, which has to go through. -/
def extendIn (E : Env) (n : Node) (b : CBlock) : Option Node :=
  let h := getHash E b
  let m := n.store E b ⟨0, h⟩
  if fitsIn E n b ∧ (m.ledger.path 20 h).map List.tail = m.coinsTip.bind (m.ledger.path 20) ∧
      (m.coinsTip.bind (m.ledger.path 20)).isSome ∧ (m.nStatus h).failed = false then
    match (call h).run E m with
    | some (n', .ok ()) => some n'
    | _ => none
  else none

def extend (n : Node) (b : CBlock) : Option Node := extendIn env n b

lemma extendIn_steps {n n' : Node} (hP : ∀ m m' f l, m = n.store E b ⟨0, getHash E b⟩ →
      m.Branches (getHash E b) [] [getHash E b] f l →
        (m.nStatus (getHash E b)).failed = false →
          (call (getHash E b)).run E m = some (m', .ok ()) → P (call (getHash E b)) m)
    (he : extendIn E n b = some n') : ReflTransGen (Step E P) n n' := by
  unfold extendIn at he
  dsimp only at he
  split_ifs at he with hc
  obtain ⟨hfit, h4, h5, h6⟩ := hc
  obtain ⟨A, hA⟩ := Option.isSome_iff_exists.mp h5
  obtain ⟨t, ht, hpath⟩ := Option.bind_eq_some_iff.mp hA
  rw [hA] at h4
  obtain ⟨D, hD, rfl⟩ := Option.map_eq_some_iff.mp h4
  obtain ⟨hchD, hheadD⟩ := chain_of_path hD
  obtain ⟨-, hheadA⟩ := chain_of_path hpath
  obtain ⟨D', rfl⟩ := List.head?_eq_some_iff.mp hheadD
  obtain ⟨l, rfl⟩ := List.head?_eq_some_iff.mp hheadA
  split at he
  · rename_i m' hrun
    cases he
    exact (ReflTransGen.single (.store (fitsIn_of_eq hfit))).tail
      (.switch (hP _ _ _ _ rfl (.extension hchD ht) h6 hrun) hrun)
  · cases he

lemma extend_steps {n n' : Node}
    (hP : ∀ m m' f l, m.Branches (getHash env b) [] [getHash env b] f l →
      (m.nStatus (getHash env b)).failed = false →
        (call (getHash env b)).run env m = some (m', .ok ()) → P (call (getHash env b)) m)
    (he : extend n b = some n') : ReflTransGen (Step env P) n n' :=
  extendIn_steps (fun m m' f l _ => hP m m' f l) he

/-- What a node is told to do: to store a block, or to switch to one. -/
inductive Act
  | store (b : CBlock)
  | switch (t : ℕ)

/-- Do it; a switch has to go through. -/
def Act.perform (n : Node) : Act → Option Node
  | .store b => if fitsIn env n b then some (n.store env b ⟨0, getHash env b⟩) else none
  | .switch t =>
    match (call t).run env n with
    | some (n', .ok ()) => some n'
    | _ => none

def performAll : List Act → Node → Option Node
  | [], n => some n
  | a :: acts, n => (a.perform n).bind (performAll acts)

lemma perform_store {n m : Node} (h : Act.perform n (.store b) = some m) :
    n.Fits env b ⟨0, getHash env b⟩ ∧ m = n.store env b ⟨0, getHash env b⟩ := by
  simp only [Act.perform] at h
  split_ifs at h with hf
  exact ⟨fitsIn_of_eq hf, (Option.some.inj h).symm⟩

lemma reached_perform {a : Act} {n n' : Node} (hr : Reached env P n)
    (hP : ∀ t, a = .switch t → (call t).run env n = some (n', .ok ()) → P (call t) n)
    (h : a.perform n = some n') : Reached env P n' := by
  obtain ⟨n₀, h₀, hs⟩ := hr
  cases a with
  | store b =>
    obtain ⟨hf, rfl⟩ := perform_store h
    exact ⟨n₀, h₀, hs.tail (.store hf)⟩
  | switch t =>
    simp only [Act.perform] at h
    split at h
    · rename_i n₁ hrun
      cases h
      exact ⟨n₀, h₀, hs.tail (.switch (hP t rfl hrun) hrun)⟩
    · cases h

lemma reached_performAll {acts : List Act} {n n' : Node} (hr : Reached env P n)
    (hP : ∀ t m m', (call t).run env m = some (m', .ok ()) → P (call t) m)
    (h : performAll acts n = some n') : Reached env P n' := by
  induction acts generalizing n with
  | nil => cases h; exact hr
  | cons a acts ih =>
    obtain ⟨n₁, h₁, h₂⟩ := Option.bind_eq_some_iff.mp h
    exact ih (reached_perform hr (fun t _ hrun => hP t n n₁ hrun) h₁) h₂

end Toy

end FreechCore
