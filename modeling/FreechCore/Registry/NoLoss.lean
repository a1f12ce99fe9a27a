import FreechCore.Registry.Climb

/-!
Chains that are not lost to history. A chain whose blocks connect when they are delivered
alone is in order, and in a run without harmful calls of `SetBestChain` none of its blocks is
ever marked as failed. When it has the most work, the node moves to it, unless a lookup is
misled by what the branch before left behind.
-/

namespace FreechCore

open BackLink Ledger List Option

/-- The blocks `bs`, the last one first, are delivered to a fresh node, each on top of the one
before and none of them after the time `T`. Each of them is accepted and becomes the best
block. -/
inductive Alone (env : Env) (T : ℤ) : List CBlock → Node → Prop
  | start {m : Node} : Started env m → Alone env T [] m
  | block {bs : List CBlock} {b : CBlock} {m m' : Node} {fuel rounds : ℕ} {now : ℤ} {fIBD : Bool}
      {pos : CDiskBlockPos} : Alone env T bs m → m.blockFiles pos = none → now ≤ T →
      m.pindexBest = some b.hashPrevBlock →
      acceptBlock env fuel rounds now fIBD m b pos = some (m', .ok ()) →
      m'.pindexBest = some (getHash env b) → Alone env T (b :: bs) m'

section

variable {env : Env} {T now : ℤ} {n m : Node} {bs : List CBlock} {b : CBlock} {A : List ℕ}
  {pos : CDiskBlockPos} {L : Ledger}

section Alone

variable {fuel rounds : ℕ} {fIBD : Bool} {n' m' : Node}
variable {l : List ℕ} {t f : ℕ} {reconnect : Node → Option Node}

/-- A node that knows of one chain `A` only, whose blocks are `bs` on top of the genesis
block. -/
structure OneChain (env : Env) (T : ℤ) (bs : List CBlock) (m : Node) (A : List ℕ) : Prop where
  order : InOrder env T m A
  only : ∀ {h p}, m.index h = some p → h ∈ A
  failed : ∀ h, (m.nStatus h).failed = false
  candidates : ∀ h ∈ m.setBlockIndexValid, h ∈ A
  softCP : m.lastSoftCP.1 = 0
  keys : ∀ u k, (A.length : ℤ) ≤ k + 1 → m.entries env u k = none
  blocks : A.map m.ledger.block = (bs ++ [genesisBlock env]).map some
  valid : m.ValidChain env T A

lemma Fresh.oneChain (F : Fresh env m) : OneChain env T [] m [hashGenesisBlock env] where
  order := F.inOrder
  only := fun hp => by rw [F.only hp]; exact mem_singleton_self _
  failed := F.failed
  candidates := by rw [F.candidates]; exact fun _ => id
  softCP := by rw [F.softCP]
  keys := fun u k _ => F.entries u k
  blocks := by
    have S := F.settled.working
    cases S.chainA with
    | root hp hq =>
      obtain ⟨b, hb, -, -, hgen⟩ := S.tree.stored hp
      simp [block_eq hp, hb, hgen hq]
  valid := by
    intro hi x lo he hlo
    have := congrArg List.length he
    simp only [length_append, length_cons, length_nil] at this
    exact absurd (length_eq_zero_iff.mp (by omega)) hlo

lemma setBestChain_passes (S : Settled env n (f :: l)) (ht : n.Tidy env (f :: l) (f :: l))
    (hch : n.ledger.Chain (t :: f :: l)) (hf : (n.nStatus t).failed = false)
    (hr : setBestChain env fuel now fIBD reconnect n t = some (n', .ok ())) :
    n.PassesBy env now (f :: l) t := by
  have B : n.Branches t [] [t] f l := .extension hch S.coins
  have hf' : ∀ h ∈ [t], (n.nStatus h).failed = false := by simpa using hf
  rw [setBestChain_eq_of_unfailed S.working.tree B hf', if_neg (by simp)] at hr
  obtain ⟨p, hp⟩ := hch.index_eq mem_cons_self
  obtain ⟨n₂, view₂, w, hcon, -⟩ :=
    (reorganise_cases rfl hr).resolve_right fun ⟨_, _, _, _, _, hno, _⟩ => hno rfl
  obtain ⟨p', b, n₁, view₁, v₁, hp', hb, hc, -⟩ := connectAll_cons_ok hcon
  cases hp.symm.trans hp'
  have hst := stored_of_readBlockFromDisk S.working.tree hp hb
  refine ⟨b, hb, ?_⟩
  rw [hch.ht_eq S.working.tree]
  exact connectBlock_passes S.working hst hch (S.working.right ht) hc

lemma OneChain.connectBestBlock_eq {s : Node} {best h : ℕ} {A' : List ℕ} {res : Check}
    (I : InOrder env T s (best :: A')) (hch : s.ledger.Chain (h :: best :: A'))
    (hcand : ∀ x ∈ s.setBlockIndexValid, x ∈ h :: best :: A')
    (hf : ∀ x, (s.nStatus x).failed = false)
    (hr : connectBestBlock env fuel now fIBD rounds s = some (n', res)) :
    n' = s ∨ ∃ rounds', setBestChain env fuel now fIBD (fun n =>
      (connectBestBlock env fuel now fIBD rounds' n).map Prod.fst) s h = some (n', res) := by
  have S := I.settled
  have hbest : s.pindexBest = some best := S.best
  have hle := I.work.chainWork_le S.working.chainA
  cases rounds with
  | zero => cases hr
  | succ rounds =>
    unfold connectBestBlock at hr
    split at hr
    · cases hr
      exact Or.inl rfl
    · rename_i t ht
      split_ifs at hr
      · cases hr
        exact Or.inl rfl
      · have hmem : t ∈ h :: best :: A' := hcand t (Node.bestCandidate_mem ht)
        obtain ⟨a, m, ham⟩ := append_of_mem hmem
        have hm : s.ledger.Chain (t :: m) := (ham ▸ hch).of_append (by simp)
        have hheight : s.heightOf t = m.length := hm.height S.working.tree
        rw [checkAncestry_attach S.working.chainA (fun _ => S.working.isInMainChain_iff.mp) hbest hle
          hm (fun x _ => hf x) (by omega), append_nil] at hr
        -- at most the new block has more work than the best one
        cases a with
        | cons y a =>
          rw [cons_append, List.cons.injEq] at ham
          rw [heavier_eq_nil fun x hx => hle x (by rw [ham.2]; exact mem_append_right _ hx)] at hr
          exact Or.inl (congrArg Prod.fst (some.inj hr)).symm
        | nil =>
          obtain ⟨rfl, rfl⟩ := ham
          by_cases hh : s.chainWork best < s.chainWork h
          · rw [Node.heavier, filter_cons_of_pos (by simpa using hh)] at hr
            rw [show List.filter _ _ = _ from heavier_eq_nil hle] at hr
            refine Or.inr ⟨rounds, ?_⟩
            simp only [reverse_singleton, switchAll] at hr
            split at hr
            · cases hr
            · rename_i hs
              rw [hs]
              exact hr
            · rename_i hs
              rw [hs]
              exact hr
          · rw [Node.heavier, filter_cons_of_neg (by simpa using hh)] at hr
            rw [show List.filter _ _ = _ from heavier_eq_nil hle] at hr
            exact Or.inl (congrArg Prod.fst (some.inj hr)).symm

lemma OneChain.extend (O : OneChain env T bs m A) (hfit : m.Fits env b pos)
    (hch : (m.store env b pos).ledger.Chain (getHash env b :: A))
    (hpass : (m.store env b pos).PassesBy env T A (getHash env b))
    (R : Reorganised env [] [getHash env b] A (m.store env b pos) n) :
    OneChain env T (b :: bs) n (getHash env b :: A) := by
  have S := O.order.settled.working
  have hst := store_stores m env b pos
  have I := O.order.store hfit
  have he : (m.store env b pos).entries env = m.entries env := hfit.grewTo.entries S.sound
  have hht : (m.store env b pos).ledger.ht (getHash env b) = A.length := by
    unfold ht
    rw [hch.height I.settled.working.tree]
  have hidx : (m.store env b pos).index (getHash env b) = some (m.newBlockIndex b pos) := by
    rw [store_index, if_pos rfl]
  have hclean : (m.store env b pos).CleanBranch env A A [getHash env b] := by
    intro hi x lo hx u _ _ _
    have hxb : x = getHash env b := mem_singleton.mp (by rw [hx]; simp)
    rw [he, hxb, hht]
    exact O.keys u _ (by omega)
  have hsame := hfit.grows.sameOn S.tree S.chainA
  refine ⟨I.reorganised R hclean, fun {h p} hp => ?_, fun h => ?_, fun h hh => ?_, ?_,
    fun u k hk => ?_, ?_, ?_⟩
  · rw [Node.index_congr R.ledger, store_index] at hp
    split_ifs at hp with hh
    · exact hh ▸ mem_cons_self
    · exact mem_cons_of_mem _ (O.only hp)
  · rw [R.failed, hst.failed, O.failed]
    exact ite_self _
  · rw [R.candidates, hst.candidates] at hh
    rcases mem_cons.mp hh with rfl | hh
    · exact mem_cons_self
    · exact mem_cons_of_mem _ (O.candidates h hh)
  · rw [R.softCP, hst.softCP]
    exact O.softCP
  · rw [length_cons, Nat.cast_add, Nat.cast_one] at hk
    rw [R.keys u k (by omega) (by simp only [mem_singleton, forall_eq, hht]; omega), he]
    exact O.keys u k (by omega)
  · rw [R.ledger, map_cons, cons_append, map_cons, ← O.blocks]
    congr 1
    · rw [block_eq hidx]
      exact (store_blockFiles pos).trans (if_pos rfl)
    · exact map_congr_left fun x hx => (hsame x hx).1
  · intro hi x lo hx hlo
    cases hi with
    | nil =>
      obtain ⟨rfl, rfl⟩ := hx
      exact hpass.congr (.of_eq R.ledger)
    | cons y hi =>
      rw [cons_append, List.cons.injEq] at hx
      have := O.valid.congr hsame hi x lo hx.2 hlo
      exact this.congr (.of_eq R.ledger)

lemma OneChain.accept (O : OneChain env T bs m A) (hpos : m.blockFiles pos = none) (hnow : now ≤ T)
    (hprev : m.pindexBest = some b.hashPrevBlock)
    (hacc : acceptBlock env fuel rounds now fIBD m b pos = some (m', .ok ()))
    (hbest : m'.pindexBest = some (getHash env b)) :
    OneChain env T (b :: bs) m' (getHash env b :: A) := by
  have S := O.order.settled
  obtain ⟨-, f, hf⟩ | ⟨hfit, -, n₁, r, hcb, ⟨-, f, hf⟩ | ⟨rfl, -, hcp⟩⟩ :=
    acceptBlock_cases hacc S.genesis hpos
  · cases hf
  · cases hf
  have hst := store_stores m env b pos
  have I := O.order.store hfit
  have hnew : ∀ {h p}, m.index h = some p → h ≠ getHash env b := fun hp e => by
    rw [e, hfit.hash] at hp
    cases hp
  obtain ⟨pp, hpp, -⟩ := hfit.parent
  obtain ⟨A', rfl⟩ := List.head?_eq_some_iff.mp (S.best.symm.trans hprev)
  have hidx : (m.store env b pos).index (getHash env b) = some (m.newBlockIndex b pos) := by
    rw [store_index, if_pos rfl]
  have hch : (m.store env b pos).ledger.Chain (getHash env b :: b.hashPrevBlock :: A') :=
    .cons hidx (by simp [Node.newBlockIndex, hpp]) (hfit.grows.chain S.working.chainA)
  have hnf : ∀ x, ((m.store env b pos).nStatus x).failed = false := fun x => by
    rw [hst.failed, O.failed]
    exact ite_self _
  have hcand : ∀ x ∈ (m.store env b pos).setBlockIndexValid,
      x ∈ getHash env b :: b.hashPrevBlock :: A' := by
    rw [hst.candidates]
    intro x hx
    rcases mem_cons.mp hx with rfl | hx
    · exact mem_cons_self
    · exact mem_cons_of_mem _ (O.candidates x hx)
  -- there is no soft checkpoint
  have hstay : ∀ n, n.lastSoftCP.1 = 0 →
      setSoftCPBestChain env fuel rounds now fIBD n = some n := fun n h => by
    simp [setSoftCPBestChain, h]
  rcases OneChain.connectBestBlock_eq I hch hcand hnf hcb with rfl | ⟨rounds', hsw⟩
  · -- a node that stays where it is does not have the new block for its best one
    rw [hstay _ (by rw [hst.softCP]; exact O.softCP), some.injEq] at hcp
    rw [← hcp, hst.best, hprev, some.injEq] at hbest
    exact absurd hbest (hnew hpp)
  have hpass := setBestChain_passes I.settled I.tidy hch (hnf _) hsw
  have B : (m.store env b pos).Branches (getHash env b) [] [getHash env b] b.hashPrevBlock A' :=
    .extension hch I.settled.coins
  obtain ⟨-, h, -⟩ | ⟨-, -, hR⟩ | ⟨-, g, _, _, _, _, _, _, _, h, -⟩ :=
    setBestChain_cases I.settled B hsw
  · cases h
  · have R := hR (joinable_eq_reverse.mpr fun x _ => hnf x)
    rw [hstay _ (by rw [R.softCP, hst.softCP]; exact O.softCP), some.injEq] at hcp
    exact hcp ▸ O.extend hfit hch (hpass.mono hnow) R
  · cases h

/-- **A chain that connects when it is delivered alone** is in order. -/
theorem Alone.oneChain (ha : Alone env T bs m) : ∃ A, OneChain env T bs m A := by
  induction ha with
  | start h => exact ⟨_, h.fresh.oneChain⟩
  | block _ hpos hnow hprev hacc hbest ih =>
    obtain ⟨A, O⟩ := ih
    exact ⟨_, O.accept hpos hnow hprev hacc hbest⟩

end Alone

/-! ### Among other branches -/

section Others

variable {D : List ℕ}

lemma Ledger.Tree.eq_hash (T : L.Tree env) {x : ℕ} (hb : L.block x = some b) :
    x = getHash env b ∧ L.ht x = b.nHeight := by
  obtain ⟨p, hp, hf⟩ := bind_eq_some_iff.mp hb
  obtain ⟨c, hc, hh, hn, -⟩ := T.stored hp
  obtain rfl : c = b := some.inj (hc.symm.trans hf)
  refine ⟨hh.symm, ?_⟩
  unfold ht
  rw [heightOf_eq hp, hn]

lemma Ledger.Tree.sameOn {L' : Ledger} (T : L.Tree env) (T' : L'.Tree env) {cs : List CBlock}
    (hA : A.map L.block = cs.map some) (hD : D.map L'.block = cs.map some) :
    A = D ∧ L.SameOn L' D := by
  induction cs generalizing A D with
  | nil =>
    obtain rfl := map_eq_nil_iff.mp hA
    obtain rfl := map_eq_nil_iff.mp hD
    exact ⟨rfl, by simp [Ledger.SameOn]⟩
  | cons c cs ih =>
    obtain ⟨x, A, rfl, hx, hA'⟩ := map_eq_cons_iff.mp hA
    obtain ⟨y, D, rfl, hy, hD'⟩ := map_eq_cons_iff.mp hD
    obtain ⟨hxc, hxn⟩ := T.eq_hash hx
    obtain ⟨hyc, hyn⟩ := T'.eq_hash hy
    obtain ⟨rfl, hs⟩ := ih hA' hD'
    obtain rfl : x = y := hxc.trans hyc.symm
    exact ⟨rfl, forall_mem_cons.mpr ⟨⟨hy.trans hx.symm, hyn.trans hxn.symm⟩, hs⟩⟩

/-- The chain `D` leads, and no lookup is misled on the way to it; the part of its branch up to
the first block with more work than the best one is not shorter than the branch it
replaces. -/
def Node.MayTakeOver (n : Node) (env : Env) (D : List ℕ) : Prop :=
  ∃ t dis con f l, D = con ++ f :: l ∧ n.Branches t dis con f l ∧ n.Leads t ∧
    n.FairBranch env dis con (f :: l) ∧ ∀ a d b, con = a ++ d :: b →
      (∀ best, n.pindexBest = some best → n.chainWork best < n.chainWork d) →
        dis.length ≤ b.length + 1

/-- **No valid chain is lost to history**: in a run whose calls of `SetBestChain` do no harm,
no block of a chain that connects when it is delivered alone is marked as failed, and when
the chain leads and may take over, the node moves to it. -/
theorem connectBestBlock_of_alone (hr : Reached env (SafeCall env T) n) (ha : Alone env T bs m)
    (hD : n.ledger.Chain D) (hbs : D.map n.ledger.block = (bs ++ [genesisBlock env]).map some) :
    (∀ x ∈ D, (n.nStatus x).failed = false) ∧
      (n.MayTakeOver env D → T ≤ now → ∀ fuel rounds fIBD, D.length + 1 < fuel →
        ∃ n', connectBestBlock env fuel now fIBD (rounds + 1) n = some (n', .ok ()) ∧
          n'.Active D ∧ ∀ x ∈ D, (n'.nStatus x).failed = false) := by
  obtain ⟨A, I⟩ := hr.inOrder
  obtain ⟨A', O⟩ := ha.oneChain
  obtain ⟨rfl, hsame⟩ := O.order.settled.working.tree.sameOn I.settled.working.tree O.blocks hbs
  have hv : n.ValidChain env T A' := O.valid.congr hsame
  have hf : ∀ x ∈ A', (n.nStatus x).failed = false := by
    intro x hx
    obtain ⟨a, b, rfl⟩ := append_of_mem hx
    exact I.spared x b (hD.of_append (by simp)) hv.lower
  refine ⟨hf, ?_⟩
  rintro ⟨t, dis, con, f, l, rfl, B, hlead, hfair, hlong⟩ hT fuel rounds fIBD hfuel
  obtain rfl := I.settled.eq_left B
  obtain ⟨n', hn', hact, hf'⟩ := connectBestBlock_joins I B hlead hv hfair hlong hT hfuel
  exact ⟨n', hn', hact, fun x hx => (hf' x).trans (hf x hx)⟩

end Others

end

namespace Toy

/-- Deliver a block on top of the active chain; it has to become the best one. -/
def deliverAlone (n : Node) (b : CBlock) : Option Node :=
  let pos : CDiskBlockPos := ⟨0, getHash env b⟩
  if (n.blockFiles pos).isSome ∨ n.pindexBest ≠ some b.hashPrevBlock then none
  else
    match acceptBlock env 20 20 10000000 false n b pos with
    | some (n', .ok ()) => if n'.pindexBest = some (getHash env b) then some n' else none
    | _ => none

def aloneAll : List CBlock → Option Node
  | [] => started
  | b :: bs => (aloneAll bs).bind (deliverAlone · b)

lemma alone_of_aloneAll {bs : List CBlock} {m : Node} (h : aloneAll bs = some m) :
    Alone env 10000000 bs m := by
  induction bs generalizing m with
  | nil => exact .start (started_of_eq h)
  | cons b bs ih =>
    obtain ⟨m₁, h₁, h₂⟩ := bind_eq_some_iff.mp h
    unfold deliverAlone at h₂
    dsimp only at h₂
    split_ifs at h₂ with hc
    rw [not_or, not_not, Bool.not_eq_true, isSome_eq_false_iff,
      isNone_iff_eq_none] at hc
    split at h₂
    · rename_i m₂ hacc
      split_ifs at h₂ with hb
      cases h₂
      exact .block (ih h₁) hc.1 le_rfl hc.2 hacc hb
    · cases h₂

/-- The names of a branch are new to the index, and nobody signs its messages. -/
def free (n : Node) (dis con F : List ℕ) : Bool :=
  con.all fun x => ((n.ledger.registrations x).all fun tx =>
      (n.entries env tx.getUsername (n.ledger.ht x - 1)).isNone &&
        (n.ledger.history tx.getUsername (dis ++ F)).isEmpty) &&
    ((n.readBlockFromDisk env x).bind (·.vtx.head?)).all fun tx => tx.signer = nobody

lemma fair_of_free {n : Node} {dis con F : List ℕ} (h : free n dis con F = true) :
    n.FairBranch env dis con F := by
  simp only [free, List.all_eq_true, Bool.and_eq_true, isNone_iff_eq_none,
    List.isEmpty_iff] at h
  refine fairBranch_of_free (fun x hx => (h x hx).1) fun x hx b tx hb htx => ?_
  have := (h x hx).2
  rw [hb, bind_some, htx] at this
  simpa using this

def rival (key : Bytes) : List CBlock :=
  [block 13 12 2 spam [], block 12 1 1 spam [register alice key]]

def plainStored : Option Node := started.bind (Act.perform · (.store (block 2 1 1 spam [])))

def crossroads : Option Node :=
  plainStored.bind (performAll [.switch 2, .store (block 12 1 1 spam [register alice key1]),
    .store (block 13 12 2 spam [])])

end Toy

open Toy in
/-- A chain that takes over from a block that registers nothing. -/
theorem rival_takes_over : ∃ m n, Reached Toy.env (SafeCall Toy.env 10000000) n ∧
    n.pindexBest = some 2 ∧ Alone Toy.env 10000000 (rival key1) m ∧
    ∃ n', connectBestBlock Toy.env 20 10000000 false 20 n = some (n', .ok ()) ∧
      n'.Active [13, 12, 1] ∧ ∀ x ∈ [13, 12, 1], (n'.nStatus x).failed = false := by
  obtain ⟨m, hm⟩ : ∃ m, aloneAll (rival key1) = some m :=
    isSome_iff_exists.mp (by decide +kernel)
  obtain ⟨n₁, hn₁⟩ : ∃ n₁, plainStored = some n₁ := isSome_iff_exists.mp (by decide +kernel)
  have h₁ : plainStored.map (fun n =>
      (n.ledger.path 20 2, n.coinsTip, (n.nStatus 2).failed, free n [] [2] [1])) =
        some (some [2, 1], some 1, false, true) := by decide +kernel
  have h₂ : crossroads.map (fun n => (n.ledger.path 20 13, n.ledger.path 20 2, n.coinsTip)) =
      some (some [13, 12, 1], some [2, 1], some 2) := by decide +kernel
  have h₃ : crossroads.map (fun n => (n.pindexBest, n.setBlockIndexValid,
      [12, 2, 1].all (n.better 13) && decide (n.chainWork 2 < n.chainWork 13),
      free n [2] [13, 12] [1])) = some (some 2, [13, 12, 2, 1], true, true) := by decide +kernel
  have hb : crossroads.map (fun n => [13, 12, 1].map n.ledger.block) =
      some ((rival key1 ++ [genesisBlock Toy.env]).map some) := by decide +kernel
  rw [hn₁, map_some, some.injEq] at h₁
  simp only [Prod.mk.injEq] at h₁
  obtain ⟨hp₁, hc₁, hf₁, hfree₁⟩ := h₁
  obtain ⟨n, hn, he⟩ := map_eq_some_iff.mp h₂
  rw [hn, map_some, some.injEq] at h₃ hb
  simp only [Prod.mk.injEq, Bool.and_eq_true, decide_eq_true_eq] at he h₃
  obtain ⟨hp, hpA, hcoins⟩ := he
  obtain ⟨hbest, hcand, ⟨hbetter, hmore⟩, hfree⟩ := h₃
  rw [crossroads, hn₁, bind_some] at hn
  obtain ⟨n₀, hn₀, hst⟩ := bind_eq_some_iff.mp hn₁
  obtain ⟨n₂, hn₂, hrest⟩ := bind_eq_some_iff.mp hn
  obtain ⟨n₃, hn₃, hrest⟩ := bind_eq_some_iff.mp hrest
  obtain ⟨n₄, hn₄, hrest⟩ := bind_eq_some_iff.mp hrest
  cases hrest
  have hr₀ : Reached env (SafeCall env 10000000) n₀ := ⟨n₀, started_of_eq hn₀, .refl⟩
  have hr₁ := reached_perform hr₀ (fun t ht => by cases ht) hst
  have hr₂ := reached_perform hr₁ (fun t ht hrun => by
    cases ht
    exact ⟨le_rfl, [], [2], 1, [], .extension (chain_of_path hp₁).1 hc₁,
      Or.inr ⟨by simpa using hf₁, fair_of_free hfree₁, Or.inl ⟨rfl, le_rfl⟩⟩⟩) hn₂
  have hr := reached_perform (reached_perform hr₂ (fun t ht => by cases ht) hn₃)
    (fun t ht => by cases ht) hn₄
  have hchD := (chain_of_path hp).1
  have hmay : n.MayTakeOver Toy.env [13, 12, 1] := by
    refine ⟨13, [2], [13, 12], 1, [], rfl, ⟨⟨(chain_of_path hpA).1, hchD, by simp⟩, hcoins, rfl⟩,
      ⟨fun x hx hne => ?_, fun best hb' => ?_⟩, fair_of_free hfree, fun a d b he _ => by simp⟩
    · rw [hcand] at hx
      exact all_eq_true.mp hbetter x ((mem_cons.mp hx).resolve_left hne)
    · rw [hbest, some.injEq] at hb'
      exact hb' ▸ hmore
  exact ⟨m, n, hr, hbest, alone_of_aloneAll hm,
    (connectBestBlock_of_alone hr (alone_of_aloneAll hm) hchD hb).2 hmay le_rfl 20 19 false
      (by decide)⟩

open Toy in
/-- A chain that connects when it is delivered alone is lost if another block with the same
name comes before: it has more work than the active chain, and its lower block has failed. -/
theorem rival_lost : ∃ m n, Alone Toy.env 10000000 (rival key2) m ∧ m.Active [13, 12, 1] ∧
    Delivered Toy.env (rival key2 ++ [block 2 1 1 spam [register alice key1]]) n ∧
    n.ledger.Chain [13, 12, 1] ∧
    [13, 12, 1].map n.ledger.block = (rival key2 ++ [genesisBlock Toy.env]).map some ∧
    n.Active [2, 1] ∧ n.chainWork 2 < n.chainWork 13 ∧ (n.nStatus 12).failed = true := by
  have h₁ : (aloneAll (rival key2)).map activeOf = some (some [13, 12, 1]) := by decide +kernel
  have h₂ : (deliverAll (rival key2 ++ [block 2 1 1 spam [register alice key1]])).map (fun n =>
      (activeOf n, n.ledger.path 20 13, decide (n.chainWork 2 < n.chainWork 13),
        (n.nStatus 12).failed)) = some (some [2, 1], some [13, 12, 1], true, true) := by
    decide +kernel
  have h₃ : (deliverAll (rival key2 ++ [block 2 1 1 spam [register alice key1]])).map (fun n =>
      [13, 12, 1].map n.ledger.block) =
        some ((rival key2 ++ [genesisBlock Toy.env]).map some) := by
    decide +kernel
  obtain ⟨m, hm, hmA⟩ := map_eq_some_iff.mp h₁
  obtain ⟨n, hn, he⟩ := map_eq_some_iff.mp h₂
  simp only [Prod.mk.injEq, decide_eq_true_eq] at he
  obtain ⟨hA, hpath, hwork, hfail⟩ := he
  rw [hn, map_some, some.injEq] at h₃
  exact ⟨m, n, alone_of_aloneAll hm, active_of_activeOf hmA, delivered_of_deliverAll hn,
    (chain_of_path hpath).1, h₃, active_of_activeOf hA, hwork, hfail⟩

end FreechCore
