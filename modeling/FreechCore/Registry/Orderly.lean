import FreechCore.Registry.Runs
import FreechCore.Registry.Safe

/-!
Runs in which no block is marked as failed without a reason. A block is in order if it passes
the checks of `ConnectBlock` with names looked up on its own chain. As long as no call of
`SetBestChain` lets a lookup be misled, every block that is marked is out of order, or has
such a block below it.
-/

namespace FreechCore

open BackLink Ledger List

variable {L L' : Ledger}

/-! ### Chains in order -/

/-- Every block of a chain above the first is in order on the chain below it. -/
def Node.ValidChain (n : Node) (env : Env) (T : ℤ) (D : List ℕ) : Prop :=
  ∀ hi x lo, D = hi ++ x :: lo → lo ≠ [] → n.PassesBy env T lo x

variable {env : Env} {n : Node} {con F dis : List ℕ} {c : Call}

variable {T : ℤ} {n' : Node} {hi lo l : List ℕ} {x : ℕ} {b : CBlock} {pos : CDiskBlockPos}
  {res : Check}

section Valid

variable {now : ℤ} {D : List ℕ}

lemma Node.ValidChain.lower (h : n.ValidChain env T (hi ++ lo)) : n.ValidChain env T lo :=
  fun a x b he => h (hi ++ a) x b (by rw [he, append_assoc])

lemma Node.ValidChain.branch (h : n.ValidChain env T (con ++ F)) (hF : F ≠ []) (hT : T ≤ now) :
    n.ValidBranch env now con F := fun a x b he =>
  (h a x (b ++ F) (by rw [he]; simp) (by simp [hF])).mono hT

lemma readBlockFromDisk_eq (n : Node) (env : Env) (h : ℕ) :
    n.readBlockFromDisk env h = (n.ledger.block h).bind fun b =>
      if checkProofOfWork env (getPoWHash env b) b.nBits ∧ getHash env b = h then some b
      else none := by
  unfold Node.readBlockFromDisk block
  change _ = ((n.index h).bind fun p => n.blockFiles p.blockPos).bind _
  cases n.index h with
  | none => rfl
  | some p =>
    dsimp only [Option.bind_some]
    cases n.blockFiles p.blockPos <;> rfl

/-- The same blocks at the same heights. -/
def Ledger.SameOn (L L' : Ledger) (D : List ℕ) : Prop :=
  ∀ x ∈ D, L'.block x = L.block x ∧ L'.ht x = L.ht x

lemma Ledger.SameOn.latest {u : Bytes} {k : ℤ} (h : L.SameOn L' D) :
    L'.latest u D k = L.latest u D k := by
  have hreg : ∀ x ∈ D, L'.registration x u = L.registration x u := fun x hx => by
    simp only [Ledger.registration, Ledger.registrations, (h x hx).1]
  unfold Ledger.latest
  induction D with
  | nil => rfl
  | cons x D ih =>
    have hx := hreg x (by simp)
    rw [List.find?_cons, List.find?_cons, (h x (by simp)).2]
    simp only [registers, found, hx]
    split
    · simp [found, hx]
    · exact ih (fun y hy => h y (mem_cons_of_mem _ hy))
        fun y hy => hreg y (mem_cons_of_mem _ hy)

lemma Node.PassesBy.congr (h : n.ledger.SameOn n'.ledger (x :: lo)) (hx : n.PassesBy env T lo x) :
    n'.PassesBy env T lo x := by
  obtain ⟨b, hb, hpass⟩ := hx
  obtain ⟨hblock, hht⟩ := h x (by simp)
  have hlook : n'.ledger.lookAt lo (n'.ledger.ht x) = n.ledger.lookAt lo (n.ledger.ht x) := by
    funext u
    rw [hht]
    exact Ledger.SameOn.latest fun y hy => h y (mem_cons_of_mem _ hy)
  refine ⟨b, ?_, by rw [hlook]; exact hpass⟩
  rw [readBlockFromDisk_eq, hblock, ← readBlockFromDisk_eq]
  exact hb

lemma Node.ValidChain.congr (h : n.ledger.SameOn n'.ledger D) (hD : n.ValidChain env T D) :
    n'.ValidChain env T D := by
  intro a x b he hb
  refine (hD a x b he hb).congr fun y hy => h y ?_
  rw [he]
  exact mem_append_right _ hy

lemma Ledger.Grows.sameOn (G : L.Grows L') (T : L.Tree env) (hD : L.Chain D) : L.SameOn L' D := by
  intro x hx
  obtain ⟨p, hp⟩ := hD.index_eq hx
  obtain ⟨b, hb, -⟩ := T.stored hp
  refine ⟨?_, G.ht hp⟩
  rw [block_eq hp, block_eq (G.index hp), hb, G.file hb]

lemma Ledger.SameOn.symm (h : L.SameOn L' D) : L'.SameOn L D :=
  fun x hx => ⟨(h x hx).1.symm, (h x hx).2.symm⟩

lemma Ledger.SameOn.of_eq (h : L' = L) : L.SameOn L' D :=
  h ▸ fun _ _ => ⟨rfl, rfl⟩

end Valid

/-! ### The invariant -/

/-- Work does not get less along a chain. -/
def Ledger.WorkGrows (L : Ledger) : Prop :=
  ∀ h p q pq, L.index h = some p → p.pprev = some q → L.index q = some pq →
    pq.nChainWork ≤ p.nChainWork

lemma Ledger.WorkGrows.store (hw : n.ledger.WorkGrows) (T : n.ledger.Tree env)
    (F : n.Fits env b pos) : (n.store env b pos).ledger.WorkGrows := by
  obtain ⟨pp, hpp, -⟩ := F.parent
  have hold : ∀ {h p}, n.index h = some p → h ≠ getHash env b := fun hp e => by
    rw [e, F.hash] at hp
    cases hp
  intro h p q pq hp hq hpq
  replace hp : (n.store env b pos).index h = some p := hp
  replace hpq : (n.store env b pos).index q = some pq := hpq
  rw [store_index] at hp hpq
  split_ifs at hp with he
  · cases hp
    simp only [Node.newBlockIndex, hpp, Option.map_some, Option.some.injEq] at hq
    subst hq
    rw [if_neg (hold hpp), hpp, Option.some.injEq] at hpq
    subst hpq
    simp [Node.newBlockIndex, hpp]
  · obtain ⟨pq', hpq', -⟩ := T.parent hp hq
    rw [if_neg (hold hpq')] at hpq
    exact hw h p q pq hp hq hpq

lemma Fresh.workGrows (F : Fresh env n) : n.ledger.WorkGrows := by
  intro h p q pq hp hq _
  rw [(F.settled.working.tree.root_iff hp).mpr (F.only hp)] at hq
  cases hq

/-- The node is settled on `A`, and only blocks that are not in order, or lie above such a
block, are marked as failed. -/
structure InOrder (env : Env) (T : ℤ) (n : Node) (A : List ℕ) : Prop where
  settled : Settled env n A
  tidy : n.Tidy env A A
  listed : n.Listed
  work : n.ledger.WorkGrows
  spared : ∀ x l, n.ledger.Chain (x :: l) → n.ValidChain env T (x :: l) →
    (n.nStatus x).failed = false

/-- The branch `con` may be tried in the place of `dis`. It is refused as too short, or no lookup is
misled for it, and it is a single block on top of the active chain, or it is in order, or giving it
up half way touches no name of the active chain. -/
def Node.SafeBranch (n : Node) (env : Env) (now : ℤ) (dis con F : List ℕ) : Prop :=
  (n.joinable con).length < dis.length ∨
    ((∀ h ∈ con, (n.nStatus h).failed = false) ∧ n.FairBranch env dis con F ∧
      ((dis = [] ∧ con.length ≤ 1) ∨ n.ValidBranch env now con F ∨
        (n.Untouched env dis con F ∧ n.ledger.NamesOnce con)))

/-- A call of `SetBestChain` not before the time `T` that does no harm. -/
def SafeCall (env : Env) (T : ℤ) (c : Call) (n : Node) : Prop :=
  T ≤ c.now ∧ ∃ dis con f l, n.Branches c.pindexNew dis con f l ∧
    n.SafeBranch env c.now dis con (f :: l)

section Steps

variable {A : List ℕ}

lemma InOrder.not_valid (I : InOrder env T n A) {z : ℕ} (hC : n.ledger.Chain (hi ++ z :: lo))
    (hx : x ∈ hi) (hz : (n.nStatus z).failed = true) (hl : n.ledger.Chain (x :: l)) :
    ¬ n.ValidChain env T (x :: l) := by
  intro hv
  have hzl : n.ledger.Chain (z :: lo) := hC.of_append (by simp)
  obtain ⟨a, b, rfl⟩ := append_of_mem hx
  rw [append_assoc, cons_append] at hC
  have hxl := (hC.of_append (by simp)).unique hl
  rw [← hxl, ← cons_append] at hv
  have := I.spared z lo hzl hv.lower
  rw [hz] at this
  cases this

lemma InOrder.reorganised (I : InOrder env T n (dis ++ F)) (R : Reorganised env dis con F n n')
    (hc : n.CleanBranch env (dis ++ F) F con) : InOrder env T n' (con ++ F) where
  settled := R.settled
  tidy := R.tidy I.tidy hc
  listed := I.listed.congr R.ledger R.failed R.candidates
  work := by rw [R.ledger]; exact I.work
  spared := by
    intro x l hx hv
    rw [R.failed]
    rw [R.ledger] at hx
    exact I.spared x l hx (hv.congr (.of_eq R.ledger.symm))

lemma InOrder.givenUp {done : List ℕ} {bad : ℕ} {n₁ n₂ n₃ : Node} {e : Failure}
    (I : InOrder env T n (dis ++ F)) (hT : T ≤ c.now) (hF : F ≠ []) (hD : n.ledger.Chain (con ++ F))
    (hoff : ∀ x ∈ con, x ∉ dis ++ F) (hs : n.FairBranch env dis con F)
    (hcase : (dis = [] ∧ con.length ≤ 1) ∨ n.ValidBranch env c.now con F ∨
      (n.Untouched env dis con F ∧ n.ledger.NamesOnce con))
    (G : GivenUp env c.fuel c.now dis F con.reverse done bad n n₁ n₂ n₃ n' e) :
    InOrder env T n' (dis ++ F) := by
  have hw := I.settled.working
  have hbad := G.invalid hw I.tidy hD hs
  obtain ⟨rest, hsplit⟩ := G.split
  have hcon := eq_of_reverse_split hsplit
  have hch : n.ledger.Chain (bad :: (done.reverse ++ F)) := hD.under hsplit
  have hL : n'.ledger = n.ledger := G.marked.same.ledger.trans (G.frame hch).ledger
  obtain ⟨hrows, htidy⟩ : (∀ u, n.ledger.history u (dis ++ F) ≠ [] →
      n'.entries env u = n.entries env u) ∧ n'.Tidy env (dis ++ F) (dis ++ F) := by
    rcases hcase with ⟨rfl, h1⟩ | hv | ⟨hU, hN⟩
    · obtain rfl : done = [] := by
        have := congrArg List.length hsplit
        simp only [length_reverse, length_append, length_cons] at this
        exact length_eq_zero_iff.mp (by omega)
      have hrows : n'.entries env = n.entries env := funext fun u => G.rows_extension hch u
      refine ⟨fun u _ => congrFun hrows u, ?_⟩
      unfold Node.Tidy
      rw [hL, hrows]
      exact I.tidy
    · exact absurd (hv rest.reverse bad done.reverse hcon) hbad
    · refine ⟨fun u hu => G.rows_untouched hch (fun x hx => hU.names x ?_) hU.links hu,
        G.tidy_untouched I.tidy hD hoff hU hN⟩
      rw [← mem_reverse, hsplit, append_cons]
      exact mem_append_left _ hx
  have hfailed : ∀ h, (n'.nStatus h).failed = true → h = bad ∨ (n.nStatus h).failed = true := by
    intro h hh
    rw [← (G.frame hch).failed h]
    exact G.marked.failed h hh
  have hfr := G.frame hch
  refine ⟨G.settled I.settled hch hrows, htidy,
    G.marked.listed (I.listed.congr hfr.ledger hfr.failed hfr.candidates), by rw [hL]; exact I.work,
    fun x l hx hv => ?_⟩
  rw [hL] at hx
  have hv' : n.ValidChain env T (x :: l) := hv.congr (.of_eq hL.symm)
  rw [← Bool.not_eq_true]
  intro hf
  rcases hfailed x hf with rfl | hf
  · obtain rfl := hx.unique hch
    exact hbad ((hv' [] x _ rfl (by simp [hF])).mono hT)
  · rw [I.spared x l hx hv'] at hf
    cases hf

/-- A call for a branch that may be tried leaves the active chain and the blocks as they are, or
moves to the branch. -/
lemma Node.SafeBranch.step {f : ℕ} (hsafe : n.SafeBranch env c.now dis con (f :: l))
    (hT : T ≤ c.now) (B : n.Branches c.pindexNew dis con f l) (I : InOrder env T n (dis ++ f :: l))
    (hr : c.run env n = some (n', res)) :
    (InOrder env T n' (dis ++ f :: l) ∧ n'.ledger = n.ledger) ∨
      (dis.length ≤ (n.joinable con).length ∧ InOrder env T n' (con ++ f :: l) ∧
        Reorganised env dis con (f :: l) n n') := by
  rcases setBestChain_cases I.settled B hr with ⟨hlen, rfl, C⟩ | ⟨hlen, rfl, R⟩ |
    ⟨hlen, g, n₀, done, bad, n₁, n₂, n₃, e, rfl, C, G⟩
  · refine Or.inl ⟨⟨I.settled.congr C.same, I.tidy.congr C.same, C.listed I.listed, ?_,
      fun x l' hx hv => ?_⟩, C.same.ledger⟩
    · rw [C.same.ledger]; exact I.work
    · rw [C.same.ledger] at hx
      have hv' : n.ValidChain env T (x :: l') := hv.congr (.of_eq C.same.ledger.symm)
      rw [← Bool.not_eq_true]
      intro hf
      rcases C.failed x hf with hf | ⟨hi, z, lo, he, hxi, hz⟩
      · rw [I.spared x l' hx hv'] at hf
        cases hf
      · have hD := B.fork.right
        rw [he, append_assoc, cons_append] at hD
        exact I.not_valid hD hxi hz hx hv'
  · obtain ⟨hf, hs, -⟩ := hsafe.resolve_left (not_lt.mpr hlen)
    have hR := R (joinable_eq_reverse.mpr hf)
    exact Or.inr ⟨hlen, I.reorganised hR hs.clean, hR⟩
  · obtain ⟨hf, hs, hcase⟩ := hsafe.resolve_left (not_lt.mpr hlen)
    have hn₀ : n = n₀ := (C.eq hf).symm
    subst hn₀
    obtain ⟨rest, hsplit⟩ := G.split
    have hL := G.marked.same.ledger.trans (G.frame (B.chain_joinable hsplit)).ledger
    rw [joinable_eq_reverse.mpr hf] at G
    exact Or.inl ⟨I.givenUp hT (by simp) B.fork.right
      (fun x hx => B.fork.not_mem_left I.settled.working.tree hx) hs hcase G, hL⟩

lemma SafeCall.step (hP : SafeCall env T c n) (I : InOrder env T n A)
    (hr : c.run env n = some (n', res)) : ∃ A', InOrder env T n' A' := by
  obtain ⟨hT, dis, con, f, l, B, hsafe⟩ := hP
  obtain rfl := I.settled.eq_left B
  rcases hsafe.step hT B I hr with ⟨I', -⟩ | ⟨-, I', -⟩
  · exact ⟨_, I'⟩
  · exact ⟨_, I'⟩

lemma InOrder.mark (I : InOrder env T n A) {fuel t : ℕ} {above : List ℕ}
    (h : n.checkAncestry fuel t [] [] = some (.failed above)) :
    InOrder env T (above.foldl markFailedChild n) A := by
  have hs := Node.SameChain.foldl .markFailedChild above n
  obtain ⟨hi, z, habove, hz, ht, hch⟩ := checkAncestry_failed h
  subst habove
  refine ⟨I.settled.congr hs, I.tidy.congr hs, foldl_markFailedChild_listed I.listed _,
    by rw [hs.ledger]; exact I.work, fun x l hx hv => ?_⟩
  rw [hs.ledger] at hx
  have hv' : n.ValidChain env T (x :: l) := hv.congr (.of_eq hs.ledger.symm)
  rw [← Bool.not_eq_true, foldl_markFailedChild_failed]
  rintro (hxi | hf)
  · obtain ⟨p, hp⟩ := Option.isSome_iff_exists.mp (ht (ne_nil_of_mem hxi))
    obtain ⟨m, hm⟩ := I.settled.working.tree.exists_chain hp
    obtain ⟨lo, hlo⟩ := hch m hm
    exact I.not_valid (hlo ▸ hm) hxi hz hx hv'
  · rw [I.spared x l hx hv'] at hf
    cases hf

lemma InOrder.store (I : InOrder env T n A) (F : n.Fits env b pos) :
    InOrder env T (n.store env b pos) A := by
  have G := F.grewTo
  have hT := F.tree I.settled.working.tree I.settled.genesis
  have S := store_stores n env b pos
  refine ⟨I.settled.grow G hT, I.tidy.grow I.settled.working G, fun x hx hf => ?_, ?_,
    fun x l hx hv => ?_⟩
  · rw [S.candidates]
    rw [store_index] at hx
    rw [S.failed] at hf
    split_ifs at hx hf with he
    · exact he ▸ mem_cons_self
    · exact mem_cons_of_mem _ (I.listed x hx hf)
  · exact I.work.store I.settled.working.tree F
  · rw [S.failed]
    split_ifs with he
    · rfl
    · have hx' := F.chain_old I.settled.working.tree hx he
      exact I.spared x l hx' (hv.congr (F.grows.sameOn I.settled.working.tree hx').symm)

lemma Fresh.inOrder (F : Fresh env n) : InOrder env T n [hashGenesisBlock env] := by
  refine ⟨F.settled, F.tidy, fun x hx _ => ?_, F.workGrows, fun x l _ _ => F.failed x⟩
  obtain ⟨p, hp⟩ := Option.isSome_iff_exists.mp hx
  rw [F.candidates, F.only hp]
  exact mem_singleton_self _

lemma InOrder.adopt (I : InOrder env T n A) (cp : ℕ × ℕ) :
    InOrder env T { n with lastSoftCP := cp } A :=
  ⟨I.settled.congr ⟨rfl, rfl, rfl, rfl, rfl, rfl, rfl⟩, I.tidy, I.listed, I.work, I.spared⟩

/-- **Blocks are marked for a reason** in every run whose calls of `SetBestChain` do no harm. -/
theorem Reached.inOrder (hr : Reached env (SafeCall env T) n) : ∃ A, InOrder env T n A := by
  refine hr.invariant (X := fun n => ∃ A, InOrder env T n A) (fun n₀ h₀ => ⟨_, h₀.fresh.inOrder⟩) ?_
  rintro n₁ n₂ hstep ⟨A, I⟩
  cases hstep with
  | store hfit => exact ⟨A, I.store hfit⟩
  | mark hf => exact ⟨A, I.mark hf⟩
  | adopt cp => exact ⟨A, I.adopt cp⟩
  | switch hP hrun => exact hP.step I hrun

end Steps

end FreechCore
