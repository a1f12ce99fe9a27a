import FreechCore.Registry.Orderly

/-!
The way up to the best chain. `ConnectBestBlock` walks down from the best candidate, and
switches to the blocks with more work than the best one, lowest first: the first of these
switches changes the branch, the others extend it block by block.
-/

namespace FreechCore

open BackLink List

/-! ### The best candidate -/

variable {n : Node} {t fuel x d f : ℕ} {env : Env} {l con F lo : List ℕ}

section Candidate

variable {a b : ℕ}

lemma Node.better_asymm (h : n.better a b = true) : n.better b a = false := by
  simp only [Node.better, decide_eq_true_eq, decide_eq_false_iff_not] at h ⊢
  omega

lemma Node.better_irrefl (n : Node) (a : ℕ) : n.better a a = false := by
  simp [Node.better]

/-- The better of a candidate and the best before it. -/
@[simp]
def Node.orBetter (n : Node) (best : Option ℕ) (h : ℕ) : Option ℕ :=
  match best with
  | none => some h
  | some a => if n.better h a then some h else some a

lemma Node.bestCandidate_eq (ht : t ∈ n.setBlockIndexValid)
    (hb : ∀ x ∈ n.setBlockIndexValid, x ≠ t → n.better t x = true) : n.bestCandidate = some t := by
  unfold Node.bestCandidate
  generalize n.setBlockIndexValid = cands at ht hb
  -- what is chosen so far is the block, or worse than it
  suffices H : ∀ (best : Option ℕ), (best = some t ∨ t ∈ cands) →
      (∀ x, best = some x → x ≠ t → n.better t x = true) →
      cands.foldl n.orBetter best = some t from
    H none (Or.inr ht) (by simp)
  clear ht
  induction cands with
  | nil => simp
  | cons h cands ih =>
    intro best hbest hworse
    have hb' := fun x hx => hb x (mem_cons_of_mem _ hx)
    by_cases hh : h = t
    · subst hh
      refine ih hb' _ (Or.inl ?_) ?_ <;> cases best with
      | none => simp
      | some a =>
        by_cases ha : a = h
        · simp [ha, n.better_irrefl]
        · simp [hworse a rfl ha]
    · have hth := hb h mem_cons_self hh
      cases best with
      | none =>
        refine ih hb' _ (Or.inr ?_) fun x hx _ => Option.some.inj hx ▸ hth
        exact (mem_cons.mp (hbest.resolve_left (by simp))).resolve_left (Ne.symm hh)
      | some a =>
        by_cases ha : a = t
        · subst ha
          refine ih hb' _ (Or.inl ?_) ?_ <;> simp [n.better_asymm hth]
        · have hmem : t ∈ cands := (mem_cons.mp
            (hbest.resolve_left fun e => ha (Option.some.inj e))).resolve_left (Ne.symm hh)
          refine ih hb' _ (Or.inr hmem) fun x hx hxt => ?_
          dsimp only [Node.orBetter] at hx
          split_ifs at hx
          · exact Option.some.inj hx ▸ hth
          · exact Option.some.inj hx ▸ hworse a rfl ha

lemma Node.bestCandidate_mem (h : n.bestCandidate = some t) : t ∈ n.setBlockIndexValid := by
  suffices H : ∀ (cands : List ℕ) (best : Option ℕ), cands.foldl n.orBetter best = some t →
        best = some t ∨ t ∈ cands from
    (H _ none h).resolve_left (by simp)
  intro cands
  induction cands with
  | nil => exact fun best hb => Or.inl hb
  | cons x cands ih =>
    intro best hb
    rcases ih _ hb with hb | hb
    · cases best with
      | none => exact Or.inr (by simp at hb; simp [hb])
      | some a =>
        dsimp only [Node.orBetter] at hb
        split_ifs at hb
        · exact Or.inr (by simp at hb; simp [hb])
        · exact Or.inl hb
    · exact Or.inr (mem_cons_of_mem _ hb)

lemma Node.chainWork_le_bestCandidate (h : n.bestCandidate = some t) :
    ∀ x ∈ n.setBlockIndexValid, n.chainWork x ≤ n.chainWork t := by
  suffices H : ∀ (cands : List ℕ) (best : Option ℕ), cands.foldl n.orBetter best = some t →
        (∀ a, best = some a → n.chainWork a ≤ n.chainWork t) ∧
          ∀ x ∈ cands, n.chainWork x ≤ n.chainWork t from
    (H _ none h).2
  intro cands
  induction cands with
  | nil =>
    intro best hb
    refine ⟨fun a ha => ?_, by simp⟩
    cases ha.symm.trans hb
    exact le_rfl
  | cons x cands ih =>
    intro best hb
    obtain ⟨h1, h2⟩ := ih _ hb
    cases best with
    | none =>
      have hx := h1 x rfl
      exact ⟨by simp, by simpa using ⟨hx, h2⟩⟩
    | some a =>
      dsimp only [Node.orBetter] at h1
      suffices hxa : n.chainWork a ≤ n.chainWork t ∧ n.chainWork x ≤ n.chainWork t from
        ⟨by simpa using hxa.1, by simpa using ⟨hxa.2, h2⟩⟩
      by_cases hbetter : n.better x a = true
      · have hx := h1 x (by rw [if_pos hbetter])
        simp only [Node.better, decide_eq_true_eq] at hbetter
        omega
      · have ha := h1 a (by rw [if_neg hbetter])
        simp only [Node.better, decide_eq_true_eq] at hbetter
        omega

lemma Node.bestCandidate_eq_none (h : n.bestCandidate = none) : n.setBlockIndexValid = [] := by
  by_contra hne
  obtain ⟨x, cands, hc⟩ := exists_cons_of_ne_nil hne
  unfold Node.bestCandidate at h
  rw [hc, foldl_cons] at h
  suffices H : ∀ (cands : List ℕ) (a : ℕ), cands.foldl n.orBetter (some a) ≠ none from H cands x h
  intro cands
  induction cands with
  | nil => simp
  | cons y cands ih =>
    intro a
    rw [foldl_cons, Node.orBetter]
    split_ifs
    · exact ih y
    · exact ih a

end Candidate

/-! ### The walk down -/

section Walk

variable {A : List ℕ} {best : ℕ}

lemma Ledger.WorkGrows.chainWork_le (hw : n.ledger.WorkGrows) (hl : n.ledger.Chain (x :: l)) :
    ∀ y ∈ x :: l, n.chainWork y ≤ n.chainWork x := by
  induction l generalizing x with
  | nil => simp
  | cons q l ih =>
    intro y hy
    rcases mem_cons.mp hy with rfl | hy
    · exact le_rfl
    · refine (ih (hl.of_cons (by simp)) y hy).trans ?_
      cases hl with
      | cons hp hq hrest =>
        obtain ⟨pq, hpq⟩ := hrest.index_eq mem_cons_self
        have h := hw _ _ _ _ hp hq hpq
        replace hp : n.index x = _ := hp
        replace hpq : n.index q = _ := hpq
        simpa [Node.chainWork, hp, hpq] using h

/-- The blocks that have more work than the best one. -/
def Node.heavier (n : Node) (best : ℕ) (D : List ℕ) : List ℕ :=
  D.filter fun x => decide (n.chainWork best < n.chainWork x)

lemma heavier_eq_nil (h : ∀ x ∈ l, n.chainWork x ≤ n.chainWork best) : n.heavier best l = [] :=
  filter_eq_nil_iff.mpr fun x hx => by simpa using h x hx

/-- **The walk down a chain without failed blocks** collects the blocks with more work than
the best one. -/
lemma checkAncestry_attach (hA : n.ledger.Chain A)
    (hmain : ∀ x, n.isInMainChain x = true → x ∈ A) (hbest : n.pindexBest = some best)
    (hle : ∀ x ∈ A, n.chainWork x ≤ n.chainWork best) (hl : n.ledger.Chain (t :: l))
    (hf : ∀ x ∈ t :: l, (n.nStatus x).failed = false) (hfuel : l.length < fuel)
    (acc att : List ℕ) : n.checkAncestry fuel t acc att =
      some (.attach ((n.heavier best (t :: l)).reverse ++ att)) := by
  induction fuel generalizing t l acc att with
  | zero => omega
  | succ fuel ih =>
    have hstep : (n.heavier best (t :: l)).reverse ++ att = (n.heavier best l).reverse ++
        (if n.chainWork best < n.chainWork t then t :: att else att) := by
      unfold Node.heavier
      split_ifs with hm
      · rw [filter_cons_of_pos (by simpa using hm)]
        simp
      · rw [filter_cons_of_neg (by simpa using hm)]
    unfold Node.checkAncestry
    rw [hf t mem_cons_self, hbest]
    simp only [Bool.false_eq_true, if_false, hstep]
    cases l with
    | nil =>
      cases hl with
      | root hp hq =>
        replace hp : n.index t = _ := hp
        simp [Node.pprev, hp, hq, Node.heavier]
    | cons q l =>
      have hq : n.pprev t = some q := hl.pprev_eq
      simp only [hq]
      by_cases hm : (n.getNextInMainChain t).isSome = true
      · -- the rest of the chain is part of the main chain
        rw [if_pos hm]
        have htA : t ∈ A := by
          refine hmain t ?_
          by_contra hno
          simp [Node.getNextInMainChain, hno] at hm
        obtain ⟨a, m, he⟩ := append_of_mem htA
        have hm' : m = q :: l := ((he ▸ hA).of_append (by simp)).unique hl
        have hrest : n.heavier best (q :: l) = [] := heavier_eq_nil fun x hx => hle x (by
          rw [he, hm']
          exact mem_append_right _ (mem_cons_of_mem _ hx))
        rw [hrest]
        rfl
      · rw [if_neg hm, ih (hl.of_cons (by simp)) (fun x hx => hf x (mem_cons_of_mem _ hx))
          (by simp at hfuel; omega)]

lemma heavier_upper (hw : n.ledger.WorkGrows) (hD : n.ledger.Chain (con ++ F)) (hF : F ≠ [])
    (hle : ∀ x ∈ F, n.chainWork x ≤ n.chainWork best) :
    ∃ lo, con = n.heavier best con ++ lo ∧ n.heavier best (con ++ F) = n.heavier best con ∧
      ∀ x ∈ lo, n.chainWork x ≤ n.chainWork best := by
  have hF' : n.heavier best F = [] := heavier_eq_nil hle
  suffices H : ∃ lo, con = n.heavier best con ++ lo ∧ ∀ x ∈ lo, n.chainWork x ≤ n.chainWork best by
    obtain ⟨lo, h1, h2⟩ := H
    exact ⟨lo, h1, by rw [Node.heavier, filter_append]; exact
      (congrArg _ hF').trans (append_nil _), h2⟩
  induction con with
  | nil => exact ⟨[], rfl, by simp⟩
  | cons x con ih =>
    by_cases hx : n.chainWork best < n.chainWork x
    · obtain ⟨lo, h1, h2⟩ := ih (hD.of_cons (by simp [hF]))
      refine ⟨lo, ?_, h2⟩
      rw [Node.heavier, filter_cons_of_pos (by simpa using hx), cons_append]
      exact congrArg _ h1
    · -- no block below has more work
      have hall : ∀ y ∈ x :: con, n.chainWork y ≤ n.chainWork best := fun y hy =>
        (hw.chainWork_le hD y (mem_append_left _ hy)).trans (not_lt.mp hx)
      refine ⟨x :: con, ?_, hall⟩
      rw [heavier_eq_nil hall]
      rfl

end Walk

/-! ### The way up -/

section Up

variable {now : ℤ} {fIBD : Bool} {reconnect : Node → Option Node}
variable {n' : Node} {dis hi W : List ℕ}

lemma Node.ValidBranch.lower (h : n.ValidBranch env now (hi ++ con) F) :
    n.ValidBranch env now con F :=
  fun a x b he => h (hi ++ a) x b (by rw [he, append_assoc])

lemma Node.FairBranch.lower (h : n.FairBranch env dis (hi ++ con) F) :
    n.FairBranch env dis con F where
  clean := fun a x b he => h.clean (hi ++ a) x b (by rw [he, append_assoc])
  signers := fun a x b he => h.signers (hi ++ a) x b (by rw [he, append_assoc])
  owners := fun a x b he => h.owners (hi ++ a) x b (by rw [he, append_assoc])

lemma Node.CleanBranch.fair (h : n.CleanBranch env W W [x]) : n.FairBranch env [] [x] W := by
  have hone : ∀ {hi lo : List ℕ} {y : ℕ}, [x] = hi ++ y :: lo → lo = [] := fun {hi lo y} he => by
    have := congrArg List.length he
    simp only [length_append, length_cons, length_nil] at this
    exact length_eq_zero_iff.mp (by omega)
  refine ⟨h, fun hi y lo he _ _ _ _ _ => ?_, fun hi y lo he tx _ hR a old ha => ?_⟩
  · rw [hone he]
    rfl
  · rw [hone he, nil_append] at hR
    rw [nil_append, hR] at ha
    cases ha

lemma Node.CleanBranch.above (h : n.CleanBranch env (dis ++ F) F (hi ++ con))
    (R : Reorganised env dis con F n n') (hD : n.ledger.Chain (hi ++ (con ++ F))) :
    n'.CleanBranch env (con ++ F) (con ++ F) hi := by
  have T : n.ledger.Tree env := R.ledger ▸ R.settled.working.tree
  intro a x b he u hu hR hy
  rw [R.ledger] at hu hR hy ⊢
  rw [he, append_assoc, cons_append] at hD
  have hx : n.ledger.Chain (x :: (b ++ (con ++ F))) := hD.of_append (by simp)
  have hlt : ∀ z ∈ con ++ F, n.ledger.ht z < n.ledger.ht x := by
    intro z hz
    have := (pairwise_cons.mp (hx.pairwise_lt T)).1 z (mem_append_right _ hz)
    unfold Ledger.ht
    omega
  obtain ⟨p, hp⟩ := hx.index_eq mem_cons_self
  have hx0 := T.height_pos hp hu
  have hnil : n.ledger.history u (con ++ F) = [] := by
    rw [Ledger.history_append, append_eq_nil_iff] at hR
    exact hR.2
  have hunder : n'.under env (con ++ F) u = n.under env (dis ++ F) u := by
    rw [← R.newest u hnil, Node.under, R.ledger, hnil]
    rfl
  rw [R.keys u _ (by omega) fun z hz => ?_]
  · refine h a x (b ++ con) (by rw [he]; simp) u hu (by simpa using hR) fun y hyu => ?_
    rcases hy y (hunder.trans hyu) with rfl | ⟨hyA, hlt'⟩
    · exact Or.inl rfl
    · have := hlt y hyA
      omega
  · have := hlt z (mem_append_left _ hz)
    omega

/-- **Block by block on top of the active chain**: blocks in order that find no stale key are
all connected. -/
lemma switchAll_up {up : List ℕ} (S : Settled env n W) (ht : n.Tidy env W W)
    (hD : n.ledger.Chain (up.reverse ++ W)) (hf : ∀ h ∈ up, (n.nStatus h).failed = false)
    (hc : n.CleanBranch env W W up.reverse) (hv : n.ValidBranch env now up.reverse W)
    (hfuel : (up.reverse ++ W).length + 1 < fuel) :
    ∃ n', switchAll (setBestChain env fuel now fIBD reconnect) n up = some (n', .ok ()) ∧
      Settled env n' (up.reverse ++ W) ∧ ∀ h, (n'.nStatus h).failed = (n.nStatus h).failed := by
  induction up generalizing n W with
  | nil => exact ⟨n, rfl, S, fun _ => rfl⟩
  | cons x up ih =>
    rw [reverse_cons] at hD hc hv hfuel ⊢
    have hD' : n.ledger.Chain (up.reverse ++ ([x] ++ W)) := by simpa using hD
    obtain ⟨f, l, rfl⟩ := exists_cons_of_ne_nil S.working.chainA.ne_nil
    have B : n.Branches x [] [x] f l := .extension (hD'.of_append (by simp)) S.coins
    have hc₁ : n.CleanBranch env (f :: l) (f :: l) [x] := fun a y b he =>
      hc (up.reverse ++ a) y b (by rw [he, append_assoc])
    obtain ⟨n₁, hsw, R⟩ : ∃ n₁, setBestChain env fuel now fIBD reconnect n x = some (n₁, .ok ()) ∧
        Reorganised env [] [x] (f :: l) n n₁ :=
      setBestChain_safe S ht B (by simpa using hf x mem_cons_self) (by simp) hc₁.fair hv.lower
        (by simp at hfuel ⊢; omega)
    have hv₁ : n₁.ValidBranch env now up.reverse ([x] ++ f :: l) := fun a y b he => by
      have := hv a y (b ++ [x]) (by rw [he]; simp)
      rw [append_assoc] at this
      exact this.congr (.of_eq R.ledger)
    obtain ⟨n₂, hrest, S₂, hf₂⟩ := ih R.settled (R.tidy ht hc₁) (R.ledger ▸ hD')
      (fun h hh => by rw [R.failed]; exact hf h (mem_cons_of_mem _ hh)) (hc.above R hD') hv₁
      (by simpa using hfuel)
    refine ⟨n₂, ?_, by simpa using S₂, fun h => (hf₂ h).trans (R.failed h)⟩
    unfold switchAll
    simp only [hsw]
    exact hrest

lemma Node.Branches.lower (B : n.Branches t dis (hi ++ d :: lo) f l) :
    n.Branches d dis (d :: lo) f l := by
  have hD := B.fork.right
  rw [append_assoc] at hD
  exact ⟨⟨B.fork.left, hD.of_append (by simp),
    fun x hx => B.fork.disjoint x (mem_append_right _ hx)⟩, B.tip, rfl⟩

/-- **A change of the branch and then block by block**: a branch in order is joined, once for
its lower part and then for each block above. -/
lemma switchAll_joins (S : Settled env n (dis ++ f :: l))
    (ht : n.Tidy env (dis ++ f :: l) (dis ++ f :: l)) (B : n.Branches t dis (hi ++ d :: lo) f l)
    (hf : ∀ h ∈ hi ++ d :: lo, (n.nStatus h).failed = false) (hlen : dis.length ≤ lo.length + 1)
    (hs : n.FairBranch env dis (hi ++ d :: lo) (f :: l))
    (hv : n.ValidBranch env now (hi ++ d :: lo) (f :: l))
    (hfuel : (hi ++ d :: lo ++ f :: l).length + 1 < fuel) :
    ∃ n', switchAll (setBestChain env fuel now fIBD reconnect) n (d :: hi.reverse) =
        some (n', .ok ()) ∧ Settled env n' (hi ++ d :: lo ++ f :: l) ∧
      ∀ h, (n'.nStatus h).failed = (n.nStatus h).failed := by
  obtain ⟨n₁, hsw, R⟩ : ∃ n₁, setBestChain env fuel now fIBD reconnect n d = some (n₁, .ok ()) ∧
      Reorganised env dis (d :: lo) (f :: l) n n₁ :=
    setBestChain_safe S ht B.lower (fun h hh => hf h (mem_append_right _ hh)) hlen hs.lower
      hv.lower (by simp at hfuel ⊢; omega)
  have hD : n.ledger.Chain (hi ++ (d :: lo ++ f :: l)) := by
    rw [← append_assoc]
    exact B.fork.right
  have hv₁ : n₁.ValidBranch env now hi (d :: lo ++ f :: l) := fun a y b he => by
    have := hv a y (b ++ d :: lo) (by rw [he]; simp)
    rw [append_assoc] at this
    exact this.congr (.of_eq R.ledger)
  obtain ⟨n₂, hrest, S₂, hf₂⟩ : ∃ n₂, switchAll (setBestChain env fuel now fIBD reconnect) n₁
      hi.reverse = some (n₂, .ok ()) ∧ Settled env n₂ (hi.reverse.reverse ++ (d :: lo ++ f :: l)) ∧
        ∀ h, (n₂.nStatus h).failed = (n₁.nStatus h).failed :=
    switchAll_up R.settled (R.tidy ht hs.lower.clean)
      (by rw [reverse_reverse, R.ledger]; exact hD)
      (fun h hh => by
        rw [R.failed]
        exact hf h (mem_append_left _ (mem_reverse.mp hh)))
      (by rw [reverse_reverse]; exact hs.clean.above R hD)
      (by rw [reverse_reverse]; exact hv₁) (by simp at hfuel ⊢; omega)
  refine ⟨n₂, ?_, by simpa using S₂, fun h => (hf₂ h).trans (R.failed h)⟩
  unfold switchAll
  simp only [hsw]
  exact hrest

/-- The chain of `t` is the best one the node knows of. -/
structure Node.Leads (n : Node) (t : ℕ) : Prop where
  candidates : ∀ x ∈ n.setBlockIndexValid, x ≠ t → n.better t x = true
  more : ∀ best, n.pindexBest = some best → n.chainWork best < n.chainWork t

/-- **The node moves to the best chain**, if that is in order and no lookup is misled on the
way. The part of the branch up to the first block with more work than the best one must not
be shorter than the branch it replaces. -/
theorem connectBestBlock_joins {T : ℤ} {rounds : ℕ} (I : InOrder env T n (dis ++ f :: l))
    (B : n.Branches t dis con f l) (hlead : n.Leads t) (hv : n.ValidChain env T (con ++ f :: l))
    (hfair : n.FairBranch env dis con (f :: l))
    (hlong : ∀ a d b, con = a ++ d :: b → (∀ best, n.pindexBest = some best →
      n.chainWork best < n.chainWork d) → dis.length ≤ b.length + 1) (hT : T ≤ now)
    (hfuel : (con ++ f :: l).length + 1 < fuel) :
    ∃ n', connectBestBlock env fuel now fIBD (rounds + 1) n = some (n', .ok ()) ∧
      n'.Active (con ++ f :: l) ∧ ∀ x, (n'.nStatus x).failed = (n.nStatus x).failed := by
  have S := I.settled
  obtain ⟨best, hbest⟩ : ∃ best, n.pindexBest = some best := by
    rw [S.best]
    cases dis <;> exact ⟨_, rfl⟩
  have hA := S.working.chainA
  have hle : ∀ x ∈ dis ++ f :: l, n.chainWork x ≤ n.chainWork best := by
    obtain ⟨m, hm⟩ := List.head?_eq_some_iff.mp (S.best.symm.trans hbest)
    rw [hm] at hA ⊢
    exact I.work.chainWork_le hA
  have hD := B.fork.right
  have hf : ∀ x ∈ con ++ f :: l, (n.nStatus x).failed = false := by
    intro x hx
    obtain ⟨a, b, hab⟩ := append_of_mem hx
    rw [hab] at hD hv
    exact I.spared x b (hD.of_append (by simp)) hv.lower
  obtain ⟨m, hm⟩ := List.head?_eq_some_iff.mp B.target
  obtain ⟨p, hp⟩ := hD.index_eq (by rw [hm]; exact mem_cons_self)
  have hcand : n.bestCandidate = some t := Node.bestCandidate_eq
    (I.listed t (Option.isSome_iff_exists.mpr ⟨p, hp⟩) (hf t (by rw [hm]; exact mem_cons_self)))
    hlead.candidates
  have hmore := hlead.more best hbest
  have hwalk : n.checkAncestry (n.heightOf t + 1) t [] [] =
      some (.attach (n.heavier best (con ++ f :: l)).reverse) := by
    have := head?_height S.working.tree hD B.target
    rw [hm] at hD hf this ⊢
    rw [checkAncestry_attach S.working.chainA (fun _ => S.working.isInMainChain_iff.mp) hbest hle hD
      hf (by simp at this; omega), append_nil]
  obtain ⟨lo, hcon, hheavy, -⟩ := heavier_upper I.work hD (by simp)
    (fun x hx => hle x (mem_append_right _ hx))
  have hne : n.heavier best con ≠ [] := by
    rw [← hheavy]
    refine ne_nil_of_mem (mem_filter.mpr ⟨?_, decide_eq_true hmore⟩)
    rw [hm]
    exact mem_cons_self
  -- the lowest block with more work than the best one
  obtain ⟨hi, d, hup⟩ : ∃ hi d, n.heavier best con = hi ++ [d] :=
    ⟨_, _, (dropLast_append_getLast hne).symm⟩
  have hd : n.chainWork best < n.chainWork d := by
    have : d ∈ n.heavier best con := by rw [hup]; simp
    exact of_decide_eq_true (mem_filter.mp this).2
  have hcon' : con = hi ++ d :: lo := by
    rw [hcon, hup, append_assoc]
    rfl
  rw [hheavy, hup, reverse_append, reverse_singleton, singleton_append] at hwalk
  have hlen := hlong hi d lo hcon' fun best' hb' => by
    cases hbest.symm.trans hb'
    exact hd
  rw [hcon'] at B hf hfair hv hfuel ⊢
  obtain ⟨n', hsw, S', hf'⟩ := switchAll_joins S I.tidy B
    (fun h hh => hf h (mem_append_left _ hh)) hlen hfair (hv.branch (by simp) hT) hfuel
  refine ⟨n', ?_, S'.active, hf'⟩
  have hno : ¬ (n.pindexBest = some t ∨ n.pindexBest.map n.chainWork = some (n.chainWork t)) := by
    rw [hbest]
    rintro (h | h)
    · cases h
      exact lt_irrefl _ hmore
    · exact hmore.ne (Option.some.inj h)
  simp only [connectBestBlock, hcand, if_neg hno, hwalk]
  exact hsw

end Up

end FreechCore
