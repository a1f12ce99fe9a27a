import FreechCore.Chain.TreeReload
import FreechCore.Registry.Returns

/-!
Whether `ConnectBestBlock` ends, and where. Each round either gives up the best candidate because an
ancestor of it has failed, so that there are fewer candidates in the next round, or switches to the
blocks of its chain that have more work than the best one. The first switch may change the branch,
the others extend it. A failed switch never calls `ConnectBestBlock` again, since the block that
failed is not in the vector. What may not end is a lookup in `ConnectBlock`, which is why the keys
of the index have to lead down.
-/

namespace FreechCore

open BackLink Relation List

variable {con : List ℕ} {m : Node}

/-- A node between two calls, with the active chain `A`. -/
structure Standing (env : Env) (n : Node) (A : List ℕ) : Prop where
  aligned : Aligned env n A
  tracked : n.Tracked
  indexed : n.Indexed env

section

variable {env : Env} {fuel rounds : ℕ} {now : ℤ} {fIBD : Bool} {n n' : Node} {A : List ℕ}

section Standing

variable {res : Check}

lemma Started.standing (h : Started env n) : Standing env n [hashGenesisBlock env] :=
  ⟨h.fresh.aligned, h.tracked, h.fresh.settled.working.tree, h.fresh.settled.working.sound⟩

lemma Standing.store (K : Standing env n A) {b : CBlock} {pos : CDiskBlockPos}
    (hfit : n.Fits env b pos) : Standing env (n.store env b pos) A := by
  have S := K.aligned.store hfit
  refine ⟨S, K.tracked.store env b pos, S.tree, ?_⟩
  rw [hfit.grewTo.txIndex]
  exact hfit.grows.sound K.indexed.tree K.indexed.sound

lemma Standing.connectBestBlock (K : Standing env n A)
    (h : connectBestBlock env fuel now fIBD rounds n = some (n', res)) :
    ∃ A', Standing env n' A' := by
  obtain ⟨A', S', -⟩ := K.aligned.connectBestBlock h
  exact ⟨A', S', (Node.Tracked.across env).connectBestBlock h K.tracked,
    (Node.Indexed.across env).connectBestBlock h K.indexed⟩

lemma Move.standing {C F : Node → Prop} (hm : Move env C F n n')
    (hF : ∀ m, F m → m.SoftCPUnfailed) (K : Standing env n A) : ∃ A', Standing env n' A' := by
  obtain ⟨A', S'⟩ := hm.aligned hF K.aligned
  cases hm with
  | store hfit => exact ⟨A, K.store hfit⟩
  | connect _ h => exact K.connectBestBlock h
  | adopt cp =>
    obtain ⟨h1, h2, h3⟩ := K.tracked
    exact ⟨A', S', ⟨h1, h2, h3⟩, K.indexed.tree, K.indexed.sound⟩
  | follow hf h =>
    exact ⟨A', S', (Node.Tracked.across env).setSoftCPBestChain h K.tracked,
      (Node.Indexed.across env).setSoftCPBestChain h K.indexed⟩

lemma MovedTo.standing {C F : Node → Prop} (hF : ∀ m, F m → m.SoftCPUnfailed)
    (hr : MovedTo env C F n) : ∃ A, Standing env n A :=
  hr.invariant (X := fun n => ∃ A, Standing env n A) (fun _ hn => ⟨_, hn.standing⟩)
    fun _ _ hm ⟨_, K⟩ => hm.standing hF K

lemma Standing.mem_candidates (K : Standing env n A) {h : ℕ} (hh : h ∈ A) :
    h ∈ n.setBlockIndexValid := by
  obtain ⟨p, hp⟩ := K.aligned.chain.index_eq hh
  exact (K.tracked.candidates h).mpr ⟨Option.isSome_iff_exists.mpr ⟨p, hp⟩, K.aligned.unfailed h hh⟩

lemma Standing.give_up (K : Standing env n A) {t : ℕ} {l above : List ℕ}
    (hbest : n.bestCandidate = some t) (hl : n.ledger.Chain (t :: l))
    (hf : n.checkAncestry fuel t [] [] = some (.failed above)) :
    Standing env (above.foldl markFailedChild n) A ∧
      (above.foldl markFailedChild n).setBlockIndexValid.length < n.setBlockIndexValid.length := by
  obtain ⟨p, hp⟩ := hl.index_eq mem_cons_self
  have htv := Node.bestCandidate_mem hbest
  have hta : t ∈ above := by
    obtain ⟨_, z, rfl, hz, -, hch⟩ := checkAncestry_failed hf
    obtain ⟨lo, hlo⟩ := hch l hl
    cases above with
    | nil =>
      -- a candidate has not failed itself
      cases hlo
      rw [((K.tracked.candidates t).mp htv).2] at hz
      cases hz
    | cons y above =>
      cases hlo
      exact mem_cons_self
  refine ⟨⟨(K.aligned.mark_above hp hf).1,
    (Node.Tracked.across env).foldl_markFailedChild above n K.tracked,
    (Node.Indexed.across env).foldl_markFailedChild above n K.indexed⟩, ?_⟩
  rw [foldl_markFailedChild_candidates]
  exact length_filter_lt_length_iff_exists.mpr ⟨t, htv, by simpa using hta⟩

end Standing

/-! ### Where it ends -/

/-- The best block is a candidate, and no candidate without failed ancestors has more work. -/
def Node.AtBest (n : Node) : Prop :=
  n.setBlockIndexValid = [] ∨ ∃ best, n.pindexBest = some best ∧ best ∈ n.setBlockIndexValid ∧
    ∀ h ∈ n.setBlockIndexValid,
      (∀ l, n.ledger.Chain (h :: l) → ∀ x ∈ l, (n.nStatus x).failed = false) →
        n.chainWork h ≤ n.chainWork best

lemma candidates_across (env : Env) :
    Across env fun n n' => ∀ h ∈ n'.setBlockIndexValid, h ∈ n.setBlockIndexValid where
  refl := fun _ _ => id
  trans := fun h h' x hx => h x (h' x hx)
  disconnect := fun hd x hx => by
    rw [(disconnectBlock_indexOnly hd).frame.candidates] at hx
    exact hx
  connect := fun _ _ hc x hx => by
    rw [(connectBlock_frame hc).candidates] at hx
    exact hx
  child := fun n h x hx => by
    simp only [markFailedChild, Node.eraseValid, Node.writeBlockIndex_setBlockIndexValid,
      mem_filter] at hx
    exact hx.1
  valid := fun n h x hx => by
    simp only [markFailedValid, Node.eraseValid, Node.writeBlockIndex_setBlockIndexValid,
      mem_filter] at hx
    exact hx.1
  switch := fun hs x hx => by
    rw [switchTo_eq hs] at hx
    exact hx

lemma chainWork_congr (hL : n'.ledger = n.ledger) : n'.chainWork = n.chainWork := by
  funext h
  unfold Node.chainWork
  rw [Node.index_congr hL]

lemma Standing.atBest (K : Standing env n A) {best : ℕ} (hb : n.pindexBest = some best)
    (hmax : ∀ h ∈ n.setBlockIndexValid, n.chainWork h ≤ n.chainWork best) : n.AtBest := by
  have hA : best ∈ A := mem_of_mem_head? (K.aligned.best.symm.trans hb)
  exact Or.inr ⟨best, hb, K.mem_candidates hA, fun h hh _ => hmax h hh⟩

/-- **When `ConnectBestBlock` succeeds**, no candidate has more work than the best block. -/
theorem Standing.connectBestBlock_atBest (K : Standing env n A)
    (h : FreechCore.connectBestBlock env fuel now fIBD rounds n = some (n', .ok ())) : n'.AtBest := by
  induction rounds generalizing n with
  | zero => cases h
  | succ rounds ih =>
    have S := K.aligned
    rcases S.connectBestBlock_round fuel rounds now fIBD with ⟨he, hdone⟩ |
      ⟨t, l, hbest, hl, ⟨above, hf, he⟩ | ⟨best, hb, hne, hun, he⟩⟩
    · rw [he] at h
      cases h
      cases hbest : n'.bestCandidate with
      | none => exact Or.inl (Node.bestCandidate_eq_none hbest)
      | some t =>
        obtain ⟨best, hb, hw⟩ := Option.map_eq_some_iff.mp (hdone t hbest)
        exact K.atBest hb fun x hx => hw ▸ Node.chainWork_le_bestCandidate hbest x hx
    · rw [he] at h
      exact ih (K.give_up hbest hl hf).1 h
    · have hmax := Node.chainWork_le_bestCandidate hbest
      have hlt : n.chainWork best < n.chainWork t :=
        lt_of_le_of_ne (hmax best (K.mem_candidates
          (mem_of_mem_head? (S.best.symm.trans hb)))) hne
      obtain ⟨A', K'⟩ := K.connectBestBlock h
      have hcand := (candidates_across env).connectBestBlock h
      have hwork := chainWork_congr (connectBestBlock_sameTree h).ledger
      rw [he] at h
      obtain ⟨A'', S', -, hlast⟩ := S.switchAll hl hun
        (fun m m' hm => (Node.SameTree.across env).reconnected hm)
        (fun x hx => by simpa [Node.heavier] using (mem_filter.mp (mem_reverse.mp hx)).1) h
      -- the last block that is switched to is the best candidate
      have htip : n'.pindexBest = some t := by
        rw [S'.best, hlast rfl, List.getLast?_reverse, Node.heavier,
          filter_cons_of_pos (by simpa using hlt)]
        rfl
      exact K'.atBest htip fun x hx => by rw [hwork]; exact hmax x (hcand x hx)

/-! ### That it ends -/

section Ends

variable {T : ℕ} {reconnect : Node → Option Node}
variable {l up : List ℕ} {t f : ℕ}

lemma Aligned.ht_le (S : Aligned env n A) {y : ℕ} (hy : n.isInMainChain y = true) :
    n.ledger.ht y ≤ n.nBestHeight := by
  have := S.chain.height_lt_length S.tree (S.isInMainChain_iff.mp hy)
  rw [S.height]
  unfold Ledger.ht
  omega

lemma switchTo_ends {view : Option ℕ} {v w : List CTransaction}
    (h : ∃ m, resurrect env fuel ((n.flushView view fIBD).registerBestChain t con) v = some m) :
    ∃ m, switchTo env fuel fIBD n view t con v w = some m := by
  obtain ⟨m, hm⟩ := h
  unfold switchTo
  simp only [hm]
  exact ⟨_, rfl⟩

/-- **One switch ends**: on top of the active chain in any case, to another branch if the keys of
the index lead down. -/
theorem Standing.reorganise_ends {dis F : List ℕ} (K : Standing env n (dis ++ F)) (hF : F ≠ [])
    (hD : n.ledger.Chain (con ++ F)) (hoff : ∀ x ∈ con, x ∉ dis ++ F)
    (hdown : dis ≠ [] → n.Downward env) (hT : n.Under T) (hfuel : T + 1 < fuel) :
    ∃ r, reorganise env fuel now fIBD reconnect n t dis con.reverse = some r := by
  have S := K.aligned
  obtain ⟨n₁, v, hdis⟩ := S.undoable.disconnectAll S.tree hF S.chain fun x hx =>
    mem_append_left _ hx
  have hfr := (disconnectAll_indexOnly hdis).frame
  have S₁ := S.frame hfr (S.undoable.congr hfr.ledger (disconnectAll_indexOnly hdis).undo)
  have I₁ := (Node.Indexed.across env).disconnectAll hdis K.indexed
  have hdown₁ : dis ≠ [] → n₁.Downward env := fun hne => disconnectAll_downward hdis (hdown hne)
  have hup : n₁.ledger.Chain (con.reverse.reverse ++ F) := by
    rw [hfr.ledger, reverse_reverse]
    exact hD
  have P : n₁.Passable env F.length := by
    by_cases hne : dis = []
    · -- the block is above the vector
      intro hle
      rw [S₁.height, hne, nil_append] at hle
      omega
    · exact (hdown₁ hne).passable _
  obtain ⟨⟨n₂, view₂, res⟩, hcon⟩ : ∃ r, connectAll env fuel now n₁ F.head? con.reverse = some r :=
    connectAll_ends P I₁ (fun _ => S₁.ht_le)
      (by unfold Node.Under; rw [Node.index_congr hfr.ledger]; exact hT) hfuel hF hup
      fun y hy => S₁.isInMainChain_eq_false (hoff y (mem_reverse.mp hy))
  have hfr₂ := connectAll_frame hcon
  unfold reorganise
  rw [S.coins, hdis]
  dsimp only
  rw [hcon]
  cases res with
  | error e =>
    obtain ⟨bad, e⟩ := e
    obtain ⟨-, hbad, -⟩ := S₁.undoable.connectAll_error S₁.tree hF hup hcon
    have hb : n₂.isInMainChain bad = false := by
      rw [isInMainChain_congr hfr₂.ledger hfr₂.vec]
      exact S₁.isInMainChain_eq_false (hoff bad (mem_reverse.mp hbad))
    dsimp only
    rw [invalidBlockFound_off hb]
    split_ifs <;> exact ⟨_, rfl⟩
  | ok w =>
    dsimp only
    obtain ⟨m, hm⟩ : ∃ m, switchTo env fuel fIBD n₂ view₂ t con.reverse v w = some m := by
      refine switchTo_ends ?_
      by_cases hne : dis = []
      · subst hne
        cases hdis
        exact ⟨_, rfl⟩
      · obtain ⟨I₂, hkeys⟩ := connectAll_upward ((hdown₁ hne).upward _) I₁ hF hup hcon
        have hT₂ : n₂.Under T := by
          unfold Node.Under
          rw [Node.index_congr (hfr₂.ledger.trans hfr.ledger)]
          exact hT
        have hans : Node.Responds ((n₂.flushView view₂ fIBD).registerBestChain t con.reverse) env
            fuel (-1) := by
          refine Node.LeadsDown.responds (fun u _ _ _ _ => ?_) ⟨I₂.tree, I₂.sound⟩ hT₂ hfuel
          exact (hkeys u).mono (fun _ _ _ => id) fun _ hz => hz.2
        exact resurrect_ends hans v
    rw [hm]
    exact ⟨_, rfl⟩

theorem Standing.setBestChain_ends {dis : List ℕ} (K : Standing env n (dis ++ f :: l))
    (B : n.Branches t dis con f l) (hun : ∀ x ∈ con, (n.nStatus x).failed = false)
    (hoff : ∀ x ∈ con, x ∉ dis ++ f :: l) (hdown : dis ≠ [] → n.Downward env) (hT : n.Under T)
    (hfuel : T + 1 < fuel) :
    ∃ r, setBestChain env fuel now fIBD reconnect n t = some r := by
  rw [setBestChain_eq_of_unfailed K.aligned.tree B hun]
  split_ifs
  · exact ⟨_, rfl⟩
  · exact K.reorganise_ends (by simp) B.fork.right hoff hdown hT hfuel

lemma Ledger.Chain.pairwise_below {L : Ledger} {D : List ℕ} (hD : L.Chain D) :
    D.Pairwise fun y x => ∀ m, L.Chain (y :: m) → x ∈ m := by
  induction hD with
  | root _ _ => exact pairwise_singleton _ _
  | cons hp hq hrest ih =>
    refine pairwise_cons.mpr ⟨fun x hx m hm => ?_, ih⟩
    rw [← (Ledger.Chain.cons hp hq hrest).unique hm]
    exact hx

/-- **Switching to blocks of one chain, lowest first**: the first switch may change the branch, the
others extend it. -/
lemma Standing.switchAll_ends (K : Standing env n A) (hl : n.ledger.Chain (t :: l))
    (hun : ∀ x ∈ t :: l, (n.nStatus x).failed = false) (hsub : ∀ x ∈ up, x ∈ t :: l)
    (hord : up.Pairwise fun x y => ∀ m, n.ledger.Chain (y :: m) → x ∈ m)
    (hext : n.Downward env ∨ ∀ x ∈ up, ∀ m, n.ledger.Chain (x :: m) → A <:+ x :: m)
    (hT : n.Under T) (hfuel : T + 1 < fuel) :
    ∃ r, switchAll (setBestChain env fuel now fIBD fun n =>
      (FreechCore.connectBestBlock env fuel now fIBD rounds n).map Prod.fst) n up = some r := by
  induction up generalizing n A with
  | nil => exact ⟨_, rfl⟩
  | cons x up ih =>
    have S := K.aligned
    obtain ⟨c, m, hcm⟩ := append_of_mem (hsub x mem_cons_self)
    have hx : n.ledger.Chain (x :: m) := (hcm ▸ hl).of_append (by simp)
    have hunx : ∀ y ∈ x :: m, (n.nStatus y).failed = false := fun y hy =>
      hun y (by rw [hcm]; exact mem_append_right _ hy)
    obtain ⟨⟨n₁, res⟩, hr⟩ : ∃ r, setBestChain env fuel now fIBD (fun n =>
        (FreechCore.connectBestBlock env fuel now fIBD rounds n).map Prod.fst) n x = some r := by
      rcases hext with hdown | hext
      · obtain ⟨dis, con, f, l, rfl, hD, F, hoff⟩ := S.tree.exists_fork S.chain hx
        refine K.setBestChain_ends ⟨F, S.coins, by rw [← hD]; rfl⟩ (fun y hy => hunx y ?_) hoff
          (fun _ => hdown) hT hfuel
        rw [hD]
        exact mem_append_left _ hy
      · obtain ⟨con, hcon⟩ := hext x mem_cons_self m hx
        obtain ⟨f, l, rfl⟩ := exists_cons_of_ne_nil S.chain.ne_nil
        have K₀ : Standing env n ([] ++ f :: l) := K
        rw [← hcon] at hx hunx
        refine K₀.setBestChain_ends ⟨⟨S.chain, hx, by simp⟩, S.coins, by rw [hcon]; rfl⟩
          (fun y hy => hunx y (mem_append_left _ hy)) (fun y hy hyA => ?_)
          (fun hno => absurd rfl hno) hT hfuel
        exact (nodup_append.mp (hx.nodup S.tree)).2.2 y hy y hyA rfl
    unfold switchAll
    rw [hr]
    cases res with
    | error e => exact ⟨_, rfl⟩
    | ok u =>
      rcases S.setBestChain hx hunx hr with ⟨-, S₁, hst⟩ | ⟨hno, -, -⟩
      · have hL := ((Node.SameTree.across env).setBestChain
          (fun m m' hm => (Node.SameTree.across env).reconnected hm) hr).ledger
        have K₁ : Standing env n₁ (x :: m) := ⟨S₁,
          (Node.Tracked.across env).setBestChain
            (fun m m' hm => (Node.Tracked.across env).reconnected hm) hr K.tracked,
          (Node.Indexed.across env).setBestChain
            (fun m m' hm => (Node.Indexed.across env).reconnected hm) hr K.indexed⟩
        obtain ⟨hfirst, hrest⟩ := pairwise_cons.mp hord
        refine ih K₁ (by rw [hL]; exact hl) (fun y hy => (hst y).trans (hun y hy))
          (fun y hy => hsub y (mem_cons_of_mem _ hy)) (by rw [hL]; exact hrest)
          (Or.inr fun y hy m' hm' => ?_)
          (by unfold Node.Under; rw [Node.index_congr hL]; exact hT)
        rw [hL] at hm'
        obtain ⟨a, b, rfl⟩ := append_of_mem (hfirst y hy m' hm')
        have hb : n.ledger.Chain (x :: b) := Ledger.Chain.of_append (l := y :: a) hm' (by simp)
        rw [hx.unique hb]
        exact ⟨y :: a, rfl⟩
      · exact absurd rfl hno

/-- **`ConnectBestBlock` ends** if the keys of the index lead down. -/
theorem Standing.connectBestBlock_ends (K : Standing env n A) (hdown : n.Downward env)
    (hT : n.Under T) (hfuel : T + 1 < fuel) (hrounds : n.setBlockIndexValid.length < rounds) :
    ∃ r, FreechCore.connectBestBlock env fuel now fIBD rounds n = some r := by
  induction rounds generalizing n with
  | zero => omega
  | succ rounds ih =>
    rcases K.aligned.connectBestBlock_round fuel rounds now fIBD with ⟨he, -⟩ |
      ⟨t, l, hbest, hl, ⟨above, hf, he⟩ | ⟨best, hb, -, hun, he⟩⟩
    · exact ⟨_, he⟩
    · -- there is one candidate less
      rw [he]
      obtain ⟨K₁, hless⟩ := K.give_up hbest hl hf
      have hs : n.SameChain (above.foldl markFailedChild n) := .foldl .markFailedChild _ _
      refine ih K₁ (hdown.congr hs.ledger hs.vec hs.height ?_ ?_) ?_ (by omega)
      · rw [hs.txIndex]
        exact fun _ _ _ => rfl
      · rw [hs.txIndex]
        exact fun _ k _ hpos => ⟨k, hpos⟩
      · unfold Node.Under
        rw [Node.index_congr hs.ledger]
        exact hT
    · rw [he]
      refine K.switchAll_ends hl hun (fun x hx => ?_) ?_ (Or.inl hdown) hT hfuel
      · exact (mem_filter.mp (mem_reverse.mp hx)).1
      · rw [pairwise_reverse]
        exact hl.pairwise_below.filter _

end Ends

/-- **`ConnectBestBlock` ends, and at the best candidate**: in every state that a run reaches in
which `SetSoftCPBestChain` is called only while neither the block of the soft checkpoint nor an
ancestor of it has failed, whenever it returns true the best block has the greatest work of all
candidates; and it does return if the keys of the index lead down. -/
theorem connectBestBlock_terminates {env : Env} {n : Node}
    (hr : MovedTo env (fun _ => True) Node.SoftCPUnfailed n) (now : ℤ) (fIBD : Bool) :
    (n.Downward env → ∃ bound, ∀ fuel rounds, bound ≤ fuel → bound ≤ rounds →
        ∃ n' res, connectBestBlock env fuel now fIBD rounds n = some (n', res)) ∧
      ∀ fuel rounds n', connectBestBlock env fuel now fIBD rounds n = some (n', .ok ()) →
        n'.AtBest := by
  obtain ⟨A, K⟩ := hr.standing fun _ => id
  refine ⟨fun hdown => ?_, fun fuel rounds n' h => K.connectBestBlock_atBest h⟩
  obtain ⟨T, hT⟩ := exists_under n
  refine ⟨T + 2 + n.setBlockIndexValid.length, fun fuel rounds hfuel hrounds => ?_⟩
  obtain ⟨⟨n', res⟩, h⟩ : ∃ r, connectBestBlock env fuel now fIBD rounds n = some r :=
    K.connectBestBlock_ends hdown hT (by omega) (by omega)
  exact ⟨n', res, h⟩

end

namespace Toy

/-- What the index has to lead to, block by block. -/
def downCheck (E : Env) (n : Node) : Bool :=
  n.mapBlockIndex.keys.all fun y => (n.ledger.registrations y).all fun tx =>
    decide (n.ledger.ht y ≤ n.nBestHeight) && (List.range (n.ledger.heightOf y)).all fun k =>
      !n.isInMainChain y || decide (n.entries E tx.getUsername k ≠ some y)

lemma downward_of_check {E : Env} {n : Node} (I : n.Indexed E) (h : downCheck E n = true) :
    n.Downward E := by
  simp only [downCheck, all_eq_true, Bool.and_eq_true, decide_eq_true_eq, Bool.or_eq_true,
    Bool.not_eq_true', mem_range] at h
  -- what an entry leads to is a block of the tree that registers the name
  have hreg : ∀ u k y, n.entries E u k = some y →
      ∃ tx ∈ n.ledger.registrations y, tx.getUsername = u ∧ n.ledger.ht y ≤ n.nBestHeight ∧
        ∀ k < n.ledger.heightOf y, n.isInMainChain y = false ∨
          n.entries E tx.getUsername k ≠ some y := by
    intro u k y hy
    obtain ⟨⟨p, hp⟩, hr⟩ := I.sound.registers hy
    obtain ⟨tx, htx, hu⟩ := List.find?_isSome.mp hr
    obtain ⟨h1, h2⟩ := h y (StdMap.mem_keys_iff.mpr (Option.isSome_iff_exists.mpr ⟨p, hp⟩)) tx htx
    exact ⟨tx, htx, by simpa using hu, h1, h2⟩
  constructor
  · intro u k y hk hy hm
    obtain ⟨tx, -, rfl, -, hkeys⟩ := hreg u k y hy
    by_contra hlt
    obtain ⟨j, rfl⟩ := Int.eq_ofNat_of_zero_le hk
    rcases hkeys j (by unfold Ledger.ht at hlt; omega) with hno | hno
    · rw [hm] at hno
      cases hno
    · exact hno hy
  · intro u k y hy
    obtain ⟨_, -, -, hle, -⟩ := hreg u k y hy
    exact hle

def longerBranch : List MoveAct :=
  [.store (cpBlock 14 13 2 spam []), .connect, .store (cpBlock 13 1 1 spam [register alice key1]),
    .connect, .store (cpBlock 2 1 1 spam [register alice key1])]

end Toy

open Toy in
/-- A node that moves to a longer branch. -/
theorem connectBestBlock_longerBranch :
    ∃ n, MovedTo cpEnv (fun _ => True) Node.SoftCPUnfailed n ∧ n.pindexBest = some 2 ∧
      n.Downward cpEnv ∧ (∃ bound, ∀ fuel rounds, bound ≤ fuel → bound ≤ rounds →
        ∃ n' res, connectBestBlock cpEnv fuel 10000000 false rounds n = some (n', res)) ∧
      ∃ n', connectBestBlock cpEnv 20 10000000 false 20 n = some (n', .ok ()) ∧
        n'.pindexBest = some 14 ∧ n'.AtBest := by
  obtain ⟨n, hn, he⟩ := Option.map_eq_some_iff.mp (by decide +kernel :
    (performMoves (fun _ => true) (fun _ => false) longerBranch).map (fun n => (n.pindexBest,
      downCheck cpEnv n, (connectBestBlock cpEnv 20 10000000 false 20 n).map fun r =>
        (r.1.pindexBest, r.2.isOk))) = some (some 2, true, some (some 14, true)))
  simp only [Prod.mk.injEq] at he
  obtain ⟨hbest, hdown, hrun⟩ := he
  obtain ⟨⟨n', res⟩, hrun, he⟩ := Option.map_eq_some_iff.mp hrun
  simp only [Prod.mk.injEq] at he
  have hr : MovedTo cpEnv (fun _ => True) Node.SoftCPUnfailed n :=
    movedTo_of_performMoves (fun _ _ => trivial) (fun _ h => by cases h) hn
  obtain ⟨A, K⟩ := hr.standing fun _ => id
  obtain ⟨hends, hmax⟩ := connectBestBlock_terminates hr 10000000 false
  have hD := downward_of_check K.indexed hdown
  cases res with
  | error f => cases he.2
  | ok u => exact ⟨n, hr, hbest, hD, hends hD, n', hrun, he.1, hmax 20 20 n' hrun⟩

namespace Toy

/-- Two branches register a name at one height, and the node moves from the first to the second
and back. A third branch begins with a message that the user signs. -/
def circling : List MoveAct :=
  [.connect, .store (cpBlock 23 22 4 spam []), .connect, .store (cpBlock 22 21 3 spam []),
    .connect, .store (cpBlock 21 20 2 spam []),
    .connect, .store (cpBlock 20 1 1 (spamBy alice key1) []),
    .connect, .store (cpBlock 5 4 4 spam []), .connect, .store (cpBlock 4 3 3 spam []),
    .connect, .store (cpBlock 14 13 3 spam []),
    .connect, .store (cpBlock 13 2 2 spam [register alice key1]),
    .connect, .store (cpBlock 3 2 2 spam [register alice key1]),
    .connect, .store (cpBlock 2 1 1 spam [])]

def topBlock : CBlock := cpBlock 24 23 5 spam []

def signedBlock : CBlock := cpBlock 20 1 1 (spamBy alice key1) []

/-- The signed block is the next to be connected, and the lookup of the user goes round in
circles. -/
structure Circles (m : Node) : Prop where
  stored : m.readBlockFromDisk cpEnv 20 = some signedBlock
  parent : (m.index 20).map CBlockIndex.pprev = some (some 1)
  enters : getTransactionStep cpEnv m alice 1 (-1) = .inl 1
  stays : getTransactionStep cpEnv m alice 1 1 = .inl 1

def circlesCheck (m : Node) : Bool :=
  decide (m.readBlockFromDisk cpEnv 20 = some signedBlock) &&
    decide ((m.index 20).map CBlockIndex.pprev = some (some 1)) &&
    decide ((getTransactionStep cpEnv m alice 1 (-1)).getLeft? = some 1) &&
    decide ((getTransactionStep cpEnv m alice 1 1).getLeft? = some 1)

lemma circles_of_check (h : circlesCheck m = true) : Circles m := by
  simp only [circlesCheck, Bool.and_eq_true, decide_eq_true_eq, Sum.getLeft?_eq_some_iff] at h
  exact ⟨h.1.1.1, h.1.1.2, h.1.2, h.2⟩

lemma connectAll_circles (h : Circles m) (fuel : ℕ) (hs : List ℕ) :
    connectAll cpEnv fuel 10000000 m (some 1) (20 :: hs) = none := by
  obtain ⟨p, hp, hparent⟩ := Option.map_eq_some_iff.mp h.parent
  have hlook : getTransaction cpEnv fuel m alice 1 = none := by
    have hloop : Loop.doWhile (getTransactionStep cpEnv m alice (m.heightBound 1)) fuel (-1) =
        none := by
      rw [Node.heightBound, if_neg (by decide)]
      cases fuel with
      | zero => rfl
      | succ fuel => rw [Loop.doWhile_inl h.enters, Loop.doWhile_stuck h.stays]
    rw [getTransaction, hloop]
    rfl
  have hspam : checkSpamUser cpEnv fuel m 1 (spamBy alice key1) = none := by
    have hname : CScript.extractPushDataString (spamBy alice key1).userName 0 = alice := by decide
    have hsig : CScript.extractPushDataString (spamBy alice key1).userName 1 ≠ [] := by decide
    unfold checkSpamUser
    rw [hname, if_neg (by decide), if_neg hsig, hlook]
  have hcheck : checkBlock cpEnv 10000000 true true signedBlock = .ok () := by decide +kernel
  have hc : connectBlock cpEnv fuel 10000000 m (some 1) 20 p signedBlock false = none := by
    unfold connectBlock
    rw [Bool.not_false, hcheck]
    rw [if_neg (not_not.mpr hparent), if_neg (by decide)]
    have hfirst : (signedBlock.vtx.head?).map (checkSpamUser cpEnv fuel m signedBlock.nHeight) =
        some none := congrArg some hspam
    rw [hfirst]
  unfold connectAll
  rw [hp, h.stored]
  simp only [hc]

/-- The way to the third branch: the only block to switch to, and the blocks to leave and to
join. -/
structure WayUp (m : Node) : Prop where
  ancestry : m.checkAncestry (m.heightOf 24 + 1) 24 [] [] = some (.attach [24])
  fork : findFork m (m.heightOf 24 + (m.coinsTip.map m.heightOf).getD 0 + 2) m.coinsTip 24 =
    some (some 1)
  leave : walkTo m (some 1) ((m.coinsTip.map m.heightOf).getD 0 + 1) m.coinsTip =
    some [5, 4, 3, 2]
  join : walkTo m (some 1) (m.heightOf 24 + 1) (some 24) = some [24, 23, 22, 21, 20]
  collected : ([24, 23, 22, 21, 20].foldl collectStep (m, [])).2 = [24, 23, 22, 21, 20]
  circles : ∃ m' v, disconnectAll cpEnv ([24, 23, 22, 21, 20].foldl collectStep (m, [])).1
    ([24, 23, 22, 21, 20].foldl collectStep (m, [])).1.coinsTip [5, 4, 3, 2] =
      some (m', some 1, .ok v) ∧ Circles m'

lemma setBestChain_wayUp (W : WayUp m) (fuel : ℕ) (reconnect : Node → Option Node) :
    setBestChain cpEnv fuel 10000000 false reconnect m 24 = none := by
  obtain ⟨m', v, hdis, hcirc⟩ := W.circles
  have hcol := W.collected
  cases hf : [24, 23, 22, 21, 20].foldl collectStep (m, []) with
  | mk m₁ c =>
    rw [hf] at hcol hdis
    subst hcol
    simp only [setBestChain, W.fork, W.leave, W.join, hf]
    rw [if_neg (by decide)]
    simp only [reorganise, hdis]
    rw [show [24, 23, 22, 21, 20].reverse = 20 :: [21, 22, 23, 24] from rfl,
      connectAll_circles hcirc]

def wayUpCheck (m : Node) : Bool :=
  (match m.checkAncestry (m.heightOf 24 + 1) 24 [] [] with
    | some (.attach v) => decide (v = [24])
    | _ => false) &&
  decide (findFork m (m.heightOf 24 + (m.coinsTip.map m.heightOf).getD 0 + 2) m.coinsTip 24 =
    some (some 1)) &&
  decide (walkTo m (some 1) ((m.coinsTip.map m.heightOf).getD 0 + 1) m.coinsTip =
    some [5, 4, 3, 2]) &&
  decide (walkTo m (some 1) (m.heightOf 24 + 1) (some 24) = some [24, 23, 22, 21, 20]) &&
  decide (([24, 23, 22, 21, 20].foldl collectStep (m, [])).2 = [24, 23, 22, 21, 20]) &&
  match disconnectAll cpEnv ([24, 23, 22, 21, 20].foldl collectStep (m, [])).1
    ([24, 23, 22, 21, 20].foldl collectStep (m, [])).1.coinsTip [5, 4, 3, 2] with
  | some (m', view, .ok _) => decide (view = some 1) && circlesCheck m'
  | _ => false

lemma wayUp_of_check (h : wayUpCheck m = true) : WayUp m := by
  simp only [wayUpCheck, Bool.and_eq_true, decide_eq_true_eq] at h
  obtain ⟨⟨⟨⟨⟨h1, h2⟩, h3⟩, h4⟩, h5⟩, h6⟩ := h
  refine ⟨?_, h2, h3, h4, h5, ?_⟩
  · split at h1
    · rename_i hanc
      rw [hanc, of_decide_eq_true h1]
    · cases h1
  · split at h6
    · rename_i m' view v hdis
      rw [Bool.and_eq_true, decide_eq_true_eq] at h6
      exact ⟨m', v, by rw [hdis, h6.1], circles_of_check h6.2⟩
    · cases h6

def admitted (n : Node) (b : CBlock) : Bool :=
  !n.mapBlockIndex.contains (getHash cpEnv b) &&
    match n.index b.hashPrevBlock with
    | some p => match checkContext cpEnv n b p with
      | some (.ok ()) => true
      | _ => false
    | none => false

lemma acceptBlock_waits {n : Node} {b : CBlock} {pos : CDiskBlockPos} {fuel rounds : ℕ}
    (h : admitted n b = true)
    (hc : connectBestBlock cpEnv fuel 10000000 false rounds (n.store cpEnv b pos) = none) :
    acceptBlock cpEnv fuel rounds 10000000 false n b pos = none := by
  simp only [admitted, Bool.and_eq_true, Bool.not_eq_true'] at h
  obtain ⟨hnew, h⟩ := h
  have hadd := (addToBlockIndex_store (ne_true_of_eq_false hnew)).trans hc
  split at h
  · rename_i p hp
    split at h
    · rename_i hctx
      unfold acceptBlock
      simp only [hnew, hp, hctx, hadd, Bool.false_eq_true, if_false]
      split_ifs <;> rfl
    · cases h
  · cases h

end Toy

open Toy in
/-- **A lookup that goes round in circles**: after the node has moved from one branch to another and
back, with the same name registered in both at one height, a third branch is accepted whose first
message that user signs, and the call for its last block never returns. -/
theorem connectBestBlock_diverges :
    ∃ n, MovedTo cpEnv (fun _ => True) Node.SoftCPUnfailed n ∧ admitted n topBlock = true ∧
      MovedTo cpEnv (fun _ => True) Node.SoftCPUnfailed (n.store cpEnv topBlock ⟨0, 24⟩) ∧
      ∀ fuel rounds, acceptBlock cpEnv fuel rounds 10000000 false n topBlock ⟨0, 24⟩ = none ∧
        connectBestBlock cpEnv fuel 10000000 false rounds (n.store cpEnv topBlock ⟨0, 24⟩) =
          none := by
  obtain ⟨n, hn, he⟩ := Option.map_eq_some_iff.mp (by decide +kernel :
    (performMoves (fun _ => true) (fun _ => false) circling).map (fun n =>
      (admitted n topBlock, fitsIn cpEnv n topBlock, (n.store cpEnv topBlock ⟨0, 24⟩).bestCandidate,
        decide ((n.store cpEnv topBlock ⟨0, 24⟩).pindexBest = some 24 ∨
          (n.store cpEnv topBlock ⟨0, 24⟩).pindexBest.map
            (n.store cpEnv topBlock ⟨0, 24⟩).chainWork =
              some ((n.store cpEnv topBlock ⟨0, 24⟩).chainWork 24)),
        wayUpCheck (n.store cpEnv topBlock ⟨0, 24⟩))) = some (true, true, some 24, false, true))
  simp only [Prod.mk.injEq, decide_eq_false_iff_not] at he
  obtain ⟨hadm, hfits, hcand, hno, hway⟩ := he
  have hm : performMoves (fun _ => true) (fun _ => false) (.store topBlock :: circling) =
      some (n.store cpEnv topBlock ⟨0, 24⟩) := by
    rw [performMoves, hn, Option.bind_some, MoveAct.perform, if_pos hfits]
    rfl
  have hdiv : ∀ fuel rounds, connectBestBlock cpEnv fuel 10000000 false rounds
      (n.store cpEnv topBlock ⟨0, 24⟩) = none := by
    intro fuel rounds
    cases rounds with
    | zero => rfl
    | succ rounds =>
      have W := wayUp_of_check hway
      simp only [connectBestBlock, hcand, if_neg hno, W.ancestry, switchAll, setBestChain_wayUp W]
  exact ⟨n, movedTo_of_performMoves (fun _ _ => trivial) (fun _ h => by cases h) hn, hadm,
    movedTo_of_performMoves (fun _ _ => trivial) (fun _ h => by cases h) hm,
    fun fuel rounds => ⟨acceptBlock_waits hadm (hdiv fuel rounds), hdiv fuel rounds⟩⟩

end FreechCore
