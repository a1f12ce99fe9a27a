import FreechCore.Registry.Valid

/-!
Switches that are bound to go through: to a branch that is in order on its own chain, is not
shorter than the one it replaces, and for which no lookup is misled by the abandoned branch.
-/

namespace FreechCore

open BackLink Ledger List

/-- No lookup is misled when the branch `con` takes the place of `dis` on top of `F`. -/
structure Node.FairBranch (n : Node) (env : Env) (dis con F : List ℕ) : Prop where
  /-- no block of the branch finds a stale key -/
  clean : n.CleanBranch env (dis ++ F) F con
  /-- no promoted message is signed by a user whom a lower block of the branch registers -/
  signers : ∀ hi x lo, con = hi ++ x :: lo → ∀ b tx, n.readBlockFromDisk env x = some b →
    b.vtx.head? = some tx → tx.signer ≠ nobody → n.ledger.history tx.signer lo = []
  /-- a name that is new on its chain is not held against the first registration of it on the
  abandoned chain, unless it may replace that one -/
  owners : ∀ hi x lo, con = hi ++ x :: lo → ∀ tx ∈ n.ledger.registrations x,
    n.ledger.history tx.getUsername (lo ++ F) = [] → ∀ a old,
      (n.ledger.history tx.getUsername (dis ++ F)).getLast? = some a →
        n.ledger.ht a ≤ n.ledger.ht x → n.ledger.registration a tx.getUsername = some old →
          Allowed env old tx

variable {n n' n₁ : Node} {env : Env} {dis con F : List ℕ} {fuel : ℕ} {now : ℤ}

lemma fairBranch_of_free (hnew : ∀ x ∈ con, ∀ tx ∈ n.ledger.registrations x,
      n.entries env tx.getUsername (n.ledger.ht x - 1) = none ∧
        n.ledger.history tx.getUsername (dis ++ F) = [])
    (hspam : ∀ x ∈ con, ∀ b tx, n.readBlockFromDisk env x = some b → b.vtx.head? = some tx →
      tx.signer = nobody) : n.FairBranch env dis con F where
  clean := cleanBranch_of_free fun x hx tx htx => (hnew x hx tx htx).1
  signers := fun hi x lo he b tx hb htx hn =>
    absurd (hspam x (by rw [he]; simp) b tx hb htx) hn
  owners := fun hi x lo he tx htx _ a old ha => by
    rw [(hnew x (by rw [he]; simp) tx htx).2] at ha
    cases ha

/-- The blocks of the branch `con` on top of `F` are in order on their own chain. -/
def Node.ValidBranch (n : Node) (env : Env) (now : ℤ) (con F : List ℕ) : Prop :=
  ∀ hi x lo, con = hi ++ x :: lo → n.PassesBy env now (lo ++ F) x

section Safe

variable {fIBD : Bool} {reconnect : Node → Option Node}
variable {t f : ℕ} {l : List ℕ}

/-- What remains of a name of the active chain after a branch is disconnected: a block of the
chain only if it is the first one there to register the name. -/
lemma Unwound.newest_first (U : Unwound env (dis ++ F) F dis n n₁)
    (h : Working env n (dis ++ F) (dis ++ F)) (ht : n.Tidy env (dis ++ F) (dis ++ F)) {u : Bytes}
    {z : ℕ} (hF : n.ledger.history u F = []) (hz : n₁.entries env u (-1) = some z)
    (hzA : z ∈ dis ++ F) : (n.ledger.history u (dis ++ F)).getLast? = some z := by
  rw [U.newest u hF, Node.under] at hz
  obtain ⟨r, hf⟩ := h.follows u
  cases ha : (n.ledger.history u (dis ++ F)).getLast? with
  | none =>
    simp only [ha] at hz
    exact absurd hzA (h.not_mem_of_absent (List.getLast?_eq_none_iff.mp ha) hz)
  | some a =>
    simp only [ha, hf.last ha] at hz
    cases hr : r with
    | none => simpa [hr] using hz
    | some y =>
      rw [hr, Option.some_or] at hz
      exact absurd hzA (h.residue_off ht hf (hr.trans hz))

lemma Node.FairBranch.connectable (hs : n.FairBranch env dis con F)
    (U : Unwound env (dis ++ F) F dis n n₁) (h : Working env n (dis ++ F) (dis ++ F))
    (ht : n.Tidy env (dis ++ F) (dis ++ F)) (hD : n.ledger.Chain (con ++ F)) {lo hi : List ℕ}
    {x : ℕ} (he : con.reverse = lo ++ x :: hi) (hx : n.PassesBy env now (lo.reverse ++ F) x) :
    n₁.Connectable env now (dis ++ F) (lo.reverse ++ F) x := by
  have hcon := eq_of_reverse_split he
  have hch : n.ledger.Chain (x :: (lo.reverse ++ F)) := hD.under he
  have hL := U.ledger
  refine ⟨?_, ?_, ?_⟩
  · unfold Node.PassesBy
    rw [readBlockFromDisk_congr hL, hL]
    exact hx
  · intro b tx hb htx hn y R hR
    rw [readBlockFromDisk_congr hL] at hb
    rw [hL, history_append, hs.signers _ x _ hcon b tx hb htx hn, nil_append] at hR
    exact mem_append_right _ (mem_of_history_cons hR).1
  · intro tx htx hR z old hz hzA hle hold
    rw [hL] at htx hR hle hold
    refine hs.owners _ x _ hcon tx htx hR z old
      (U.newest_first h ht (history_right_nil hR) hz hzA) ?_ hold
    rw [hch.ht_eq h.tree]
    exact hle

/-- **A switch to a branch in order goes through.** -/
theorem reorganise_safe (S : Settled env n (dis ++ F)) (ht : n.Tidy env (dis ++ F) (dis ++ F))
    (hF : F ≠ []) (hD : n.ledger.Chain (con ++ F)) (htip : (con ++ F).head? = some t)
    (hlen : dis.length ≤ con.length) (hs : n.FairBranch env dis con F)
    (hv : n.ValidBranch env now con F) (hfuel : (con ++ F).length + 1 < fuel) :
    ∃ n', reorganise env fuel now fIBD reconnect n t dis con.reverse = some (n', .ok ()) := by
  obtain ⟨k, rfl⟩ : ∃ k, fuel = k + 2 := ⟨fuel - 2, by omega⟩
  obtain ⟨n₁, v, hdis, U⟩ := disconnectAll_ok S.working hF fun x hx => mem_append_left _ hx
  have hD₁ : n₁.ledger.Chain (con.reverse.reverse ++ F) := by
    rw [U.ledger, reverse_reverse]
    exact hD
  obtain ⟨n₂, w, hcon⟩ := connectAll_valid U.working (U.tidy ht) hD₁ (hs.clean.unwound rfl U hD)
    (fun lo x hi he => hs.connectable U S.working ht hD he
      (hv hi.reverse x lo.reverse (eq_of_reverse_split he))) k
  obtain ⟨-, J⟩ := connectAll_ok U.working hD₁ hcon
  have hJ := J.working
  have hJt := J.tidy (U.tidy ht) (hs.clean.unwound rfl U hD)
  rw [reverse_reverse] at hJ hJt hcon
  have hvec := registerBestChain_vec hJ.tree hJ.vec hJ.chainW htip hlen
  have hbest : 0 ≤ n₂.nBestHeight := by
    have := length_pos_of_ne_nil hJ.chainA.ne_nil
    rw [hJ.best]
    omega
  have hlook : ∀ u, ∃ r, getTransaction env (k + 2)
      ((n₂.flushView (con ++ F).head? fIBD).registerBestChain t con.reverse) u (-1) = some r :=
    fun u => ⟨_, getTransaction_settling hJ hJt (by rfl) (by rfl) (by exact hvec)
      (by exact hbest) (by omega) u⟩
  obtain ⟨n₃, hres⟩ : ∃ n₃, resurrect env (k + 2) _ v = some n₃ := resurrect_returns hlook
  unfold reorganise switchTo
  rw [S.coins, hdis]
  simp only [hcon, hres]
  exact ⟨_, rfl⟩

/-- **A call of `SetBestChain` for a branch in order goes through.** -/
theorem setBestChain_safe (S : Settled env n (dis ++ f :: l))
    (ht : n.Tidy env (dis ++ f :: l) (dis ++ f :: l)) (B : n.Branches t dis con f l)
    (hf : ∀ h ∈ con, (n.nStatus h).failed = false)
    (hlen : dis.length ≤ con.length) (hs : n.FairBranch env dis con (f :: l))
    (hv : n.ValidBranch env now con (f :: l)) (hfuel : (con ++ f :: l).length + 1 < fuel) :
    ∃ n', setBestChain env fuel now fIBD reconnect n t = some (n', .ok ()) ∧
      Reorganised env dis con (f :: l) n n' := by
  obtain ⟨n', hr⟩ : ∃ n', reorganise env fuel now fIBD reconnect n t dis con.reverse =
      some (n', .ok ()) :=
    reorganise_safe S ht (by simp) B.fork.right B.target hlen hs hv hfuel
  refine ⟨n', ?_, reorganise_ok S (by simp) B.fork.right B.target hlen hr⟩
  rw [setBestChain_eq_of_unfailed S.working.tree B hf, if_neg (not_lt.mpr hlen), hr]

end Safe

/-! ### Switches that are given up -/

section GivenUp

variable {bad : ℕ} {n₂ n₃ : Node} {e : Failure}
variable {done up : List ℕ}

section

variable (G : GivenUp env fuel now dis F con.reverse done bad n n₁ n₂ n₃ n' e)

include G

lemma GivenUp.invalid
    (h : Working env n (dis ++ F) (dis ++ F)) (ht : n.Tidy env (dis ++ F) (dis ++ F))
    (hD : n.ledger.Chain (con ++ F)) (hs : n.FairBranch env dis con F) :
    ¬ n.PassesBy env now (done.reverse ++ F) bad := by
  intro hpass
  obtain ⟨rest, hsplit⟩ := G.split
  have U := G.unwound
  have J := G.joined
  have hch : n₂.ledger.Chain (bad :: (done.reverse ++ F)) := by
    rw [J.frame.ledger, U.ledger]
    exact hD.under hsplit
  have hclean : n₁.TidyBranch env (dis ++ F) F done := fun lo x hi he =>
    hs.clean.unwound rfl U hD lo x (hi ++ bad :: rest) (by rw [hsplit, he]; simp)
  have C : n₂.Connectable env now (dis ++ F) (done.reverse ++ F) bad := by
    refine (hs.connectable U h ht hD hsplit hpass).tail J.frame.ledger fun u hu => J.rows u ?_
    exact fun x hx => not_registers_of_history_nil hu (by simp [hx])
  obtain ⟨p, b, m, hp, hb, B, hok⟩ :=
    C.connectBlock J.working (J.tidy (U.tidy ht) hclean) hch fuel
  rcases G.refused with ⟨hno, -⟩ | ⟨p', b', B', -, herr⟩
  · rw [hb] at hno
    cases hno
  · obtain ⟨rfl, rfl⟩ := B.unique B'
    have := hok.symm.trans (connectBlock_mono (Nat.le_add_right fuel 2) herr)
    simp at this

lemma GivenUp.tidy_untouched
    (ht : n.Tidy env (dis ++ F) (dis ++ F)) (hD : n.ledger.Chain (con ++ F))
    (hoff : ∀ x ∈ con, x ∉ dis ++ F) (hU : n.Untouched env dis con F) (hN : n.ledger.NamesOnce con) :
    n'.Tidy env (dis ++ F) (dis ++ F) := by
  obtain ⟨rest, hsplit⟩ := G.split
  have hcon := eq_of_reverse_split hsplit
  have hch : n.ledger.Chain (bad :: (done.reverse ++ F)) := hD.under hsplit
  have hL₂ : n₂.ledger = n.ledger := G.joined.frame.ledger.trans G.unwound.ledger
  have hL : n'.ledger = n.ledger := G.marked.same.ledger.trans (G.frame hch).ledger
  have hW := G.joined.working
  have hsub : ∀ x ∈ done ++ [bad], x ∈ con := fun x hx => by rw [hcon]; simp at hx ⊢; tauto
  intro u r hf
  rw [hL] at hf ⊢
  by_cases hu : n.ledger.history u (dis ++ F) = []
  · -- the check of the refused block does not see a name that the chain does not have
    have hbad : n₃.entries env u = n₂.entries env u := by
      rcases (G.overwritten hch).rows u with h | ⟨-, ⟨-, z, hz, hzA, -⟩, -⟩
      · exact h
      · exact absurd hzA (hW.not_mem_of_absent (hL₂ ▸ hu) hz)
    have huF := history_right_nil hu
    by_cases hd : ∀ x ∈ done, n.ledger.registers u x = false
    · rw [G.rows (fun x hx hxu => hU.links x hx u hxu) hd hbad] at hf ⊢
      exact ht u r hf
    · -- the newest entry is the only block of the branch that registers the name
      have hne : n.ledger.history u (done.reverse ++ F) ≠ [] := by
        simp only [not_forall, Bool.not_eq_false] at hd
        obtain ⟨x, hx, hxu⟩ := hd
        exact ne_nil_of_mem (mem_history.mpr ⟨by simp [hx], hxu⟩)
      obtain ⟨y, R, hR⟩ := exists_cons_of_ne_nil hne
      have hone : ∀ z ∈ n.ledger.history u (done.reverse ++ F), z ∈ con := by
        intro z hz
        rw [history_append, huF, append_nil] at hz
        exact hsub z (mem_append_left _ (mem_reverse.mp (mem_history.mp hz).1))
      have hy := hone y (hR ▸ mem_cons_self)
      have hey : n'.entries env u (-1) = some y := by
        rw [G.entries_eq, hbad]
        exact hW.entry_head (by rw [hL₂]; exact hR)
      rw [hu, follows_nil, hey] at hf
      rw [hu, ← hf]
      refine ⟨?_, by simp, ?_⟩
      · rintro x ⟨⟩
        obtain ⟨z, hz⟩ : ∃ z, (n.ledger.history u (done.reverse ++ F)).getLast? = some z := by
          rw [hR]; exact ⟨_, List.getLast?_cons⟩
        have hzc := hone z (mem_of_getLast? hz)
        obtain ⟨-, hfirst⟩ := (hch.of_cons (by simpa using hW.chainW.ne_nil)).first_getLast
          (hL₂ ▸ hW.tree) hz
        have hyz : z = y := hN.unique hzc hy hfirst.1 (mem_of_history_cons hR).2
        exact hyz ▸ hfirst
      · rintro x ⟨⟩ - hxA
        exact absurd hxA (hoff y hy)
  · rw [G.rows_untouched hch (fun x hx => hU.names x (hsub x hx)) hU.links hu] at hf ⊢
    exact ht u r hf

end

end GivenUp

end FreechCore
