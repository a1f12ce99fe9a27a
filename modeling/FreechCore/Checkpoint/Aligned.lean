import FreechCore.Registry.Climb
import FreechCore.Checkpoint.Moves

/-!
The active chain of a node. The vector, the view and the best block follow one chain, and no
block of it has failed, whatever became of the index. Every move keeps this up, except one:
`SetBestChain` drops the blocks from the lowest failed one on from the branch that it is to
connect, and still takes the top of the branch for the best block. `ConnectBestBlock` never
asks for such a branch, but `SetSoftCPBestChain` may.
-/

namespace FreechCore

open Relation List

variable {F C : Node → Prop}

/-- The vector, the view and the best block follow the chain `A`, no block of it has failed,
and all of them can be disconnected. -/
structure Aligned (env : Env) (n : Node) (A : List ℕ) : Prop where
  tree : n.ledger.Tree env
  chain : n.ledger.Chain A
  vec : n.vBlockIndexByHeight = A.reverse.map some
  height : n.nBestHeight = (A.length : ℤ) - 1
  coins : n.coinsTip = A.head?
  best : n.pindexBest = A.head?
  unfailed : ∀ h ∈ A, (n.nStatus h).failed = false
  undoable : Undoable env n A
  work : n.ledger.WorkGrows
  /-- the candidates are blocks of the tree -/
  known : ∀ h ∈ n.setBlockIndexValid, (n.index h).isSome = true

/-! ### Connecting and disconnecting branches -/

section

variable {env : Env} {fuel t : ℕ} {now : ℤ} {n n' : Node} {dis : List ℕ}

section Branches

variable {view' : Option ℕ}
variable {D W up : List ℕ}

section

variable (U : Undoable env n D) (T : n.ledger.Tree env) (hW : W ≠ [])

include U T hW

lemma Undoable.connectAll (hup : n.ledger.Chain (up.reverse ++ W)) {v : List CTransaction}
    (hc : connectAll env fuel now n W.head? up = some (n', view', .ok v)) :
    view' = (up.reverse ++ W).head? ∧ Undoable env n' (up ++ D) := by
  induction up generalizing n W D v with
  | nil =>
    cases hc
    exact ⟨rfl, U⟩
  | cons x up ih =>
    have hx : n.ledger.Chain (x :: W) := hup.of_up
    obtain ⟨p, b, n₁, view₁, v₁, hp, hb, hcb, hall⟩ := connectAll_cons_ok hc
    have B := stored_of_readBlockFromDisk T hp hb
    obtain ⟨rfl, hF, U₁⟩ := U.connectBlock T B (hx.pprev_ne_none B hW) hcb
    obtain ⟨hv, U₂⟩ := ih U₁ (by rw [hF.ledger]; exact T) (W := x :: W) (by simp)
      (by rw [hF.ledger]; simpa using hup) hall
    refine ⟨by simpa using hv, fun h hh => U₂.solid h ?_, U₂.undo⟩
    simp only [cons_append, mem_cons, mem_append] at hh ⊢
    tauto

lemma Undoable.connectAll_error (hup : n.ledger.Chain (up.reverse ++ W)) {bad : ℕ} {f : Failure}
    (hc : FreechCore.connectAll env fuel now n W.head? up = some (n', view', .error (bad, f))) :
    Undoable env n' D ∧ bad ∈ up ∧
      (f.isInvalid = true ∨ n.readBlockFromDisk env bad = none) := by
  induction up generalizing n W with
  | nil => cases hc
  | cons x up ih =>
    have hx : n.ledger.Chain (x :: W) := hup.of_up
    obtain ⟨p, hp⟩ := hx.index_eq mem_cons_self
    rcases connectAll_cons_error hp hc with ⟨hb, rfl, rfl, -⟩ | ⟨b, hb, hcase⟩
    · exact ⟨U, mem_cons_self, Or.inr hb⟩
    have B := stored_of_readBlockFromDisk T hp hb
    rcases hcase with ⟨rfl, hcb⟩ | ⟨n₁, view₁, hcb, hall⟩
    · obtain ⟨hi, hinv⟩ := connectBlock_refused hcb
      exact ⟨U.congr hi.frame.ledger hi.undo, mem_cons_self, Or.inl hinv⟩
    · obtain ⟨rfl, hF, U₁⟩ := U.connectBlock T B (hx.pprev_ne_none B hW) hcb
      obtain ⟨U₂, hm, hcase⟩ := ih (U₁.mono fun h hh => mem_cons_of_mem _ hh)
        (by rw [hF.ledger]; exact T) (W := x :: W) (by simp)
        (by rw [hF.ledger]; simpa using hup) hall
      rw [readBlockFromDisk_congr hF.ledger] at hcase
      exact ⟨U₂, mem_cons_of_mem _ hm, hcase⟩

lemma Undoable.disconnectAll (hdis : n.ledger.Chain (dis ++ W)) (hD : ∀ x ∈ dis, x ∈ D) :
    ∃ n' v, disconnectAll env n (dis ++ W).head? dis = some (n', W.head?, .ok v) := by
  induction dis generalizing n with
  | nil => exact ⟨n, [], rfl⟩
  | cons x dis ih =>
    replace hdis : n.ledger.Chain (x :: (dis ++ W)) := hdis
    have hne : dis ++ W ≠ [] := by simp [hW]
    obtain ⟨p, hp⟩ := hdis.index_eq mem_cons_self
    obtain ⟨b, B⟩ := T.stored_block hp
    have hroot := hdis.pprev_ne_none B hne
    have hb := U.solid x (hD x (by simp)) p b B hroot
    obtain ⟨k, hk⟩ := Option.isSome_iff_exists.mp hb.undo
    obtain ⟨hi, hr⟩ := readBlockFromDisk_of_stored B hb.work
    have hd := disconnectBlock_ok (p := p) (b := b) rfl hk (U.undo x p b k B hk)
    rw [hdis.pprev_eq_head? B] at hd
    obtain ⟨n', v, hall⟩ := ih (n := { n with txIndex := n.disconnected b }) (U.congr rfl rfl) T
      (hdis.of_cons hne) fun y hy => hD y (mem_cons_of_mem _ hy)
    refine ⟨n', (b.vtx.filter fun tx =>
      !tx.isSpamMessage && decide (getTotalBlocksEstimate env < p.nHeight)) ++ v, ?_⟩
    simp only [cons_append, List.head?_cons, FreechCore.disconnectAll, hi, hr, hd, hall]

end

end Branches

/-! ### One call of `SetBestChain` -/

section Switch

variable {fIBD : Bool} {reconnect : Node → Option Node}
variable {A m : List ℕ} {x : ℕ} {res : Check}

section

variable (S : Aligned env n A)

include S

lemma Aligned.isInMainChain_iff : n.isInMainChain x = true ↔ x ∈ A :=
  S.chain.isInMainChain_iff S.tree S.vec

lemma Aligned.isInMainChain_eq_false (hx : x ∉ A) : n.isInMainChain x = false := by
  rw [← Bool.not_eq_true, S.isInMainChain_iff]
  exact hx

lemma Aligned.frame (hF : n.Frame n') (U : Undoable env n' A) : Aligned env n' A where
  tree := by rw [hF.ledger]; exact S.tree
  chain := by rw [hF.ledger]; exact S.chain
  vec := hF.vec.trans S.vec
  height := hF.height.trans S.height
  coins := hF.coins.trans S.coins
  best := hF.best.trans S.best
  unfailed := fun h hh => (hF.failed h).trans (S.unfailed h hh)
  undoable := U
  work := by rw [hF.ledger]; exact S.work
  known := by rw [hF.candidates, Node.index_congr hF.ledger]; exact S.known

lemma Aligned.mark (hs : n.SameChain n') (hf : ∀ h ∈ A, (n'.nStatus h).failed = false)
    (hc : ∀ h ∈ n'.setBlockIndexValid, h ∈ n.setBlockIndexValid) : Aligned env n' A where
  tree := by rw [hs.ledger]; exact S.tree
  chain := by rw [hs.ledger]; exact S.chain
  vec := hs.vec.trans S.vec
  height := hs.height.trans S.height
  coins := hs.coins.trans S.coins
  best := hs.best.trans S.best
  unfailed := hf
  undoable := S.undoable.congr hs.ledger hs.undo
  work := by rw [hs.ledger]; exact S.work
  known := fun h hh => by rw [Node.index_congr hs.ledger]; exact S.known h (hc h hh)

lemma Aligned.markFailedValid (hx : x ∉ A) : Aligned env (markFailedValid n x) A := by
  refine S.mark (Marked.markFailedValid n x).same (fun h hh => ?_) fun h hh => ?_
  · rw [← Bool.not_eq_true, markFailedValid_failed, S.unfailed h hh]
    rintro (rfl | hno)
    · exact hx hh
    · cases hno
  · simp only [FreechCore.markFailedValid, Node.eraseValid, mem_filter,
      Node.writeBlockIndex_setBlockIndexValid] at hh
    exact hh.1

end

/-- A branch that does not make it, and why: it is shorter than what it is to replace, or one
of its blocks is invalid, or cannot be read. -/
def Node.Blocked (n n' : Node) (env : Env) (A D : List ℕ) : Prop :=
  D.length < A.length ∨
    ∃ bad ∈ D, (n'.nStatus bad).failed = true ∨ n.readBlockFromDisk env bad = none

lemma Aligned.switchTo {con F : List ℕ} {n₂ : Node} {v w : List CTransaction}
    (S : Aligned env n (dis ++ F)) (hD : n.ledger.Chain (con ++ F)) (ht : (con ++ F).head? = some t)
    (hlen : dis.length ≤ con.length) (hun : ∀ x ∈ con, (n.nStatus x).failed = false)
    (hfr : n.Frame n₂) (U : Undoable env n₂ (con ++ F))
    (hs : switchTo env fuel fIBD n₂ (con ++ F).head? t con.reverse v w = some n') :
    Aligned env n' (con ++ F) ∧ ∀ h, (n'.nStatus h).failed = (n.nStatus h).failed := by
  have hT₂ : n₂.ledger.Tree env := by rw [hfr.ledger]; exact S.tree
  have hD₂ : n₂.ledger.Chain (con ++ F) := by rw [hfr.ledger]; exact hD
  have hvec := registerBestChain_vec hT₂ (hfr.vec.trans S.vec) hD₂ ht hlen
  have hheight : n₂.heightOf t + 1 = (con ++ F).length := head?_height hT₂ hD₂ ht
  have heq := switchTo_eq hs
  have hL : n'.ledger = n₂.ledger := by rw [heq]; rfl
  have hst : ∀ h, (n'.nStatus h).failed = (n.nStatus h).failed := fun h => by
    rw [← hfr.failed, heq]
    rfl
  refine ⟨⟨?_, ?_, ?_, ?_, ?_, ?_, ?_, ?_, ?_, ?_⟩, hst⟩
  · rw [hL]; exact hT₂
  · rw [hL]; exact hD₂
  · rw [heq]; exact hvec
  · rw [heq, ← hheight]
    push_cast
    ring
  · rw [heq]
  · rw [heq]; exact ht.symm
  · intro h hh
    rw [hst]
    rcases mem_append.mp hh with hh | hh
    · exact hun h hh
    · exact S.unfailed h (mem_append_right _ hh)
  · exact U.congr hL (by rw [heq]; rfl)
  · rw [hL, hfr.ledger]; exact S.work
  · intro h hh
    rw [Node.index_congr (hL.trans hfr.ledger)]
    refine S.known h ?_
    rw [← hfr.candidates]
    rw [heq] at hh
    exact hh

/-- **A branch without failed blocks** is joined, or the chain stays what it was. -/
theorem Aligned.reorganise {con F : List ℕ} (S : Aligned env n (dis ++ F)) (hF : F ≠ [])
    (hD : n.ledger.Chain (con ++ F)) (ht : (con ++ F).head? = some t)
    (hlen : dis.length ≤ con.length) (hoff : ∀ x ∈ con, x ∉ dis ++ F)
    (hun : ∀ x ∈ con, (n.nStatus x).failed = false)
    (hr : reorganise env fuel now fIBD reconnect n t dis con.reverse = some (n', res)) :
    (res = .ok () ∧ Aligned env n' (con ++ F) ∧
        ∀ h, (n'.nStatus h).failed = (n.nStatus h).failed) ∨
      (res ≠ .ok () ∧ Aligned env n' (dis ++ F) ∧ n.Blocked n' env (dis ++ F) (con ++ F)) := by
  obtain ⟨n₁, v, hdis⟩ := S.undoable.disconnectAll S.tree hF S.chain fun x hx =>
    mem_append_left _ hx
  have hi := disconnectAll_indexOnly hdis
  have hL₁ := hi.frame.ledger
  have S₁ := S.frame hi.frame (S.undoable.congr hL₁ hi.undo)
  have hup : n₁.ledger.Chain (con.reverse.reverse ++ F) := by
    rw [hL₁, reverse_reverse]
    exact hD
  rw [← S.coins] at hdis
  rcases reorganise_cases hdis hr with ⟨n₂, view₂, w, hcon, hs, rfl⟩ |
    ⟨n₂, view₂, bad, f, hcon, hno, hend⟩
  rotate_left
  · -- a block does not connect
    have hF₂ := connectAll_frame hcon
    obtain ⟨U₂, hbad, hcase⟩ := S₁.undoable.connectAll_error S₁.tree hF hup hcon
    rw [mem_reverse] at hbad
    have S₂ := S₁.frame hF₂ U₂
    have hbadD : bad ∈ con ++ F := mem_append_left _ hbad
    rcases hend with ⟨-, hend⟩ | ⟨hinv, rfl⟩
    · rw [invalidBlockFound_off (S₂.isInMainChain_eq_false (hoff bad hbad)), Option.some.injEq]
        at hend
      rw [← hend]
      refine Or.inr ⟨hno, S₂.markFailedValid (hoff bad hbad), Or.inr ⟨bad, hbadD, Or.inl ?_⟩⟩
      exact (markFailedValid_failed n₂ bad bad).mpr (Or.inl rfl)
    · refine Or.inr ⟨hno, S₂, Or.inr ⟨bad, hbadD, Or.inr ?_⟩⟩
      rw [← readBlockFromDisk_congr hL₁]
      exact hcase.resolve_left (by simp [hinv])
  · -- all blocks connect
    have hF₂ := connectAll_frame hcon
    obtain ⟨hv, U₂⟩ := S₁.undoable.connectAll S₁.tree hF hup hcon
    rw [reverse_reverse] at hv
    rw [hv] at hs
    have U : Undoable env n₂ (con ++ F) := U₂.mono fun h hh => by
      simp only [mem_append, mem_reverse] at hh ⊢
      tauto
    exact Or.inl ⟨rfl, S.switchTo hD ht hlen hun (hi.frame.trans hF₂) U hs⟩

/-- **One call of `SetBestChain`** for a block on a chain without failed blocks. -/
theorem Aligned.setBestChain (S : Aligned env n A) (hx : n.ledger.Chain (x :: m))
    (hun : ∀ y ∈ x :: m, (n.nStatus y).failed = false)
    (h : setBestChain env fuel now fIBD reconnect n x = some (n', res)) :
    (res = .ok () ∧ Aligned env n' (x :: m) ∧
        ∀ h, (n'.nStatus h).failed = (n.nStatus h).failed) ∨
      (res ≠ .ok () ∧ Aligned env n' A ∧ n.Blocked n' env A (x :: m)) := by
  obtain ⟨dis, con, f, l, rfl, hD, F, hoff⟩ := S.tree.exists_fork S.chain hx
  have hun' : ∀ y ∈ con, (n.nStatus y).failed = false := fun y hy =>
    hun y (by rw [hD]; exact mem_append_left _ hy)
  have ht : (con ++ f :: l).head? = some x := by rw [← hD]; rfl
  rw [setBestChain_eq_of_unfailed S.tree ⟨F, S.coins, ht⟩ hun'] at h
  rw [hD] at hx ⊢
  split_ifs at h with hlen
  · cases h
    refine Or.inr ⟨by simp [shorterChain], S, Or.inl ?_⟩
    simp only [length_append]
    omega
  · exact S.reorganise (by simp) hx ht (not_lt.mp hlen) hoff hun' h

end Switch

/-! ### The moves -/

section Moves

variable {rounds : ℕ} {fIBD : Bool} {reconnect : Node → Option Node}
variable {A l : List ℕ} {res : Check}

section

variable (S : Aligned env n A)

include S

lemma Aligned.mark_above {above : List ℕ} {p : CBlockIndex}
    (ht : n.index t = some p)
    (hf : n.checkAncestry fuel t [] [] = some (.failed above)) :
    Aligned env (above.foldl markFailedChild n) A ∧
      ∀ h ∈ (above.foldl markFailedChild n).setBlockIndexValid, h ∈ n.setBlockIndexValid := by
  have hcand : ∀ h ∈ (above.foldl markFailedChild n).setBlockIndexValid,
      h ∈ n.setBlockIndexValid := fun h hh => by
    rw [foldl_markFailedChild_candidates] at hh
    exact (mem_filter.mp hh).1
  refine ⟨S.mark (.foldl .markFailedChild _ _) (fun h hh => ?_) hcand, hcand⟩
  obtain ⟨hi, z, rfl, hz, -, hch⟩ := checkAncestry_failed hf
  obtain ⟨l, hl⟩ := S.tree.exists_chain ht
  obtain ⟨lo, hlo⟩ := hch l hl
  rw [← Bool.not_eq_true, foldl_markFailedChild_failed, S.unfailed h hh]
  rintro (hm | hno)
  · -- a block of the chain above `z` would have `z` in the chain
    obtain ⟨a, b, rfl⟩ := append_of_mem hm
    have hhl : n.ledger.Chain (h :: (b ++ z :: lo)) := by
      refine Ledger.Chain.of_append (l := a) ?_ (by simp)
      rw [hlo] at hl
      simpa using hl
    obtain ⟨c, e, rfl⟩ := append_of_mem hh
    have he := (S.chain.of_append (by simp)).unique hhl
    have := S.unfailed z (by rw [he]; simp)
    rw [hz] at this
    cases this
  · cases hno

lemma Aligned.checkAncestry_failed (hl : n.ledger.Chain (t :: l))
    (hf : ∃ z ∈ t :: l, (n.nStatus z).failed = true) (hfuel : l.length < fuel)
    (acc att : List ℕ) : ∃ above, n.checkAncestry fuel t acc att = some (.failed above) := by
  induction fuel generalizing t l acc att with
  | zero => omega
  | succ fuel ih =>
    unfold Node.checkAncestry
    by_cases ht : (n.nStatus t).failed = true
    · exact ⟨_, if_pos ht⟩
    rw [if_neg ht]
    obtain ⟨z, hz, hzf⟩ := hf
    have hzl : z ∈ l := (mem_cons.mp hz).resolve_left fun e => ht (e ▸ hzf)
    obtain ⟨q, l', rfl⟩ := exists_cons_of_ne_nil (ne_nil_of_mem hzl)
    have hq : n.pprev t = some q := hl.pprev_eq
    have hm : ¬ (n.getNextInMainChain t).isSome = true := by
      -- from there on the chain would be the active one
      intro hm
      have htA : t ∈ A := by
        rw [← S.isInMainChain_iff]
        by_contra hno
        simp [Node.getNextInMainChain, hno] at hm
      obtain ⟨c, e, rfl⟩ := append_of_mem htA
      have he := (S.chain.of_append (by simp)).unique hl
      have := S.unfailed z (by rw [he]; exact mem_append_right _ hz)
      rw [hzf] at this
      cases this
    simp only [hq, if_neg hm]
    exact ih (hl.of_cons (by simp)) ⟨z, hzl, hzf⟩ (by simpa using hfuel) _ _

/-- **One round of `ConnectBestBlock`**: there is nothing to do, or the best candidate has a failed
ancestor, or its blocks with more work than the best one are switched to. -/
lemma Aligned.connectBestBlock_round (fuel rounds : ℕ) (now : ℤ)
    (fIBD : Bool) :
    (connectBestBlock env fuel now fIBD (rounds + 1) n = some (n, .ok ()) ∧
        ∀ t, n.bestCandidate = some t → n.pindexBest.map n.chainWork = some (n.chainWork t)) ∨
      ∃ t l, n.bestCandidate = some t ∧ n.ledger.Chain (t :: l) ∧
        ((∃ above, n.checkAncestry (n.heightOf t + 1) t [] [] = some (.failed above) ∧
            connectBestBlock env fuel now fIBD (rounds + 1) n =
              connectBestBlock env fuel now fIBD rounds (above.foldl markFailedChild n)) ∨
          ∃ best, n.pindexBest = some best ∧ n.chainWork best ≠ n.chainWork t ∧
            (∀ x ∈ t :: l, (n.nStatus x).failed = false) ∧
            connectBestBlock env fuel now fIBD (rounds + 1) n =
              switchAll (FreechCore.setBestChain env fuel now fIBD fun n =>
                (connectBestBlock env fuel now fIBD rounds n).map Prod.fst) n
                (n.heavier best (t :: l)).reverse) := by
  cases hbest : n.bestCandidate with
  | none => exact Or.inl ⟨by simp only [FreechCore.connectBestBlock, hbest], by simp⟩
  | some t =>
    obtain ⟨p, hp⟩ := Option.isSome_iff_exists.mp (S.known t (Node.bestCandidate_mem hbest))
    obtain ⟨l, hl⟩ := S.tree.exists_chain (show n.ledger.index t = some p from hp)
    have hlen : l.length < n.heightOf t + 1 := by
      have : n.heightOf t = l.length := hl.height S.tree
      omega
    obtain ⟨a, A', rfl⟩ := exists_cons_of_ne_nil S.chain.ne_nil
    have ha : n.pindexBest = some a := S.best
    by_cases hno : n.pindexBest = some t ∨
        n.pindexBest.map n.chainWork = some (n.chainWork t)
    · refine Or.inl ⟨by simp only [FreechCore.connectBestBlock, hbest, if_pos hno], ?_⟩
      rintro t' ⟨⟩
      rcases hno with he | he
      · rw [he, Option.map_some]
      · exact he
    refine Or.inr ⟨t, l, rfl, hl, ?_⟩
    by_cases hf : ∃ z ∈ t :: l, (n.nStatus z).failed = true
    · obtain ⟨above, habove⟩ := S.checkAncestry_failed hl hf hlen [] []
      exact Or.inl ⟨above, habove, by
        simp only [FreechCore.connectBestBlock, hbest, if_neg hno, habove]⟩
    · have hun : ∀ x ∈ t :: l, (n.nStatus x).failed = false := fun x hx => by
        rw [← Bool.not_eq_true]
        exact fun hxf => hf ⟨x, hx, hxf⟩
      have hwalk := checkAncestry_attach S.chain (fun _ => S.isInMainChain_iff.mp) ha
        (S.work.chainWork_le S.chain) hl hun hlen [] []
      rw [append_nil] at hwalk
      refine Or.inr ⟨a, ha, fun he => hno (Or.inr ?_), hun, by
        simp only [FreechCore.connectBestBlock, hbest, if_neg hno, hwalk]⟩
      rw [ha, Option.map_some, he]

lemma Aligned.switchAll (hl : n.ledger.Chain (t :: l))
    (hun : ∀ x ∈ t :: l, (n.nStatus x).failed = false) {hs : List ℕ}
    (hre : ∀ m m', reconnect m = some m' → m.SameTree m') (hsub : ∀ x ∈ hs, x ∈ t :: l)
    (h : switchAll (FreechCore.setBestChain env fuel now fIBD reconnect) n hs = some (n', res)) :
    ∃ A', Aligned env n' A' ∧ (A' = A ∨ ∃ x ∈ hs, ∃ m, A' = x :: m ∧ A' <:+ t :: l) ∧
      (res = .ok () → A'.head? = hs.getLast?.or A.head?) := by
  induction hs generalizing n A with
  | nil =>
    cases h
    exact ⟨A, S, Or.inl rfl, fun _ => rfl⟩
  | cons x hs ih =>
    obtain ⟨c, m, hcm⟩ := append_of_mem (hsub x mem_cons_self)
    have hx : n.ledger.Chain (x :: m) := (hcm ▸ hl).of_append (by simp)
    have hsuf : x :: m <:+ t :: l := ⟨c, hcm.symm⟩
    have hunx : ∀ y ∈ x :: m, (n.nStatus y).failed = false := fun y hy =>
      hun y (hsuf.subset hy)
    unfold FreechCore.switchAll at h
    split at h
    · cases h
    · rename_i n₁ f hr
      cases h
      rcases S.setBestChain hx hunx hr with ⟨hno, -, -⟩ | ⟨-, S₁, -⟩
      · cases hno
      · exact ⟨A, S₁, Or.inl rfl, fun hno => by cases hno⟩
    · rename_i n₁ hr
      rcases S.setBestChain hx hunx hr with ⟨-, S₁, hst⟩ | ⟨hno, -, -⟩
      · have hL := ((Node.SameTree.across env).setBestChain hre hr).ledger
        obtain ⟨A', S', hA', hlast⟩ := ih S₁ (by rw [hL]; exact hl)
          (fun y hy => (hst y).trans (hun y hy)) (fun y hy => hsub y (mem_cons_of_mem _ hy)) h
        refine ⟨A', S', Or.inr ?_, fun hok => ?_⟩
        · rcases hA' with rfl | ⟨y, hy, m', he, hs'⟩
          · exact ⟨x, mem_cons_self, m, rfl, hsuf⟩
          · exact ⟨y, mem_cons_of_mem _ hy, m', he, hs'⟩
        · rw [hlast hok, List.getLast?_cons, List.head?_cons]
          cases hs.getLast? <;> rfl
      · exact absurd rfl hno

end

/-- The chain `A` is left for that of an ancestor, with more work, of a candidate. -/
def Node.Leaves (n : Node) (A A' : List ℕ) : Prop :=
  ∃ x m t l, A' = x :: m ∧ t ∈ n.setBlockIndexValid ∧ n.ledger.Chain (t :: l) ∧
    A' <:+ t :: l ∧ ∀ a ∈ A.head?, n.chainWork a < n.chainWork x

/-- **`ConnectBestBlock`** keeps to the chain, or moves to one with more work. -/
theorem Aligned.connectBestBlock (S : Aligned env n A)
    (h : connectBestBlock env fuel now fIBD rounds n = some (n', res)) :
    ∃ A', Aligned env n' A' ∧ (A' = A ∨ n.Leaves A A') := by
  induction rounds generalizing n with
  | zero => cases h
  | succ rounds ih =>
    rcases S.connectBestBlock_round fuel rounds now fIBD with ⟨he, -⟩ |
      ⟨t, l, hbest, hl, ⟨above, hf, he⟩ | ⟨best, hb, -, hun, he⟩⟩
    · rw [he] at h
      cases h
      exact ⟨A, S, Or.inl rfl⟩
    · -- a failed ancestor: its candidates above are given up
      rw [he] at h
      obtain ⟨p, hp⟩ := hl.index_eq mem_cons_self
      obtain ⟨S₁, hcand⟩ := S.mark_above hp hf
      have hs := (Node.SameTree.across env).foldl_markFailedChild above n
      obtain ⟨A', S', hA'⟩ := ih S₁ h
      refine ⟨A', S', hA'.imp id ?_⟩
      rintro ⟨x, m, t', l', he, ht', hl', hsuf, hw⟩
      rw [hs.ledger] at hl'
      have hcw : (above.foldl markFailedChild n).chainWork = n.chainWork := by
        funext y
        unfold Node.chainWork
        rw [Node.index_congr hs.ledger]
      rw [hcw] at hw
      exact ⟨x, m, t', l', he, hcand t' ht', hl', hsuf, hw⟩
    · rw [he] at h
      have hv : ∀ x ∈ (n.heavier best (t :: l)).reverse,
          x ∈ t :: l ∧ n.chainWork best < n.chainWork x := fun x hx => by
        simpa [Node.heavier] using hx
      obtain ⟨A', S', hA', -⟩ := S.switchAll hl hun
        (fun m m' hm => (Node.SameTree.across env).reconnected hm) (fun x hx => (hv x hx).1) h
      refine ⟨A', S', hA'.imp id ?_⟩
      rintro ⟨x, hx, m, he, hsuf⟩
      refine ⟨x, m, t, l, he, Node.bestCandidate_mem hbest, hl, hsuf, fun a ha => ?_⟩
      rw [← S.best, hb, Option.mem_some_iff] at ha
      rw [← ha]
      exact (hv x hx).2

/-- Neither the block of the soft checkpoint nor an ancestor of it has failed. -/
def Node.SoftCPUnfailed (n : Node) : Prop :=
  ∀ l, n.ledger.Chain (n.lastSoftCP.2 :: l) →
    ∀ x ∈ n.lastSoftCP.2 :: l, (n.nStatus x).failed = false

section

variable (S : Aligned env n A)

include S

lemma Aligned.findInMainChain (hl : n.ledger.Chain (t :: l))
    (hfuel : l.length < fuel) : (n.findInMainChain fuel t).isSome = true := by
  induction fuel generalizing t l with
  | zero => omega
  | succ fuel ih =>
    unfold Node.findInMainChain
    by_cases hm : n.isInMainChain t = true
    · rw [if_pos hm]
      rfl
    rw [if_neg hm]
    cases l with
    | nil =>
      have hg := hl.getLast_root S.tree
      rw [mem_singleton] at hg
      exact absurd (S.isInMainChain_iff.mpr (hg ▸ S.chain.getLast_root S.tree)) hm
    | cons q l =>
      have hq : n.pprev t = some q := hl.pprev_eq
      rw [hq, Option.bind_some]
      exact ih (hl.of_cons (by simp)) (by simpa using hfuel)

/-- **`SetSoftCPBestChain`**: there is nothing to do, or the chain of the soft checkpoint is
joined, or it does not make it. -/
theorem Aligned.setSoftCPBestChain (hun : n.SoftCPUnfailed)
    (h : setSoftCPBestChain env fuel rounds now fIBD n = some n') :
    (n' = n ∧ (n.lastSoftCP.1 = 0 ∨ n.index n.lastSoftCP.2 = none ∨ n.lastSoftCP.2 ∈ A)) ∨
      ∃ l, n.ledger.Chain (n.lastSoftCP.2 :: l) ∧ n.isInMainChain n.lastSoftCP.2 = false ∧
        (Aligned env n' (n.lastSoftCP.2 :: l) ∨
          (Aligned env n' A ∧ n.Blocked n' env A (n.lastSoftCP.2 :: l))) := by
  unfold FreechCore.setSoftCPBestChain at h
  dsimp only at h
  split_ifs at h with hc
  · obtain ⟨-, hknown, hoff⟩ := hc
    obtain ⟨p, hp⟩ := (StdMap.contains_iff _ _).mp hknown
    obtain ⟨l, hl⟩ := S.tree.exists_chain (show n.ledger.index _ = some p from hp)
    have hlen : l.length < n.heightOf n.lastSoftCP.2 + 1 := by
      have : n.heightOf n.lastSoftCP.2 = l.length := hl.height S.tree
      omega
    obtain ⟨z, hz⟩ := Option.isSome_iff_exists.mp (S.findInMainChain hl hlen)
    simp only [hz] at h
    obtain ⟨⟨n₁, res⟩, hr, rfl⟩ := Option.map_eq_some_iff.mp h
    refine Or.inr ⟨l, hl, hoff, ?_⟩
    rcases S.setBestChain hl (hun l hl) hr with ⟨-, S₁, -⟩ | ⟨-, S₁, hb⟩
    · exact Or.inl S₁
    · exact Or.inr ⟨S₁, hb⟩
  · cases h
    refine Or.inl ⟨rfl, ?_⟩
    by_contra hno
    rw [not_or, not_or] at hno
    obtain ⟨h1, h2, h3⟩ := hno
    exact hc ⟨h1, Option.isSome_iff_ne_none.mpr h2, S.isInMainChain_eq_false h3⟩

lemma Aligned.softCP (cp : Checkpoint) :
    Aligned env { n with lastSoftCP := cp } A :=
  S.mark ⟨rfl, rfl, rfl, rfl, rfl, rfl, rfl⟩ S.unfailed fun _ => id

lemma Aligned.store {b : CBlock} {pos : CDiskBlockPos}
    (hfit : n.Fits env b pos) : Aligned env (n.store env b pos) A := by
  have G := hfit.grewTo
  have hst := store_stores n env b pos
  have hg : (n.index (hashGenesisBlock env)).isSome = true := by
    obtain ⟨p, hp⟩ := S.chain.index_eq (S.chain.getLast_root S.tree)
    exact Option.isSome_iff_exists.mpr ⟨p, hp⟩
  have hold : ∀ h ∈ A, h ≠ getHash env b := by
    rintro h hh rfl
    obtain ⟨p, hp⟩ := S.chain.index_eq hh
    have hp' : n.index (getHash env b) = some p := hp
    rw [hfit.hash] at hp'
    cases hp'
  refine ⟨hfit.tree S.tree hg, hfit.grows.chain S.chain, G.vec.trans S.vec,
    G.height.trans S.height, G.coins.trans S.coins, G.best.trans S.best, fun h hh => ?_,
    S.undoable.grow G S.tree fun h hh => S.chain.index_eq hh, S.work.store S.tree hfit,
    fun h hh => ?_⟩
  · rw [hst.failed, if_neg (hold h hh)]
    exact S.unfailed h hh
  · rw [hst.candidates] at hh
    rw [store_index]
    split_ifs with he
    · rfl
    · exact S.known h ((mem_cons.mp hh).resolve_left he)

end

lemma Fresh.aligned (F : Fresh env n) : Aligned env n [hashGenesisBlock env] := by
  have W := F.settled.working
  refine ⟨W.tree, W.chainA, W.vec, W.best, F.settled.coins, F.settled.best,
    fun h _ => F.failed h, ⟨fun h hh => W.solid h (Or.inl hh), W.undo⟩, F.workGrows,
    fun h hh => ?_⟩
  rw [F.candidates, mem_singleton] at hh
  rw [hh]
  exact F.settled.genesis

lemma Move.aligned (hm : Move env C F n n') (hF : ∀ m, F m → m.SoftCPUnfailed)
    (S : Aligned env n A) : ∃ A', Aligned env n' A' := by
  cases hm with
  | store hfit => exact ⟨A, S.store hfit⟩
  | connect _ h =>
    obtain ⟨A', S', -⟩ := S.connectBestBlock h
    exact ⟨A', S'⟩
  | adopt cp => exact ⟨A, S.softCP cp⟩
  | follow hf h =>
    rcases S.setSoftCPBestChain (hF _ hf) h with ⟨rfl, -⟩ | ⟨l, -, -, S' | ⟨S', -⟩⟩
    · exact ⟨A, S⟩
    · exact ⟨_, S'⟩
    · exact ⟨_, S'⟩

lemma MovedTo.aligned (hF : ∀ m, F m → m.SoftCPUnfailed) (hr : MovedTo env C F n) :
    ∃ A, Aligned env n A :=
  hr.invariant (X := fun n => ∃ A, Aligned env n A) (fun _ hn => ⟨_, hn.fresh.aligned⟩)
    fun _ _ hm ⟨_, S⟩ => hm.aligned hF S

end Moves

/-! ### The vector -/

/-- The vector lists the ancestors of the best block by their heights and nothing else, the
best block of the view is the same, and no block of the chain has failed. -/
def Node.Lined (n : Node) : Prop :=
  ∃ A, n.Active A ∧ n.nBestHeight = (A.length : ℤ) - 1 ∧ n.coinsTip = n.pindexBest ∧
    ∀ h ∈ A, (n.nStatus h).failed = false

/-- **The active chain**, in every run in which `SetSoftCPBestChain` is called only while
neither the block of the soft checkpoint nor an ancestor of it has failed. -/
theorem lined_of_unfailed {env : Env} {n : Node}
    (hr : MovedTo env (fun _ => True) Node.SoftCPUnfailed n) : n.Lined := by
  obtain ⟨A, S⟩ := hr.aligned fun _ => id
  exact ⟨A, ⟨S.chain, S.best, S.vec⟩, S.height, S.coins.trans S.best.symm, S.unfailed⟩

end

namespace Toy

/-- What a node is told to do. -/
inductive MoveAct
  | store (b : CBlock)
  | connect
  | adopt (cp : Checkpoint)
  | follow

/-- Do it, if the calls meet their conditions. -/
def MoveAct.perform (checkC checkF : Node → Bool) (n : Node) : MoveAct → Option Node
  | .store b => if fitsIn cpEnv n b then some (n.store cpEnv b ⟨0, getHash cpEnv b⟩) else none
  | .connect =>
    if checkC n then (connectBestBlock cpEnv 20 10000000 false 20 n).map Prod.fst else none
  | .adopt cp => some { n with lastSoftCP := cp }
  | .follow => if checkF n then setSoftCPBestChain cpEnv 20 20 10000000 false n else none

def performMoves (checkC checkF : Node → Bool) : List MoveAct → Option Node
  | [] => startedIn cpEnv
  | a :: acts => (performMoves checkC checkF acts).bind fun n => a.perform checkC checkF n

lemma move_of_perform {checkC checkF : Node → Bool} {a : MoveAct} {n n' : Node}
    (hC : ∀ n, checkC n = true → C n) (hF : ∀ n, checkF n = true → F n)
    (h : a.perform checkC checkF n = some n') : Move cpEnv C F n n' := by
  cases a with
  | store b =>
    simp only [MoveAct.perform] at h
    split_ifs at h with hf
    cases h
    exact .store (fitsIn_of_eq hf)
  | connect =>
    simp only [MoveAct.perform] at h
    split_ifs at h with hc
    obtain ⟨⟨n₁, r⟩, hr, rfl⟩ := Option.map_eq_some_iff.mp h
    exact .connect (hC n hc) hr
  | adopt cp =>
    cases h
    exact .adopt cp
  | follow =>
    simp only [MoveAct.perform] at h
    split_ifs at h with hf
    exact .follow (hF n hf) h

lemma movedTo_of_performMoves {checkC checkF : Node → Bool} {acts : List MoveAct} {n : Node}
    (hC : ∀ n, checkC n = true → C n) (hF : ∀ n, checkF n = true → F n)
    (h : performMoves checkC checkF acts = some n) :
    MovedTo cpEnv C F n := by
  induction acts generalizing n with
  | nil => exact ⟨n, startedIn_of_eq h, .refl⟩
  | cons a acts ih =>
    obtain ⟨n₁, h₁, h₂⟩ := Option.bind_eq_some_iff.mp h
    obtain ⟨n₀, h₀, hrun⟩ := ih h₁
    exact ⟨n₀, h₀, hrun.tail (move_of_perform hC hF h₂)⟩

def softChain (n : Node) : Option (List ℕ) := n.ledger.path 20 n.lastSoftCP.2

lemma eq_of_softChain {n : Node} {D l : List ℕ} (h : softChain n = some D)
    (hl : n.ledger.Chain (n.lastSoftCP.2 :: l)) : D = n.lastSoftCP.2 :: l := by
  obtain ⟨hD, hhead⟩ := Ledger.chain_of_path h
  obtain ⟨l', rfl⟩ := List.head?_eq_some_iff.mp hhead
  rw [hD.unique hl]

def softUnfailed (n : Node) : Bool :=
  match softChain n with
  | some D => D.all fun x => !(n.nStatus x).failed
  | none => false

lemma unfailed_of_softUnfailed {n : Node} (h : softUnfailed n = true) : n.SoftCPUnfailed := by
  intro l hl x hx
  unfold softUnfailed at h
  split at h
  · rename_i D hD
    rw [all_eq_true] at h
    simpa using h x (eq_of_softChain hD hl ▸ hx)
  · cases h

def twoBlocks : List MoveAct :=
  [.adopt (1, 3), .connect, .store (cpBlock 3 1 1 spam []), .connect,
    .store (cpBlock 2 1 1 spam [])]

end Toy

open Toy in
/-- The node moves to the block of its soft checkpoint. -/
theorem lined_twins : ∃ n, MovedTo cpEnv (fun _ => True) Node.SoftCPUnfailed n ∧
    n.pindexBest = some 3 ∧ n.Lined := by
  obtain ⟨n, hn, hbest⟩ := Option.map_eq_some_iff.mp (by decide +kernel :
    (performMoves (fun _ => true) softUnfailed (.follow :: twoBlocks)).map Node.pindexBest =
      some (some 3))
  have hm := movedTo_of_performMoves (fun _ _ => trivial) (fun _ => unfailed_of_softUnfailed) hn
  exact ⟨n, hm, hbest, lined_of_unfailed hm⟩

namespace Toy

/-- A block that connects nowhere: its message is signed by nobody known. -/
def unsigned : CTransaction := spamBy (ascii "x") [9]

/-- A branch with an invalid second block, on which three users vote for a block at height
six. -/
def votedFailed : List Delivery :=
  .block electorate :: blocksOn 2 2 [3] ++ blocksOn 2 2 [13] ++
    .block (cpBlock 14 13 3 unsigned []) :: blocksOn 14 4 [15, 16, 17] ++ votes (6, 17)

lemma votedFailed_facts : (receiveFresh votedFailed).map (fun s => (s.node.pindexBest,
    s.node.coinsTip, s.node.vBlockIndexByHeight, (s.node.nStatus 17).failed)) =
      some (some 17, some 13, [some 1, some 2, some 13, none, none, none, none], true) := by
  decide +kernel

end Toy

open Toy in
/-- After the votes the best block is a failed one, the best block of the view is another one,
and there are empty places in the vector. -/
theorem not_lined_votedFailed : ∃ s, SoftReached cpEnv (signedIn votedFailed) s ∧
    s.node.pindexBest = some 17 ∧ s.node.coinsTip = some 13 ∧
      s.node.vBlockIndexByHeight = [some 1, some 2, some 13, none, none, none, none] ∧
        (s.node.nStatus 17).failed = true ∧ ¬ s.node.Lined := by
  obtain ⟨s, hs, he⟩ := Option.map_eq_some_iff.mp votedFailed_facts
  simp only [Prod.mk.injEq] at he
  obtain ⟨hbest, hcoins, hvec, hfailed⟩ := he
  refine ⟨s, softReached_of_receiveFresh hs, hbest, hcoins, hvec, hfailed, ?_⟩
  rintro ⟨A, -, -, htip, -⟩
  rw [hbest, hcoins] at htip
  cases htip

end FreechCore
