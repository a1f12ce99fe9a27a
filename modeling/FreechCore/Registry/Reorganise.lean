import FreechCore.Registry.Switch

/-!
`SetBestChain` as a whole. From a settled state it either refuses, or gives up on a block of
the new branch that does not connect, or settles on the new chain.
-/

namespace FreechCore

open BackLink Ledger List

variable {u : Bytes}

/-- A switch to `t`: the branch `dis` of the active chain is left for the branch `con` of the
chain of `t`, at the fork `f`. -/
structure Node.Branches (n : Node) (t : ℕ) (dis con : List ℕ) (f : ℕ) (l : List ℕ) : Prop where
  fork : n.ledger.Fork dis con f l
  tip : n.coinsTip = (dis ++ f :: l).head?
  target : (con ++ f :: l).head? = some t

variable {n n' n₁ : Node} {t f fuel : ℕ} {l dis con A : List ℕ} {env : Env} {now : ℤ} {fIBD : Bool}
  {reconnect : Node → Option Node}

lemma Node.Branches.extension (hch : n.ledger.Chain (t :: f :: l)) (hcoins : n.coinsTip = some f) :
    n.Branches t [] [t] f l :=
  ⟨⟨hch.of_cons (by simp), hch, by simp⟩, hcoins, rfl⟩

variable {W up F done : List ℕ} {res : Check} {L : Ledger} {x : ℕ}

lemma head?_height (T : n.ledger.Tree env) {a : ℕ} (hW : n.ledger.Chain W) (ha : W.head? = some a) :
    n.heightOf a + 1 = W.length := by
  obtain ⟨m, rfl⟩ := List.head?_eq_some_iff.mp ha
  exact congrArg (· + 1) (hW.height T)

/-- **What a switch does**: it collects the two branches, and refuses the one that is too
short. -/
theorem setBestChain_eq (T : n.ledger.Tree env) (B : n.Branches t dis con f l) :
    ∃ n₁, Collected n n₁ con ∧ setBestChain env fuel now fIBD reconnect n t =
      if (n.joinable con).length < dis.length then some (n₁, .error shorterChain)
      else reorganise env fuel now fIBD reconnect n₁ t dis (n.joinable con) := by
  obtain ⟨a, ha⟩ : ∃ a, (dis ++ f :: l).head? = some a := by
    cases dis with
    | nil => exact ⟨f, rfl⟩
    | cons d dis => exact ⟨d, rfl⟩
  have hla := head?_height T B.fork.left ha
  have hlt := head?_height T B.fork.right B.target
  simp only [length_append, length_cons] at hla hlt
  have hnd : con.Nodup := (nodup_append.mp (B.fork.right.nodup T)).1
  obtain ⟨n₁, hcol, C⟩ := foldl_collectStep n hnd
  refine ⟨n₁, C, ?_⟩
  have hfork : findFork n (n.heightOf t + n.heightOf a + 2) (some a) t = some (some f) :=
    findFork_eq T B.fork ha B.target (by omega)
  have hdis : walkTo n (some f) (n.heightOf a + 1) _ = some dis := walkTo_eq T B.fork.left (by omega)
  have hcon : walkTo n (some f) (n.heightOf t + 1) _ = some con := walkTo_eq T B.fork.right (by omega)
  rw [ha] at hdis
  rw [B.target] at hcon
  unfold setBestChain
  simp only [B.tip, ha, Option.map_some, Option.getD_some, hfork, hdis, hcon, hcol,
    reverse_reverse]

lemma setBestChain_eq_of_unfailed (T : n.ledger.Tree env) (B : n.Branches t dis con f l)
    (hun : ∀ x ∈ con, (n.nStatus x).failed = false) :
    setBestChain env fuel now fIBD reconnect n t =
      if con.length < dis.length then some (n, .error shorterChain)
      else reorganise env fuel now fIBD reconnect n t dis con.reverse := by
  obtain ⟨n₁, C, heq⟩ := setBestChain_eq T B
  rw [heq, C.eq hun, joinable_eq_reverse.mpr hun, length_reverse]

/-- **How a switch goes on** once the old branch is disconnected: all blocks of the new one are
connected and it takes effect, or one of them does not connect. -/
lemma reorganise_cases {view : Option ℕ} {v : List CTransaction}
    (hd : disconnectAll env n n.coinsTip dis = some (n₁, view, .ok v))
    (hr : reorganise env fuel now fIBD reconnect n t dis up = some (n', res)) :
    (∃ n₂ view₂ w, connectAll env fuel now n₁ view up = some (n₂, view₂, .ok w) ∧
        switchTo env fuel fIBD n₂ view₂ t up v w = some n' ∧ res = .ok ()) ∨
      ∃ n₂ view₂ bad e, connectAll env fuel now n₁ view up = some (n₂, view₂, .error (bad, e)) ∧
        res ≠ .ok () ∧ ((e.isInvalid = true ∧ invalidBlockFound reconnect n₂ bad = some n') ∨
          (e.isInvalid = false ∧ n' = n₂)) := by
  unfold reorganise at hr
  rw [hd] at hr
  simp only at hr
  split at hr
  · cases hr
  · rename_i n₂ view₂ bad e hc
    refine Or.inr ⟨n₂, view₂, bad, e, hc, ?_⟩
    split_ifs at hr with hi
    · obtain ⟨n₃, hf, he⟩ := Option.map_eq_some_iff.mp hr
      cases he
      exact ⟨by simp, Or.inl ⟨hi, hf⟩⟩
    · cases hr
      exact ⟨by simp, Or.inr ⟨by simpa using hi, rfl⟩⟩
  · rename_i n₂ view₂ w hc
    obtain ⟨n₃, hs, he⟩ := Option.map_eq_some_iff.mp hr
    cases he
    exact Or.inl ⟨n₂, view₂, w, hc, hs, rfl⟩

/-! ### A switch that goes through -/

/-- No block of the branch `con` finds a stale key when it takes the place of the part of `A`
above `F`. -/
def Node.CleanBranch (n : Node) (env : Env) (A F con : List ℕ) : Prop :=
  ∀ hi x lo, con = hi ++ x :: lo → ∀ u, n.ledger.registers u x = true →
    n.ledger.history u (lo ++ F) = [] →
      (∀ y, n.under env A u = some y → y = x ∨ (y ∈ A ∧ n.ledger.ht x < n.ledger.ht y)) →
        n.entries env u (n.ledger.ht x - 1) = none

lemma cleanBranch_of_free (h : ∀ x ∈ con, ∀ tx ∈ n.ledger.registrations x,
    n.entries env tx.getUsername (n.ledger.ht x - 1) = none) : n.CleanBranch env A F con := by
  intro hi x lo he u hu _ _
  obtain ⟨tx, htx⟩ := Option.isSome_iff_exists.mp hu
  rw [← registration_name htx]
  exact h x (by rw [he]; simp) tx (mem_of_find?_eq_some htx)

/-- What a switch from `dis ++ F` to `con ++ F` leads to. -/
structure Reorganised (env : Env) (dis con F : List ℕ) (n n' : Node) : Prop where
  settled : Settled env n' (con ++ F)
  tidy : n.Tidy env (dis ++ F) (dis ++ F) → n.CleanBranch env (dis ++ F) F con →
    n'.Tidy env (con ++ F) (con ++ F)
  keys : ∀ u k, k ≠ -1 → (∀ x ∈ con, k ≠ n.ledger.ht x - 1) →
    n'.entries env u k = n.entries env u k
  newest : ∀ u, n.ledger.history u (con ++ F) = [] →
    n'.entries env u (-1) = n.under env (dis ++ F) u
  ledger : n'.ledger = n.ledger
  failed : ∀ h, (n'.nStatus h).failed = (n.nStatus h).failed
  candidates : n'.setBlockIndexValid = n.setBlockIndexValid
  softCP : n'.lastSoftCP = n.lastSoftCP
  disk : n.OnDisk → n'.OnDisk
  allowed : ∀ hi x lo, con = hi ++ x :: lo → ∀ tx ∈ n.ledger.registrations x, ∀ y R,
    n.ledger.history tx.getUsername (lo ++ F) = y :: R → y ∈ dis ++ F →
      ∃ old, n.ledger.registration y tx.getUsername = some old ∧ Allowed env old tx

lemma Node.CleanBranch.unwound (hA : A = dis ++ F) (hc : n.CleanBranch env A F con)
    (U : Unwound env A F dis n n₁) (hD : n.ledger.Chain (con ++ F)) :
    n₁.TidyBranch env A F con.reverse := by
  intro lo x hi he u hu hR hy
  have hcon := eq_of_reverse_split he
  rw [U.ledger] at hu hR hy ⊢
  have hRF := history_right_nil hR
  have hx : x ∈ con ++ F := by rw [hcon]; simp
  obtain ⟨p, hp⟩ := hD.index_eq hx
  have hT : n.ledger.Tree env := U.ledger ▸ U.working.tree
  have hx0 := hT.height_pos hp hu
  rw [U.keys u _ (by omega)]
  rw [U.newest u hRF, ← hA] at hy
  exact hc _ x _ hcon u hu hR hy

/-- **A switch whose branch connects.** -/
theorem reorganise_ok (S : Settled env n (dis ++ F)) (hF : F ≠ [])
    (hD : n.ledger.Chain (con ++ F)) (ht : (con ++ F).head? = some t)
    (hlen : dis.length ≤ con.length)
    (hr : reorganise env fuel now fIBD reconnect n t dis con.reverse = some (n', .ok ())) :
    Reorganised env dis con F n n' := by
  obtain ⟨n₁, v, hdis, U⟩ := disconnectAll_ok S.working hF fun x hx => mem_append_left _ hx
  rw [← S.coins] at hdis
  rcases reorganise_cases hdis hr with ⟨n₂, view₂, w, hcon, hs, -⟩ | ⟨_, _, _, _, -, hno, -⟩
  · have hD₁ : n₁.ledger.Chain (con.reverse.reverse ++ F) := by
      rw [U.ledger, reverse_reverse]
      exact hD
    obtain ⟨rfl, J⟩ := connectAll_ok U.working hD₁ hcon
    have hJ := J.working
    rw [reverse_reverse] at hs hJ
    obtain ⟨hset, htidy⟩ := switchTo_settled hJ ht hlen hs
    have he := switchTo_eq hs
    have hfr := U.frame.trans J.frame
    have hn₂ : n'.entries env = n₂.entries env := by rw [he]; rfl
    refine ⟨hset, fun htn hc => htidy ?_, fun u k hk hku => ?_, fun u hu => ?_, ?_, fun h => ?_, ?_,
      ?_, fun hd => ?_, ?_⟩
    · have := J.tidy (U.tidy htn) (hc.unwound rfl U hD)
      rwa [reverse_reverse] at this
    · rw [hn₂, J.keys u k hk (by rw [U.ledger]; simpa using hku), U.keys u k hk]
    · rw [history_append, append_eq_nil_iff] at hu
      rw [hn₂, J.rows u fun x hx => ?_, U.newest u hu.2]
      rw [U.ledger]
      exact not_registers_of_history_nil hu.1 (mem_reverse.mp hx)
    · rw [← hfr.ledger, he]; rfl
    · rw [← hfr.failed, he]; rfl
    · rw [← hfr.candidates, he]; rfl
    · rw [← hfr.softCP, he]; rfl
    · rw [he]; exact hfr.disk hd
    · intro hi x lo hcon' tx htx y R hR hy
      have := J.allowed lo.reverse x hi.reverse (by rw [hcon']; simp) tx
      rw [U.ledger, reverse_reverse] at this
      exact this htx y R hR hy
  · exact absurd rfl hno

/-! ### A switch that is given up -/

/-- No two blocks of a branch register the same name. -/
def Ledger.NamesOnce (L : Ledger) (con : List ℕ) : Prop :=
  con.Pairwise fun x y => ∀ u, L.registers u x = true → L.registers u y = false

/-- Nothing a switch does on its way touches a name of the active chain. -/
structure Node.Untouched (n : Node) (env : Env) (dis con F : List ℕ) : Prop where
  links : ∀ x ∈ dis, ∀ u, n.ledger.registers u x = true →
    n.entries env u (n.ledger.ht x - 1) = none
  names : ∀ x ∈ con, ∀ u, n.ledger.registers u x = true → n.ledger.history u (dis ++ F) = []

lemma Ledger.NamesOnce.unique {y : ℕ} (h : L.NamesOnce con) (hx : x ∈ con) (hy : y ∈ con)
    (hxu : L.registers u x = true) (hyu : L.registers u y = true) : x = y := by
  induction con with
  | nil => cases hx
  | cons z con ih =>
    obtain ⟨hz, hcon⟩ := pairwise_cons.mp h
    have hno : ∀ w ∈ con, L.registers u z = true → L.registers u w ≠ true := fun w hw hzu => by
      simp [hz w hw u hzu]
    rcases mem_cons.mp hx with rfl | hx' <;> rcases mem_cons.mp hy with rfl | hy'
    · rfl
    · exact absurd hyu (hno y hy' hxu)
    · exact absurd hxu (hno x hx' hyu)
    · exact ih hcon hx' hy'

section Failure

variable {view' : Option ℕ} {bad : ℕ} {f : Failure}

/-- The block `bad` does not connect on top of `W`. -/
def Refused (env : Env) (fuel : ℕ) (now : ℤ) (W : List ℕ) (bad : ℕ) (n n' : Node) (f : Failure) :
    Prop :=
  (n.readBlockFromDisk env bad = none ∧ n' = n ∧ f = .error ["Failed to read block"]) ∨
    ∃ p b, n.ledger.Stored env bad p b ∧ n.readBlockFromDisk env bad = some b ∧
      connectBlock env fuel now n W.head? bad p b false = some (n', W.head?, .error f)

lemma connectAll_error (h : Working env n A W) (hup : n.ledger.Chain (up.reverse ++ W))
    (hc : connectAll env fuel now n W.head? up = some (n', view', .error (bad, f))) :
    ∃ done rest n₁, up = done ++ bad :: rest ∧ Joined env A W done n n₁ ∧
      Refused env fuel now (done.reverse ++ W) bad n₁ n' f := by
  induction up generalizing n W with
  | nil => simp [connectAll] at hc
  | cons x up ih =>
    have hx : n.ledger.Chain (x :: W) := hup.of_up
    obtain ⟨p, hp⟩ := hx.index_eq mem_cons_self
    rcases connectAll_cons_error hp hc with ⟨hb, rfl, rfl, rfl⟩ | ⟨b, hb, hcase⟩
    · exact ⟨[], up, _, rfl, .refl h, Or.inl ⟨hb, rfl, rfl⟩⟩
    have B := stored_of_readBlockFromDisk h.tree hp hb
    rcases hcase with ⟨rfl, hcb⟩ | ⟨n₁, view₁, hcb, hall⟩
    · obtain ⟨rfl, -⟩ := connectBlock_error hcb
      exact ⟨[], up, n, rfl, .refl h, Or.inr ⟨p, b, B, hb, hcb⟩⟩
    · obtain ⟨rfl, C⟩ := h.connectBlock B hx hcb
      have hup₁ : n₁.ledger.Chain (up.reverse ++ x :: W) := by
        rw [C.frame.ledger]
        simpa using hup
      obtain ⟨done, rest, n₂, rfl, J, hbad⟩ := ih C.working hup₁ hall
      exact ⟨x :: done, rest, n₂, rfl, J.cons C, by simpa using hbad⟩

lemma Refused.overwritten (h : Working env n A W) (hx : n.ledger.Chain (bad :: W))
    (hr : Refused env fuel now W bad n n' f) :
    Overwritten env A W (n.ledger.registrations bad) n n' (.error f) := by
  rcases hr with ⟨-, rfl, -⟩ | ⟨p, b, B, -, hc⟩
  · exact .refl h
  · have hH : b.nHeight = W.length := by
      rw [B.height, ← heightOf_eq B.index, hx.height h.tree]
    rcases (connectBlock_error hc).2 with ⟨rfl, -⟩ | ⟨-, _, -, ⟨rfl, -⟩ | ⟨-, ho⟩⟩
    · exact .refl h
    · exact .refl h
    · rw [hH] at ho
      rw [B.registrations_eq]
      exact checkOverwrite_overwritten h ho

/-- At most the block `bad` is marked as failed. -/
structure Marked (bad : ℕ) (n n' : Node) : Prop where
  same : n.SameChain n'
  disk : n.OnDisk → n'.OnDisk
  listed : n.Listed → n'.Listed
  failed : ∀ h, (n'.nStatus h).failed = true → h = bad ∨ (n.nStatus h).failed = true

lemma Marked.refl (bad : ℕ) (n : Node) : Marked bad n n := ⟨.refl n, id, id, fun _ => Or.inr⟩

lemma markFailedValid_failed (n : Node) (bad h : ℕ) :
    ((markFailedValid n bad).nStatus h).failed = true ↔ h = bad ∨ (n.nStatus h).failed = true := by
  by_cases he : h = bad
  · simp [markFailedValid, Node.eraseValid, Node.setStatus, BlockStatus.failed, he]
  · simp [markFailedValid, Node.eraseValid, Node.setStatus, he]

lemma Marked.markFailedValid (n : Node) (bad : ℕ) : Marked bad n (markFailedValid n bad) := by
  have hs := (Node.SameChain.setStatus n bad fun s => { s with failedValid := true }).trans
    ((Node.SameChain.writeBlockIndex _ bad).trans (Node.SameChain.eraseValid _ bad))
  refine ⟨hs, fun hd => ?_, fun hl => ?_, fun h => (markFailedValid_failed n bad h).mp⟩
  · exact hd.writeBlockIndex (fun _ => Or.inl rfl) rfl fun h' hne =>
      ⟨by simp [Node.setStatus, hne], rfl⟩
  · refine hl.mark hs.ledger ?_ (markFailedValid_failed n bad)
    simp [FreechCore.markFailedValid, Node.eraseValid, Node.setStatus]

lemma invalidBlockFound_off (hb : n.isInMainChain bad = false) :
    invalidBlockFound reconnect n bad = some (markFailedValid n bad) := by
  have hb' : (markFailedValid n bad).isInMainChain bad = false := by
    have hs := (Marked.markFailedValid n bad).same
    have hh : (markFailedValid n bad).heightOf bad = n.heightOf bad :=
      congrArg (heightOf · bad) hs.ledger
    unfold Node.isInMainChain at hb ⊢
    rw [hs.vec, hh]
    exact hb
  have hnext : (markFailedValid n bad).getNextInMainChain bad = none := by
    simp [Node.getNextInMainChain, hb']
  simp [invalidBlockFound, hnext]

/-- How a switch is given up: `dis` is disconnected, `done` is connected, `bad` is refused. -/
structure GivenUp (env : Env) (fuel : ℕ) (now : ℤ) (dis F up done : List ℕ) (bad : ℕ)
    (n n₁ n₂ n₃ n' : Node) (f : Failure) : Prop where
  split : ∃ rest, up = done ++ bad :: rest
  call : ∃ view, connectAll env fuel now n₁ F.head? up = some (n₃, view, .error (bad, f))
  unwound : Unwound env (dis ++ F) F dis n n₁
  joined : Joined env (dis ++ F) F done n₁ n₂
  refused : Refused env fuel now (done.reverse ++ F) bad n₂ n₃ f
  marked : Marked bad n₃ n'

/-- **A switch that is given up.** -/
theorem reorganise_error (S : Settled env n (dis ++ F)) (hF : F ≠ [])
    (hup : n.ledger.Chain (up.reverse ++ F)) (hoff : ∀ x ∈ up, x ∉ dis ++ F) {g : Failure}
    (hr : reorganise env fuel now fIBD reconnect n t dis up = some (n', .error g)) :
    ∃ done bad n₁ n₂ n₃ f, GivenUp env fuel now dis F up done bad n n₁ n₂ n₃ n' f := by
  obtain ⟨n₁, v, hdis, U⟩ := disconnectAll_ok S.working hF fun x hx => mem_append_left _ hx
  rw [← S.coins] at hdis
  rcases reorganise_cases hdis hr with ⟨_, _, _, -, -, hno⟩ | ⟨n₃, view₃, bad, f, hcon, -, hend⟩
  · cases hno
  · have hup₁ : n₁.ledger.Chain (up.reverse ++ F) := by rw [U.ledger]; exact hup
    obtain ⟨done, rest, n₂, rfl, J, hbad⟩ := connectAll_error U.working hup₁ hcon
    refine ⟨done, bad, n₁, n₂, n₃, f, ⟨rest, rfl⟩, ⟨_, hcon⟩, U, J, hbad, ?_⟩
    rcases hend with ⟨-, hend⟩ | ⟨-, rfl⟩
    · have hch : n₂.ledger.Chain (bad :: (done.reverse ++ F)) := by
        rw [J.frame.ledger]
        exact hup₁.under (reverse_reverse _)
      have O := hbad.overwritten J.working hch
      have hb := O.working.isInMainChain_eq_false (hoff bad (by simp))
      rw [invalidBlockFound_off hb, Option.some.injEq] at hend
      exact hend ▸ .markFailedValid n₃ bad
    · exact .refl bad _

namespace GivenUp

variable {n₂ n₃ : Node} {e : Failure}

section

variable (G : GivenUp env fuel now dis F up done bad n n₁ n₂ n₃ n' e)

include G

lemma overwritten (hch : n.ledger.Chain (bad :: (done.reverse ++ F))) :
    Overwritten env (dis ++ F) (done.reverse ++ F) (n.ledger.registrations bad) n₂ n₃ (.error e) := by
  have hL : n₂.ledger = n.ledger := G.joined.frame.ledger.trans G.unwound.ledger
  rw [← hL] at hch ⊢
  exact G.refused.overwritten G.joined.working hch

lemma frame (hch : n.ledger.Chain (bad :: (done.reverse ++ F))) : n.Frame n₃ := by
  refine G.unwound.frame.trans (G.joined.frame.trans ?_)
  rw [(G.overwritten hch).same]
  exact .txIndex n₂ _

lemma entries_eq : n'.entries env = n₃.entries env := by
  unfold Node.entries
  rw [G.marked.same.ledger, G.marked.same.txIndex]

lemma rows (hdis : ∀ x ∈ dis, n.ledger.registers u x = true →
      n.entries env u (n.ledger.ht x - 1) = none)
    (hdone : ∀ x ∈ done, n.ledger.registers u x = false)
    (hbad : n₃.entries env u = n₂.entries env u) : n'.entries env u = n.entries env u := by
  rw [G.entries_eq, hbad, G.joined.rows u (by rw [G.unwound.ledger]; exact hdone),
    G.unwound.rows u hdis]

/-- **A switch that is given up leaves the node settled**, if it did not touch the names of
the active chain. -/
lemma settled (S : Settled env n (dis ++ F)) (hch : n.ledger.Chain (bad :: (done.reverse ++ F)))
    (hrows : ∀ u, n.ledger.history u (dis ++ F) ≠ [] → n'.entries env u = n.entries env u) :
    Settled env n' (dis ++ F) := by
  have h₃ := (G.overwritten hch).working
  have hfr := G.frame hch
  have hs := G.marked.same
  have hL : n'.ledger = n.ledger := hs.ledger.trans hfr.ledger
  refine ⟨⟨?_, ?_, ?_, ?_, ?_, ?_, ?_, ?_, fun u => ?_⟩, ?_, ?_⟩
  · rw [hL]; exact S.working.tree
  · rw [hs.ledger, hs.txIndex]; exact h₃.sound
  · rw [hL]; exact S.working.chainA
  · rw [hL]; exact S.working.chainA
  · rw [hs.vec, hfr.vec]; exact S.working.vec
  · rw [hs.height, hfr.height]; exact S.working.best
  · intro x hx
    exact (h₃.solid x (Or.inl (by simpa using hx))).mono hs.ledger (by rw [hs.undo]; exact id)
  · rw [hs.ledger, hs.undo]; exact h₃.undo
  · cases hR : n.ledger.history u (dis ++ F) with
    | nil => exact ⟨_, by rw [hL, hR, follows_nil]⟩
    | cons y R =>
      obtain ⟨r, hf⟩ := S.working.follows u
      rw [hrows u (by simp [hR]), hL]
      exact ⟨r, hf⟩
  · rw [hs.coins, hfr.coins]; exact S.coins
  · rw [hs.best, hfr.best]; exact S.best

end

lemma rows_extension (G : GivenUp env fuel now [] F up [] bad n n₁ n₂ n₃ n' e)
    (hch : n.ledger.Chain (bad :: F)) (u : Bytes) : n'.entries env u = n.entries env u := by
  refine G.rows (by simp) (by simp) ?_
  rcases (G.overwritten hch).rows u with h | ⟨-, ⟨hR, z, hz, hzA, -⟩, -⟩
  · exact h
  · exact absurd hzA (G.joined.working.not_mem_of_absent hR hz)

lemma rows_untouched (G : GivenUp env fuel now dis F up done bad n n₁ n₂ n₃ n' e)
    (hch : n.ledger.Chain (bad :: (done.reverse ++ F)))
    (hnames : ∀ x ∈ done ++ [bad], ∀ u, n.ledger.registers u x = true →
      n.ledger.history u (dis ++ F) = []) (hlinks : ∀ x ∈ dis, ∀ u, n.ledger.registers u x = true →
      n.entries env u (n.ledger.ht x - 1) = none) (hu : n.ledger.history u (dis ++ F) ≠ []) :
    n'.entries env u = n.entries env u := by
  refine G.rows (fun x hx hxu => hlinks x hx u hxu) (fun x hx => ?_) ?_
  · rw [← Bool.not_eq_true]
    exact fun hxu => hu (hnames x (mem_append_left _ hx) u hxu)
  · rcases (G.overwritten hch).rows u with h | ⟨⟨tx, htx, rfl⟩, -⟩
    · exact h
    · exact absurd (hnames bad (by simp) _ (registers_of_mem htx)) hu

end GivenUp

end Failure

/-! ### All outcomes -/

lemma Node.Branches.chain_reverse_joinable (B : n.Branches t dis con f l) :
    n.ledger.Chain ((n.joinable con).reverse ++ f :: l) := by
  obtain ⟨hi, hhi⟩ := exists_append_joinable n con
  refine Ledger.Chain.of_append (l := hi) ?_ (by simp)
  rw [← append_assoc, ← hhi]
  exact B.fork.right

lemma Node.Branches.chain_joinable (B : n.Branches t dis con f l) {rest : List ℕ}
    (hj : n.joinable con = done ++ x :: rest) : n.ledger.Chain (x :: (done.reverse ++ f :: l)) :=
  B.chain_reverse_joinable.under ((reverse_reverse _).trans hj)

lemma Settled.eq_left (S : Settled env n A) (B : n.Branches t dis con f l) : A = dis ++ f :: l := by
  have h := S.coins.symm.trans B.tip
  have hA := S.working.chainA
  have hl := B.fork.left
  cases hd : dis ++ f :: l with
  | nil => simp at hd
  | cons a m =>
    rw [hd] at h hl
    obtain ⟨m', rfl⟩ := List.head?_eq_some_iff.mp h
    rw [hA.unique hl]

/-- **The outcomes of a switch** from a settled state: the branch is refused as too short, or
it is joined, or the switch is given up at one of its blocks. -/
theorem setBestChain_cases (S : Settled env n (dis ++ f :: l)) (B : n.Branches t dis con f l)
    (h : setBestChain env fuel now fIBD reconnect n t = some (n', res)) :
    ((n.joinable con).length < dis.length ∧ res = .error shorterChain ∧ Collected n n' con) ∨
      (dis.length ≤ (n.joinable con).length ∧ res = .ok () ∧
        (n.joinable con = con.reverse → Reorganised env dis con (f :: l) n n')) ∨
      (dis.length ≤ (n.joinable con).length ∧ ∃ g n₀ done bad n₁ n₂ n₃ e, res = .error g ∧
        Collected n n₀ con ∧
        GivenUp env fuel now dis (f :: l) (n.joinable con) done bad n₀ n₁ n₂ n₃ n' e) := by
  obtain ⟨n₀, C, heq⟩ := setBestChain_eq S.working.tree B
  rw [heq] at h
  split_ifs at h with hlen
  · cases h
    exact Or.inl ⟨hlen, rfl, C⟩
  · have S₀ : Settled env n₀ (dis ++ f :: l) := S.congr C.same
    cases res with
    | ok v =>
      refine Or.inr (Or.inl ⟨not_lt.mp hlen, rfl, fun hj => ?_⟩)
      have hn₀ : n₀ = n := C.eq (joinable_eq_reverse.mp hj)
      rw [hj, length_reverse] at hlen
      rw [hj, hn₀] at h
      exact reorganise_ok S (by simp) B.fork.right B.target (not_lt.mp hlen) h
    | error g =>
      have hup : n₀.ledger.Chain ((n.joinable con).reverse ++ f :: l) := by
        rw [C.same.ledger]
        exact B.chain_reverse_joinable
      obtain ⟨done, bad, n₁, n₂, n₃, e, hG⟩ := reorganise_error S₀ (by simp) hup
        (fun x hx => B.fork.not_mem_left S.working.tree (joinable_subset hx)) h
      exact Or.inr (Or.inr ⟨not_lt.mp hlen, g, n₀, done, bad, n₁, n₂, n₃, e, rfl, C, hG⟩)

end FreechCore
