import FreechCore.Registry.Runs

/-!
Lookups over whole runs. Between calls of `SetBestChain` that go through, a lookup is right
as long as no block is connected over a stale key: a key under its height, left by a block
of another branch, that the block takes for the registration it replaces.
-/

namespace FreechCore

open BackLink

/-- A call of `SetBestChain` that goes through. -/
def Succeeds (env : Env) (c : Call) (n : Node) : Prop := ∃ n', c.run env n = some (n', .ok ())

/-- A call of `SetBestChain` that goes through and connects no block over a stale key. -/
def SwitchesClean (env : Env) (c : Call) (n : Node) : Prop :=
  Succeeds env c n ∧ ∃ dis con f l, n.Branches c.pindexNew dis con f l ∧
    n.CleanBranch env (dis ++ f :: l) (f :: l) con

/-- Every lookup returns, with the newest registration of the name on the chain that does not
lie above the given height. -/
def Node.LooksUp (n : Node) (env : Env) (A : List ℕ) : Prop :=
  ∀ u maxHeight, ∃ fuel, ∀ g ≥ fuel,
    getTransaction env g n u maxHeight = some (n.ledger.latest u A (n.heightBound maxHeight))

section Run

variable {env : Env} {c : Call} {n n' : Node} {A : List ℕ} {res : Check}

/-- A node between calls that all went through: the index agrees with the active chain `A`, no
block has failed, and the block tree is on disk. -/
structure Intact (env : Env) (n : Node) (A : List ℕ) : Prop where
  settled : Settled env n A
  tidy : n.Tidy env A A
  failed : ∀ h, (n.nStatus h).failed = false
  durable : n.Durable env

lemma SwitchesClean.step (hP : SwitchesClean env c n) (I : Intact env n A)
    (hr : c.run env n = some (n', res)) : ∃ A', Intact env n' A' := by
  obtain ⟨⟨m, hm⟩, dis, con, f, l, B, hclean⟩ := hP
  obtain ⟨S, ht, hf, D⟩ := I
  obtain rfl := S.eq_left B
  rw [hm, Option.some.injEq, Prod.mk.injEq] at hr
  obtain ⟨rfl, rfl⟩ := hr
  rcases setBestChain_cases S B hm with ⟨-, h, -⟩ | ⟨-, -, R⟩ |
    ⟨-, g, _, _, _, _, _, _, _, h, -⟩
  · cases h
  · have hR := R (joinable_eq_reverse.mpr fun h _ => hf h)
    exact ⟨_, hR.settled, hR.tidy ht hclean, fun h => (hR.failed h).trans (hf h),
      D.congr hR.ledger (hR.disk D.disk)⟩
  · cases h

lemma Reached.intact (hr : Reached env (SwitchesClean env) n) : ∃ A, Intact env n A := by
  refine hr.invariant (X := fun n => ∃ A, Intact env n A) ?_ ?_
  · exact fun n₀ h₀ => ⟨_, h₀.fresh.settled, h₀.fresh.tidy, h₀.fresh.failed, h₀.fresh.durable⟩
  · rintro n₁ n₂ hstep ⟨A, I⟩
    obtain ⟨S, ht, hf, D⟩ := I
    cases hstep with
    | store hfit =>
      refine ⟨A, S.grow hfit.grewTo (hfit.tree S.working.tree S.genesis),
        ht.grow S.working hfit.grewTo, fun h => ?_, hfit.durable D S.working.tree⟩
      rw [(store_stores _ _ _ _).failed]
      split_ifs
      · rfl
      · exact hf h
    | mark hm =>
      obtain ⟨_, z, -, hz, -⟩ := checkAncestry_failed hm
      rw [hf z] at hz
      cases hz
    | adopt cp =>
      exact ⟨A, S.congr ⟨rfl, rfl, rfl, rfl, rfl, rfl, rfl⟩, ht, hf, D.congr rfl D.disk⟩
    | switch hP hrun => exact hP.step ⟨S, ht, hf, D⟩ hrun

lemma Intact.looksUp (I : Intact env n A) : n.LooksUp env A := by
  refine fun u m => ⟨A.length + 1, fun g hg => ?_⟩
  exact I.settled.working.getTransaction_latest I.tidy
    (I.settled.working.heightBound_nonneg m) (by omega)

/-- **Lookups are right** in every run of calls of `SetBestChain` that go through and connect
no block over a stale key: every lookup returns, with the newest registration of the name on
the active chain that does not lie above the given height. -/
theorem getTransaction_of_switchesClean (hr : Reached env (SwitchesClean env) n) :
    ∃ A, n.Active A ∧ n.LooksUp env A := by
  obtain ⟨A, I⟩ := hr.intact
  exact ⟨A, I.settled.active, I.looksUp⟩

end Run

namespace Toy

/-- Nothing is saved under the height before a block for the names it registers. -/
def keysFree (E : Env) (m : Node) (x : ℕ) : Bool :=
  (m.ledger.registrations x).all fun tx =>
    (m.entries E tx.getUsername (m.ledger.ht x - 1)).isNone

lemma entries_of_keysFree {E : Env} {m : Node} {x : ℕ} (h : keysFree E m x = true) {u : Bytes}
    (hu : m.ledger.registers u x = true) : m.entries E u (m.ledger.ht x - 1) = none := by
  obtain ⟨tx, htx⟩ := Option.isSome_iff_exists.mp hu
  rw [← Ledger.registration_name htx]
  exact Option.isNone_iff_eq_none.mp (List.all_eq_true.mp h tx (List.mem_of_find?_eq_some htx))

lemma cleanBranch_of_keysFree {E : Env} {m : Node} {A F con : List ℕ}
    (h : ∀ x ∈ con, keysFree E m x = true) : m.CleanBranch E A F con :=
  fun _ x _ he _ hu _ _ => entries_of_keysFree (h x (by rw [he]; simp)) hu

/-- A block on top of the active chain, over keys that are free. -/
def extendFree (E : Env) (n : Node) (b : CBlock) : Option Node :=
  if keysFree E (n.store E b ⟨0, getHash E b⟩) (getHash E b) then extendIn E n b else none

lemma reached_extendFree {E : Env} {n n' : Node} {b : CBlock}
    (hr : Reached E (SwitchesClean E) n) (h : extendFree E n b = some n') :
    Reached E (SwitchesClean E) n' := by
  unfold extendFree at h
  split_ifs at h with hfree
  refine hr.steps (extendIn_steps (fun m m' f l hm B _ hrun => ?_) h)
  subst hm
  exact ⟨⟨m', hrun⟩, _, _, f, l, B, cleanBranch_of_keysFree (by simpa using hfree)⟩

def userInTip : Option Node :=
  started.bind (extendFree env · (block 2 1 1 spam [register alice key1]))

lemma reached_userInTip {n : Node} (h : userInTip = some n) :
    Reached env (SwitchesClean env) n := by
  obtain ⟨n₀, hn₀, hext⟩ := Option.bind_eq_some_iff.mp h
  exact reached_extendFree ⟨n₀, started_of_eq hn₀, .refl⟩ hext

end Toy

namespace Toy

/-- No key is in the way of the blocks that a switch connects. -/
def switchFree (n : Node) (t : ℕ) : Bool :=
  match n.coinsTip.bind (n.ledger.path 20), n.ledger.path 20 t with
  | some A, some D => D.all fun x => A.contains x || keysFree env n x
  | _, _ => false

lemma switchesClean_of_switchFree {n n' : Node} {t : ℕ} (T : n.ledger.Tree env)
    (h : switchFree n t = true) (hrun : (call t).run env n = some (n', .ok ())) :
    SwitchesClean env (call t) n := by
  unfold switchFree at h
  split at h
  · rename_i A D hA hD
    obtain ⟨a, ha, hpath⟩ := Option.bind_eq_some_iff.mp hA
    obtain ⟨hchA, hheadA⟩ := Ledger.chain_of_path hpath
    obtain ⟨hchD, hheadD⟩ := Ledger.chain_of_path hD
    obtain ⟨dis, con, f, l, rfl, rfl, hfork, hoff⟩ := T.exists_fork hchA hchD
    refine ⟨⟨n', hrun⟩, dis, con, f, l, ⟨hfork, ha.trans hheadA.symm, hheadD⟩,
      cleanBranch_of_keysFree fun x hx => ?_⟩
    have hfree := List.all_eq_true.mp h x (List.mem_append_left _ hx)
    simpa [hoff x hx] using hfree
  · cases h

/-- Do it all; no key may be in the way of a switch. -/
def performFree : List Act → Node → Option Node
  | [], n => some n
  | .store b :: acts, n => (Act.perform n (.store b)).bind (performFree acts)
  | .switch t :: acts, n =>
    if switchFree n t then (Act.perform n (.switch t)).bind (performFree acts) else none

lemma reached_performFree {acts : List Act} {n n' : Node}
    (hr : Reached env (SwitchesClean env) n) (h : performFree acts n = some n') :
    Reached env (SwitchesClean env) n' := by
  induction acts generalizing n with
  | nil => cases h; exact hr
  | cons a acts ih =>
    cases a with
    | store b =>
      obtain ⟨n₁, h₁, h₂⟩ := Option.bind_eq_some_iff.mp h
      exact ih (reached_perform hr (fun t ht => by cases ht) h₁) h₂
    | switch t =>
      rw [performFree] at h
      split_ifs at h with hfree
      obtain ⟨n₁, h₁, h₂⟩ := Option.bind_eq_some_iff.mp h
      obtain ⟨A, I⟩ := hr.intact
      refine ih (reached_perform hr ?_ h₁) h₂
      rintro _ ⟨⟩ hrun
      exact switchesClean_of_switchFree I.settled.working.tree hfree hrun

/-- The node moves from a branch that registers a name to another one with the given registrations
at the same height, and back. -/
def backAndForth (rival : List CTransaction) : List Act :=
  [.store (block 2 1 1 spam []), .switch 2,
    .store (block 3 2 2 spam [register alice key1]), .switch 3,
    .store (block 13 2 2 spam rival), .store (block 14 13 3 spam []), .switch 14,
    .store (block 4 3 3 spam []), .store (block 5 4 4 spam []), .switch 5]

end Toy

open Toy in
/-- The other branch registers another name. -/
theorem getTransaction_registered : ∃ n, Reached Toy.env (SwitchesClean Toy.env) n ∧
    n.pindexBest = some 5 ∧ ∃ A, n.Active A ∧ n.LooksUp Toy.env A := by
  have h : (started.bind (performFree (backAndForth [register (ascii "b") key2]))).map
      (·.pindexBest) = some (some 5) := by
    decide +kernel
  obtain ⟨n, hn, hbest⟩ := Option.map_eq_some_iff.mp h
  obtain ⟨n₀, hn₀, hrun⟩ := Option.bind_eq_some_iff.mp hn
  have hr := reached_performFree ⟨n₀, started_of_eq hn₀, .refl⟩ hrun
  exact ⟨n, hr, hbest, getTransaction_of_switchesClean hr⟩

open Toy in
/-- The other branch has the same registration. After the calls of `SetBestChain` have all gone
through, the lookup of the name below the height of its registration never returns. -/
theorem lookup_diverges : ∃ n, Reached Toy.env (Succeeds Toy.env) n ∧
    ∀ fuel, getTransaction Toy.env fuel n alice 1 = none := by
  have h : (started.bind (performAll (backAndForth [register alice key1]))).map (fun n =>
      ((getTransactionStep Toy.env n alice (n.heightBound 1) (-1)).getLeft?,
        (getTransactionStep Toy.env n alice (n.heightBound 1) 1).getLeft?)) =
          some (some 1, some 1) := by
    decide +kernel
  obtain ⟨n, hn, he⟩ := Option.map_eq_some_iff.mp h
  simp only [Prod.mk.injEq, Sum.getLeft?_eq_some_iff] at he
  obtain ⟨n₀, hn₀, hrun⟩ := Option.bind_eq_some_iff.mp hn
  have h₀ : Reached env (Succeeds env) n₀ := ⟨n₀, started_of_eq hn₀, .refl⟩
  refine ⟨n, reached_performAll h₀ (fun t m m' hr => ⟨m', hr⟩) hrun, fun fuel => ?_⟩
  have hloop : Loop.doWhile (getTransactionStep Toy.env n alice (n.heightBound 1)) fuel (-1) =
      none := by
    cases fuel with
    | zero => rfl
    | succ fuel => rw [Loop.doWhile_inl he.1, Loop.doWhile_stuck he.2]
  unfold getTransaction
  rw [hloop]
  rfl

end FreechCore
