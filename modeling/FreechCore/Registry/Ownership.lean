import FreechCore.Registry.Climb
import FreechCore.Registry.Lookups

/-!
Who owns a name. On the active chain a name that is registered again is registered with the
same transaction, or with the signature of the key before. `ConnectBlock` asks the index,
and the index answers only for blocks of the main-chain vector: a registration made by a
block of the branch that is being connected is not known yet. So ownership is kept as long
as no branch of several blocks registers a name twice, and no lookup is misled.
-/

namespace FreechCore

open BackLink List

/-- On a chain, a registration repeats the one before it for the same name, or is signed with
the key of that one. -/
def Ledger.Owned (L : Ledger) (env : Env) (A : List ℕ) : Prop :=
  ∀ hi x lo, A = hi ++ x :: lo → ∀ tx ∈ L.registrations x, ∀ y R,
    L.history tx.getUsername lo = y :: R →
      ∃ old, L.registration y tx.getUsername = some old ∧ (tx = old ∨ isReplacement env old tx = true)

/-- No registration of the branch has the hash of another one for its name below the branch. -/
def Ledger.HashesApart (L : Ledger) (env : Env) (con F : List ℕ) : Prop :=
  ∀ x ∈ con, ∀ tx ∈ L.registrations x, ∀ y ∈ F, ∀ old,
    L.registration y tx.getUsername = some old → env.hashTx old = env.hashTx tx → tx = old

/-- A call of `SetBestChain` that keeps the owners of names: it does no harm, and a branch that is
not too short registers no name twice and has no hash of another registration. -/
def KeepsOwners (env : Env) (T : ℤ) (c : Call) (n : Node) : Prop :=
  T ≤ c.now ∧ ∃ dis con f l, n.Branches c.pindexNew dis con f l ∧
    n.SafeBranch env c.now dis con (f :: l) ∧
      (dis.length ≤ (n.joinable con).length →
        n.ledger.NamesOnce con ∧ n.ledger.HashesApart env con (f :: l))

section

variable {env : Env} {T : ℤ} {n n' : Node} {A : List ℕ}

section Switch

variable {c : Call} {dis con l : List ℕ} {res : Check}

lemma Reorganised.owned {F : List ℕ} (R : Reorganised env dis con F n n')
    (hA : n.ledger.Owned env (dis ++ F)) (hc : n.ledger.NamesOnce con)
    (hh : n.ledger.HashesApart env con F) : n'.ledger.Owned env (con ++ F) := by
  rw [R.ledger]
  intro hi x lo he tx htx y Q hQ
  -- the block is one of the branch, or lies below the fork
  rcases append_eq_append_iff.mp he.symm with ⟨m, hcon, hlo⟩ | ⟨m, hhi, hF⟩
  · cases m with
    | nil =>
      rw [nil_append] at hlo
      exact hA dis x lo (by rw [← hlo]) tx htx y Q hQ
    | cons z m =>
      rw [cons_append, List.cons.injEq] at hlo
      obtain ⟨rfl, rfl⟩ := hlo
      have hy : y ∈ F := by
        have hmem : y ∈ n.ledger.history tx.getUsername (m ++ F) := by rw [hQ]; simp
        obtain ⟨hmem, hyu⟩ := Ledger.mem_history.mp hmem
        rcases mem_append.mp hmem with hm | hF
        · -- two blocks of the branch would register the name
          have hp := (pairwise_append.mp (hcon ▸ hc)).2.1
          have hx := (pairwise_cons.mp hp).1 y hm _ (Ledger.registers_of_mem htx)
          rw [hyu] at hx
          cases hx
        · exact hF
      obtain ⟨old, hold, hal⟩ := R.allowed hi x m hcon tx htx y Q hQ (mem_append_right _ hy)
      exact ⟨old, hold, hal.imp_left (hh x (by simp [hcon]) tx htx y hy old hold)⟩
  · have hA' : dis ++ F = (dis ++ m) ++ x :: lo := by rw [hF, append_assoc]
    exact hA (dis ++ m) x lo hA' tx htx y Q hQ

lemma KeepsOwners.step (hP : KeepsOwners env T c n) (I : InOrder env T n A)
    (hA : n.ledger.Owned env A) (hr : c.run env n = some (n', res)) :
    ∃ A', InOrder env T n' A' ∧ n'.ledger.Owned env A' := by
  obtain ⟨hT, dis, con, f, l, B, hsafe, honce⟩ := hP
  obtain rfl := I.settled.eq_left B
  rcases hsafe.step hT B I hr with ⟨I', hL⟩ | ⟨hlen, I', R⟩
  · exact ⟨_, I', by rw [hL]; exact hA⟩
  · obtain ⟨hc, hh⟩ := honce hlen
    exact ⟨_, I', R.owned hA hc hh⟩

end Switch

/-! ### Whole runs -/

lemma Ledger.Grows.owned {L L' : Ledger} (G : L.Grows L') (T : L.Tree env) (hch : L.Chain A)
    (hA : L.Owned env A) : L'.Owned env A := by
  intro hi x lo he tx htx y R hR
  obtain ⟨p, hp⟩ := hch.index_eq (by rw [he]; simp : x ∈ A)
  rw [G.registrations T hp] at htx
  cases lo with
  | nil => cases hR
  | cons q lo =>
    have hlo : L.Chain (q :: lo) := by
      refine Chain.of_append (l := hi ++ [x]) ?_ (by simp)
      rw [append_assoc]
      exact he ▸ hch
    rw [G.history T hlo] at hR
    have hy : y ∈ q :: lo := (mem_history.mp (by rw [hR]; simp : y ∈ L.history _ (q :: lo))).1
    obtain ⟨py, hpy⟩ := hlo.index_eq hy
    rw [G.registration T hpy]
    exact hA hi x (q :: lo) he tx htx y R hR

end

namespace Toy

end Toy

end FreechCore
