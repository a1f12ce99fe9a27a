import FreechCore.Registry.Judge
import FreechCore.Registry.Lookups

/-!
Lookups after a restart. The index is written when a block is connected, the best block only
when the coin view is flushed: a node that stops in between comes back with an index that is
ahead of its chain. A name whose newest registration lies above the chain is then not found,
although the chain may have an older one.
-/

namespace FreechCore

open BackLink Ledger Option

section Restart

variable {env : Env} {n n' : Node} {A hi l L : List ℕ} {t : ℕ} {u : Bytes}

section

variable (R : Reloaded n L n')

include R

/-- After a restart lookups go by the chain `L`, and the index agrees with the longer one. -/
lemma Reloaded.working (h : Working env n A (hi ++ L))
    (hL : n.ledger.Chain L) : Working env n' L (hi ++ L) := by
  have he : n'.entries env = n.entries env := by
    unfold Node.entries
    rw [R.ledger, R.txIndex]
  have hundo : ∀ {x p}, n.index x = some p → n'.undo x = n.undo x := fun hp => (R.status _ _ hp).2
  refine ⟨?_, ?_, ?_, ?_, R.vec, R.height, fun x hx => ?_, fun x p b k B hk => ?_, ?_⟩
  · rw [R.ledger]; exact h.tree
  · rw [R.ledger, R.txIndex]; exact h.sound
  · rw [R.ledger]; exact hL
  · rw [R.ledger]; exact h.chainW
  · have hxW : x ∈ hi ++ L := hx.elim (List.mem_append_right _) id
    obtain ⟨p, hp⟩ := h.chainW.index_eq hxW
    exact (h.solid x (Or.inr hxW)).mono R.ledger (by rw [hundo hp]; exact id)
  · rw [R.ledger] at B
    rw [hundo B.index] at hk
    exact h.undo x p b k B hk
  · rw [R.ledger, he]
    exact h.follows

lemma Reloaded.active (hL : n.ledger.Chain L) : n'.Active L :=
  ⟨R.ledger ▸ hL, R.best, R.vec⟩

lemma Reloaded.getTransaction_eq (h : Working env n A (hi ++ L))
    (ht : n.Tidy env A (hi ++ L)) (hL : n.ledger.Chain L) (hu : n.ledger.history u hi = [])
    (m : ℤ) {g : ℕ} (hg : L.length < g) :
    getTransaction env g n' u m = some (n'.ledger.latest u L (n'.heightBound m)) := by
  have h' := R.working h hL
  obtain ⟨r, hf⟩ := h'.follows u
  have he : n'.entries env u = n.entries env u := by
    unfold Node.entries
    rw [R.ledger, R.txIndex]
  have hr := ht u r (by rw [← he, ← R.ledger]; exact hf)
  rw [R.ledger, history_append, hu, List.nil_append, ← R.ledger] at hf
  rw [history_append, hu, List.nil_append, ← R.ledger] at hr
  exact h'.getTransaction_follows hf (fun x hx => Working.rests_off h'.tree h'.chainA hr hx)
    (h'.heightBound_nonneg m) hg

lemma Reloaded.getTransaction_hidden (h : Working env n A (hi ++ L))
    (hL : n.ledger.Chain L) (hu : n.ledger.history u hi ≠ []) (m : ℤ) (g : ℕ) :
    getTransaction env (g + 1) n' u m = some none := by
  have h' := R.working h hL
  obtain ⟨y, Q, hQ⟩ := List.exists_cons_of_ne_nil hu
  have hy : n'.entries env u (-1) = some y := h'.entry_head (R := Q ++ n.ledger.history u L) (by
    rw [R.ledger, history_append, hQ]
    rfl)
  refine h'.getTransaction_off (fun z hz hzL => ?_) m g
  -- a block of the upper part does not lie on the chain
  obtain rfl : y = z := some.inj (hy.symm.trans hz)
  have hyi := (mem_history.mp (hQ ▸ List.mem_cons_self : y ∈ n.ledger.history u hi)).1
  exact (List.nodup_append.mp (h.chainW.nodup h.tree)).2.2 y hyi y hzL rfl

end

/-- **Lookups after a restart.** The node stops when the index agrees with the chain `hi ++ L`
and the stored best block is the tip of `L`. It comes back with `L` for its active chain, and
lookups are right exactly if no name of `L` is registered again in `hi`. -/
theorem looksUp_reloaded_iff (h : Working env n A (hi ++ t :: l))
    (ht : n.Tidy env A (hi ++ t :: l)) (D : n.Durable env) (hz : n.index 0 = none)
    (hdb : n.coinsDB = some t) :
    ∃ n', loadBlockIndexDB env n.stopped = some n' ∧ n'.Active (t :: l) ∧
      (n'.LooksUp env (t :: l) ↔
        ∀ u, n.ledger.history u hi = [] ∨ n.ledger.history u (t :: l) = []) := by
  have hL : n.ledger.Chain (t :: l) := h.chainW.of_append (by simp)
  obtain ⟨n', hload, R⟩ := loadBlockIndexDB_eq D hz h.tree hL hdb
  have h' := R.working h hL
  refine ⟨n', hload, R.active hL, fun hlook u => ?_, fun hfree u m => ?_⟩
  · by_contra hno
    rw [not_or] at hno
    obtain ⟨fuel, hfuel⟩ := hlook u (-1)
    have hhid := R.getTransaction_hidden h hL hno.1 (-1) fuel
    rw [hfuel (fuel + 1) (Nat.le_succ _), some.injEq, heightBound_neg] at hhid
    exact h'.latest_best (by rw [R.ledger]; exact hno.2) hhid
  · by_cases hu : n.ledger.history u hi = []
    · exact ⟨(t :: l).length + 1, fun g hg => R.getTransaction_eq h ht hL hu m (by omega)⟩
    · refine ⟨1, fun g hg => ?_⟩
      obtain ⟨k, rfl⟩ : ∃ k, g = k + 1 := ⟨g - 1, by omega⟩
      rw [R.getTransaction_hidden h hL hu]
      rw [latest_eq_none (by rw [R.ledger]; exact (hfree u).resolve_left hu)]

end Restart

namespace Toy

/-- Switch to a block during the initial download: the best block is not stored. -/
def download (n : Node) (t : ℕ) : Option Node :=
  match (⟨20, 20, 10000000, true, t⟩ : Call).run env n with
  | some (n', .ok ()) => some n'
  | _ => none

lemma reached_download {P : Call → Node → Prop} {n n' : Node} {t : ℕ} (hr : Reached env P n)
    (hP : (⟨20, 20, 10000000, true, t⟩ : Call).run env n = some (n', .ok ()) →
      P ⟨20, 20, 10000000, true, t⟩ n)
    (h : download n t = some n') : Reached env P n' := by
  unfold download at h
  split at h
  · rename_i n₁ hrun
    cases h
    obtain ⟨n₀, h₀, hs⟩ := hr
    exact ⟨n₀, h₀, hs.tail (.switch (hP hrun) hrun)⟩
  · cases h

def nameStored : Option Node :=
  started.bind (Act.perform · (.store (block 2 1 1 spam [register alice key1])))

end Toy

open Toy in
/-- A name that is registered during the initial download is not there after a restart. -/
theorem looksUp_after_download : ∃ n n', Reached Toy.env (SwitchesClean Toy.env) n ∧
    n.Active [2, 1] ∧ loadBlockIndexDB Toy.env n.stopped = some n' ∧ n'.Active [1] ∧
      n'.LooksUp Toy.env [1] := by
  have h : nameStored.map (fun m => (m.ledger.path 20 2, m.coinsTip, keysFree Toy.env m 2)) =
      some (some [2, 1], some 1, true) := by
    decide +kernel
  have h' : (nameStored.bind (download · 2)).map (fun n => (activeOf n, n.coinsDB,
      n.ledger.registrations 1, (n.index 0).isNone)) =
      some (some [2, 1], some 1, [], true) := by
    decide +kernel
  obtain ⟨m, hm, he⟩ := map_eq_some_iff.mp h
  simp only [Prod.mk.injEq] at he
  obtain ⟨hpath, hcoins, hfree⟩ := he
  obtain ⟨n, hn, he'⟩ := map_eq_some_iff.mp h'
  simp only [Prod.mk.injEq, isNone_iff_eq_none] at he'
  obtain ⟨hA, hdb, hregs, hz⟩ := he'
  rw [hm, bind_some] at hn
  obtain ⟨n₀, hn₀, hst⟩ := bind_eq_some_iff.mp hm
  have hr₀ : Reached env (SwitchesClean env) n₀ := ⟨n₀, started_of_eq hn₀, .refl⟩
  have hr : Reached env (SwitchesClean env) n :=
    reached_download (reached_perform hr₀ (fun t ht => by cases ht) hst)
      (fun hrun => ⟨⟨n, hrun⟩, [], [2], 1, [], .extension (chain_of_path hpath).1 hcoins,
        cleanBranch_of_keysFree (by simpa using hfree)⟩) hn
  obtain ⟨A, I⟩ := hr.intact
  obtain rfl := I.settled.active.unique (active_of_activeOf hA)
  have hW : Working env n [2, 1] ([2] ++ 1 :: []) := I.settled.working
  obtain ⟨n', hload, hact, hiff⟩ := looksUp_reloaded_iff hW I.tidy I.durable hz hdb
  refine ⟨n, n', hr, I.settled.active, hload, hact, hiff.mpr fun u => Or.inr ?_⟩
  simp [history, registers, registration, hregs]

namespace Toy

/-- A name is registered, and its key is replaced during a download. -/
def downloaded : Option Node :=
  ((nameStored.bind (performAll [.switch 2,
    .store (block 3 2 2 spam [replaceKey alice key2 key1])])).bind (download · 3))

end Toy

open Toy in
/-- After a restart the name is not found, although the loaded chain has it. -/
theorem hidden_after_download : ∃ n n', Reached Toy.env (Succeeds Toy.env) n ∧
    n.Active [3, 2, 1] ∧ n.coinsDB = some 2 ∧ loadBlockIndexDB Toy.env n.stopped = some n' ∧
    n'.Active [2, 1] ∧ getTransaction Toy.env 5 n' alice (-1) = some none ∧
      n'.ledger.latest alice [2, 1] (n'.heightBound (-1)) = some (register alice key1, 2) := by
  have h : downloaded.map (fun n => (activeOf n, n.coinsDB)) = some (some [3, 2, 1], some 2) := by
    decide +kernel
  have h₁ : (downloaded.bind fun n => loadBlockIndexDB Toy.env n.stopped).map (fun n' =>
      (activeOf n', getTransaction Toy.env 5 n' alice (-1))) =
      some (some [2, 1], some none) := by
    decide +kernel
  have h₂ : (downloaded.bind fun n => loadBlockIndexDB Toy.env n.stopped).map (fun n' =>
      n'.ledger.latest alice [2, 1] (n'.heightBound (-1))) =
      some (some (register alice key1, 2)) := by
    decide +kernel
  obtain ⟨n, hn, he⟩ := map_eq_some_iff.mp h
  rw [hn, bind_some] at h₁ h₂
  obtain ⟨n', hn', he'⟩ := map_eq_some_iff.mp h₁
  rw [hn', map_some, some.injEq] at h₂
  simp only [Prod.mk.injEq] at he he'
  obtain ⟨m, hm, hd⟩ := bind_eq_some_iff.mp hn
  obtain ⟨m₁, hm₁, hp⟩ := bind_eq_some_iff.mp hm
  obtain ⟨n₀, hn₀, hst⟩ := bind_eq_some_iff.mp hm₁
  have hr₀ : Reached env (Succeeds env) n₀ := ⟨n₀, started_of_eq hn₀, .refl⟩
  have hr₁ := reached_perform hr₀ (fun t ht => by cases ht) hst
  have hr := reached_download (reached_performAll hr₁ (fun t m m' hr => ⟨m', hr⟩) hp)
    (fun hrun => ⟨n, hrun⟩) hd
  exact ⟨n, n', hr, active_of_activeOf he.1, he.2, hn', active_of_activeOf he'.1, he'.2, h₂⟩

end FreechCore
