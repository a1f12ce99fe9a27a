import Mathlib.Data.List.TakeWhile
import FreechCore.Registry.Steps

/-!
The branches of a switch. Two chains of the tree meet in a fork; the search of the source
finds it, and the two lists it collects are what lies above the fork on either side.
-/

namespace FreechCore

open List

variable {l con : List ℕ} {h : ℕ}

variable {env : Env} {dis : List ℕ} {f h' fuel : ℕ} {n : Node}

namespace Ledger

variable {L : Ledger}

/-- The chain of the active block and the chain of another one, cut at their fork `f`. -/
structure Fork (L : Ledger) (dis con : List ℕ) (f : ℕ) (l : List ℕ) : Prop where
  left : L.Chain (dis ++ f :: l)
  right : L.Chain (con ++ f :: l)
  disjoint : ∀ x ∈ con, x ∉ dis

lemma Chain.getLast_root (T : L.Tree env) (hl : L.Chain l) : hashGenesisBlock env ∈ l := by
  induction hl with
  | root hp hq =>
    rw [(T.root_iff hp).mp hq]
    exact mem_singleton_self _
  | cons _ _ _ ih => exact mem_cons_of_mem _ ih

lemma Tree.exists_fork (T : L.Tree env) {A D : List ℕ} (hA : L.Chain A) (hD : L.Chain D) :
    ∃ dis con f l, A = dis ++ f :: l ∧ D = con ++ f :: l ∧ L.Fork dis con f l ∧
      (∀ x ∈ con, x ∉ A) := by
  have hroot : hashGenesisBlock env ∈ D ∧ hashGenesisBlock env ∈ A :=
    ⟨hD.getLast_root T, hA.getLast_root T⟩
  -- the first block of `D` from the tip on that is in `A`
  obtain ⟨f, hf⟩ : ∃ f, D.find? (fun x => decide (x ∈ A)) = some f := by
    rw [← Option.isSome_iff_exists, List.find?_isSome]
    exact ⟨_, hroot.1, by simpa using hroot.2⟩
  obtain ⟨hfA, con, l, hDe, hcon⟩ := List.find?_eq_some_iff_append.mp hf
  obtain ⟨dis, con', l', hAe, hDe'⟩ := hA.same_below hD (by simpa using hfA)
    (hDe ▸ (by simp : f ∈ con ++ f :: l))
  have hll : l' = l := by
    have h1 : L.Chain (f :: l') := (hAe ▸ hA).of_append (by simp)
    have h2 : L.Chain (f :: l) := (hDe ▸ hD).of_append (by simp)
    exact h1.unique h2
  subst hll
  have hcon' : ∀ x ∈ con, x ∉ A := fun x hx => by simpa using hcon x hx
  refine ⟨dis, con, f, l', hAe, hDe, ⟨hAe ▸ hA, hDe ▸ hD, fun x hx hd => ?_⟩, hcon'⟩
  exact hcon' x hx (by rw [hAe]; exact mem_append_left _ hd)

lemma Fork.tail {d : ℕ} (F : L.Fork (d :: dis) con f l) : L.Fork dis con f l :=
  ⟨F.left.of_cons (by simp), F.right, fun x hx hd => F.disjoint x hx (mem_cons_of_mem _ hd)⟩

section

variable {x : ℕ} (T : L.Tree env) (F : L.Fork dis con f l) (hx : x ∈ con)

include T F hx

lemma Fork.mem_base :
    x ∉ f :: l := by
  intro hf
  have := F.right.nodup T
  rw [nodup_append] at this
  exact this.2.2 x hx x hf rfl

lemma Fork.not_mem_left :
    x ∉ dis ++ f :: l := by
  intro hA
  rcases mem_append.mp hA with h | h
  · exact F.disjoint x hx h
  · exact F.mem_base T hx h

end

end Ledger

/-! ### The search for the fork -/

lemma descend_eq (T : n.ledger.Tree env) {k : ℕ} {m : List ℕ} (hm : n.ledger.Chain (h :: m)) :
    ∃ up h' m', descend n k (n.heightOf h + 1) h = some h' ∧ h :: m = up ++ h' :: m' ∧
      n.heightOf h' ≤ k ∧ ∀ z ∈ up, k < n.heightOf z := by
  induction m generalizing h with
  | nil =>
    have hh : n.heightOf h = 0 := hm.height T
    exact ⟨[], h, [], by simp [descend, hh], rfl, by omega, by simp⟩
  | cons q m ih =>
    by_cases hk : k < n.heightOf h
    · have hq : n.pprev h = some q := hm.pprev_eq
      have hh : n.heightOf h = n.heightOf q + 1 := by
        have h1 : n.heightOf h = (q :: m).length := hm.height T
        have h2 : n.heightOf q = m.length := (hm.of_cons (by simp)).height T
        rw [h1, h2]
        rfl
      obtain ⟨up, h', m', hd, he, hle, hup⟩ := ih (hm.of_cons (by simp))
      refine ⟨h :: up, h', m', ?_, by rw [he]; rfl, hle, ?_⟩
      · rw [hh, descend, if_pos (by omega)]
        simp only [hq]
        exact hd
      · exact forall_mem_cons.mpr ⟨hk, hup⟩
    · exact ⟨[], h, q :: m, by simp [descend, hk], rfl, by omega, by simp⟩

lemma cut_above {up m' : List ℕ} (he : con ++ f :: l = up ++ h' :: m') (hf : f ∉ up) :
    ∃ con', con = up ++ con' ∧ con' ++ f :: l = h' :: m' := by
  obtain ⟨a, ha⟩ | ⟨a, ha⟩ : (∃ a, con = up ++ a) ∨ ∃ a, up = con ++ a := by
    rcases append_eq_append_iff.mp he with ⟨a, h1, -⟩ | ⟨a, h1, -⟩
    · exact Or.inr ⟨a, h1⟩
    · exact Or.inl ⟨a, h1⟩
  · subst ha
    rw [append_assoc, append_cancel_left_eq] at he
    exact ⟨a, rfl, he⟩
  · subst ha
    cases a with
    | nil => exact ⟨[], by simp, by simpa using he⟩
    | cons z a =>
      rw [append_assoc, append_cancel_left_eq, cons_append, List.cons.injEq] at he
      exact absurd (by simp [he.1]) hf

lemma findFork_eq (T : n.ledger.Tree env) (F : n.ledger.Fork dis con f l) {a t : ℕ}
    (ha : (dis ++ f :: l).head? = some a) (ht : (con ++ f :: l).head? = some t)
    (hfuel : dis.length < fuel) : findFork n fuel (some a) t = some (some f) := by
  induction dis generalizing con a t fuel with
  | nil =>
    obtain ⟨fuel, rfl⟩ : ∃ k, fuel = k + 1 := ⟨fuel - 1, by simp at hfuel; omega⟩
    have hfa : f = a := by simpa using ha
    subst hfa
    unfold findFork
    split_ifs with hft
    · rfl
    · obtain ⟨c, con, rfl⟩ : ∃ c con', con = c :: con' := by
        cases con with
        | nil => exact absurd (by simpa using ht) hft
        | cons c con => exact ⟨c, con, rfl⟩
      have hct : c = t := by simpa using ht
      subst hct
      obtain ⟨up, h', m', hd, he, hle, hup⟩ := descend_eq (k := n.heightOf f) T F.right
      replace he : (c :: con) ++ f :: l = up ++ h' :: m' := he
      obtain ⟨con', -, he'⟩ := cut_above he (fun hf => lt_irrefl _ (hup f hf))
      -- on the chain of `t` only the fork itself has its height or less and lies not below it
      have hf' : h' = f := by
        cases con' with
        | nil => exact (List.cons.inj he').1.symm
        | cons z con' =>
          rw [cons_append, List.cons.injEq] at he'
          have hsuf : n.ledger.Chain (h' :: m') := (he ▸ F.right).of_append (by simp)
          have hlt := (pairwise_cons.mp (hsuf.pairwise_lt T)).1 f (by rw [← he'.2]; simp)
          have : n.ledger.heightOf f < n.heightOf h' := hlt
          have : n.heightOf h' ≤ n.ledger.heightOf f := hle
          omega
      simp [hd, hf']
  | cons d dis ih =>
    obtain ⟨fuel, rfl⟩ : ∃ k, fuel = k + 1 := ⟨fuel - 1, by simp at hfuel; omega⟩
    have hda : d = a := by simpa using ha
    subst hda
    have hdlow : ∀ z ∈ dis ++ f :: l, n.heightOf z < n.heightOf d :=
      (pairwise_cons.mp (F.left.pairwise_lt T)).1
    have hnot : d ∉ con ++ f :: l := by
      intro hd
      rcases mem_append.mp hd with h | h
      · exact F.disjoint d h (by simp)
      · exact lt_irrefl _ (hdlow d (mem_append_right _ h))
    have hdt : d ≠ t := fun e => hnot (mem_of_mem_head? (by rw [ht, e]; rfl))
    unfold findFork
    rw [if_neg hdt]
    obtain ⟨m, hm⟩ : ∃ m, con ++ f :: l = t :: m := by
      cases hc : con ++ f :: l with
      | nil => simp at hc
      | cons c m => rw [hc] at ht; exact ⟨m, by rw [← Option.some.inj ht]⟩
    have hD : n.ledger.Chain (t :: m) := hm ▸ F.right
    obtain ⟨up, h', m', hdes, he, hle, hup⟩ := descend_eq (k := n.heightOf d) T hD
    have hfd : n.heightOf f < n.heightOf d := hdlow f (by simp)
    obtain ⟨con', hcon, he'⟩ := cut_above (hm.trans he) (fun hf => by
      have := hup f hf; omega)
    have hh' : h' ∈ con ++ f :: l := by rw [hm, he]; simp
    have hdh : d ≠ h' := fun e => hnot (e ▸ hh')
    have hprev : n.pprev d = (dis ++ f :: l).head? := by
      cases hdis : dis ++ f :: l with
      | nil => simp at hdis
      | cons q m =>
        have := F.left
        rw [cons_append, hdis] at this
        exact this.pprev_eq
    obtain ⟨q, hq⟩ : ∃ q, (dis ++ f :: l).head? = some q := by
      cases hdis : dis ++ f :: l with
      | nil => simp at hdis
      | cons q m => exact ⟨q, rfl⟩
    rw [hq] at hprev
    simp only [hdes, if_neg hdh, hprev]
    refine ih ⟨F.tail.left, ?_, ?_⟩ hq (by rw [he']; rfl) (by simpa using hfuel)
    · rw [he']
      exact (he ▸ hD).of_append (by simp)
    · intro x hx
      exact F.tail.disjoint x (by rw [hcon]; exact mem_append_right _ hx)

lemma walkTo_eq (T : n.ledger.Tree env) (hl : n.ledger.Chain (con ++ f :: l))
    (hfuel : con.length < fuel) : walkTo n (some f) fuel (con ++ f :: l).head? = some con := by
  induction con generalizing fuel with
  | nil =>
    obtain ⟨fuel, rfl⟩ : ∃ k, fuel = k + 1 := ⟨fuel - 1, by simp at hfuel; omega⟩
    simp [walkTo]
  | cons c con ih =>
    obtain ⟨fuel, rfl⟩ : ∃ k, fuel = k + 1 := ⟨fuel - 1, by simp at hfuel; omega⟩
    have hnd := hl.nodup T
    have hcf : c ≠ f := fun e => by
      rw [cons_append, nodup_cons] at hnd
      exact hnd.1 (by simp [e])
    have hprev : n.pprev c = (con ++ f :: l).head? := by
      cases hcon : con ++ f :: l with
      | nil => simp at hcon
      | cons q m =>
        rw [cons_append, hcon] at hl
        exact hl.pprev_eq
    have hfuel' : con.length < fuel := by simpa using hfuel
    have := ih (hl.of_cons (by simp)) hfuel'
    simp only [cons_append, List.head?_cons, walkTo, Option.some.injEq, hcf, if_false, hprev,
      this, Option.map_some]

/-! ### Blocks that failed before -/

section Collect

variable {n' : Node}

/-- The blocks of a branch up to the first that failed before, lowest first. -/
def Node.joinable (n : Node) (con : List ℕ) : List ℕ :=
  con.reverse.takeWhile fun h => !(n.nStatus h).failed

lemma joinable_subset (hh : h ∈ n.joinable con) : h ∈ con :=
  mem_reverse.mp ((takeWhile_sublist _).subset hh)

lemma joinable_eq_reverse :
    n.joinable con = con.reverse ↔ ∀ h ∈ con, (n.nStatus h).failed = false := by
  unfold Node.joinable
  simp

lemma exists_append_joinable (n : Node) (con : List ℕ) : ∃ hi, con = hi ++ (n.joinable con).reverse := by
  obtain ⟨t, ht⟩ := List.takeWhile_prefix (l := con.reverse) fun h => !(n.nStatus h).failed
  refine ⟨t.reverse, ?_⟩
  rw [← reverse_append]
  exact (reverse_eq_iff.mp ht.symm)

/-- Collecting the blocks to connect marks some of the branch as failed, all of them above
one that failed before. -/
structure Collected (n n' : Node) (con : List ℕ) : Prop where
  same : n.SameChain n'
  disk : n.OnDisk → n'.OnDisk
  listed : n.Listed → n'.Listed
  keeps : ∀ h, (n.nStatus h).failed = true → (n'.nStatus h).failed = true
  failed : ∀ h, (n'.nStatus h).failed = true → (n.nStatus h).failed = true ∨
    ∃ hi z lo, con = hi ++ z :: lo ∧ h ∈ hi ∧ (n.nStatus z).failed = true
  eq : (∀ h ∈ con, (n.nStatus h).failed = false) → n' = n

lemma markFailedChild_failed :
    ((markFailedChild n h).nStatus h').failed = true ↔ h' = h ∨ (n.nStatus h').failed = true := by
  unfold markFailedChild
  by_cases he : h' = h
  · simp [Node.eraseValid, Node.setStatus, BlockStatus.failed, he]
  · simp [Node.eraseValid, Node.setStatus, he]

lemma foldl_markFailedChild_failed : ((l.foldl markFailedChild n).nStatus h).failed = true ↔
      h ∈ l ∨ (n.nStatus h).failed = true := by
  induction l generalizing n with
  | nil => simp
  | cons a l ih => rw [foldl_cons, ih, markFailedChild_failed, mem_cons]; tauto

lemma foldl_markFailedChild_candidates (l : List ℕ) (n : Node) :
    (l.foldl markFailedChild n).setBlockIndexValid = n.setBlockIndexValid.filter (· ∉ l) := by
  induction l generalizing n with
  | nil => simp
  | cons a l ih =>
    rw [foldl_cons, ih, markFailedChild, Node.writeBlockIndex_setBlockIndexValid,
      Node.eraseValid, filter_filter]
    refine filter_congr fun h _ => ?_
    simp [Bool.and_comm]

lemma markFailedChild_disk (hd : n.OnDisk) (h : ℕ) : (markFailedChild n h).OnDisk :=
  hd.writeBlockIndex (fun _ => Or.inl rfl) rfl fun h' hne =>
    ⟨by simp [Node.setStatus, Node.eraseValid, hne], rfl⟩

lemma foldl_markFailedChild_disk (hd : n.OnDisk) (l : List ℕ) :
    (l.foldl markFailedChild n).OnDisk := by
  induction l generalizing n with
  | nil => exact hd
  | cons h l ih => exact ih (markFailedChild_disk hd h)

lemma foldl_markFailedChild_listed (hl : n.Listed) (l : List ℕ) :
    (l.foldl markFailedChild n).Listed := by
  induction l generalizing n with
  | nil => exact hl
  | cons h l ih =>
    refine ih (hl.mark (Node.SameChain.markFailedChild n h).ledger ?_ fun _ => markFailedChild_failed)
    simp [markFailedChild, Node.eraseValid, Node.setStatus]

/-- **Collecting a branch** stops above the first block that failed before. -/
lemma foldl_collectStep (n : Node) (hnd : con.Nodup) :
    ∃ n', con.foldl collectStep (n, []) = (n', (n.joinable con).reverse) ∧ Collected n n' con := by
  induction con using List.reverseRecOn with
  | nil => exact ⟨n, rfl, .refl n, id, id, fun _ => id, fun _ => Or.inl, fun _ => rfl⟩
  | append_singleton con z ih =>
    rw [nodup_append] at hnd
    obtain ⟨n₁, hn₁, C⟩ := ih hnd.1
    have hz : (n₁.nStatus z).failed = true → (n.nStatus z).failed = true := by
      intro hf
      rcases C.failed z hf with h | ⟨hi, y, lo, he, hm, -⟩
      · exact h
      · exact absurd rfl (hnd.2.2 z (by rw [he]; simp [hm]) z (by simp))
    rw [foldl_append, hn₁, foldl_cons, foldl_nil, collectStep]
    by_cases hf : (n₁.nStatus z).failed = true
    · have hj : n.joinable (con ++ [z]) = [] := by simp [Node.joinable, hz hf]
      rw [if_pos hf, hj]
      refine ⟨_, rfl, ⟨C.same.trans (.foldl .markFailedChild _ _), fun hd => ?_,
        fun hl => foldl_markFailedChild_listed (C.listed hl) _,
        fun h hh => foldl_markFailedChild_failed.mpr (Or.inr (C.keeps h hh)), fun h hh => ?_, ?_⟩⟩
      · exact foldl_markFailedChild_disk (C.disk hd) _
      · rcases foldl_markFailedChild_failed.mp hh with hm | hm
        · rcases mem_append.mp hm with hm | hm
          · exact Or.inr ⟨con, z, [], rfl, joinable_subset (mem_reverse.mp hm), hz hf⟩
          · exact Or.inl (mem_singleton.mp hm ▸ hz hf)
        · rcases C.failed h hm with h' | ⟨hi, y, lo, he, hm, hy⟩
          · exact Or.inl h'
          · exact Or.inr ⟨hi, y, lo ++ [z], by rw [he]; simp, hm, hy⟩
      · intro hc
        rw [hc z (by simp)] at hz
        cases hz hf
    · rw [if_neg hf]
      by_cases hzn : (n.nStatus z).failed = true
      · exact absurd (C.keeps z hzn) hf
      · have hj : (n.joinable (con ++ [z])).reverse = (n.joinable con).reverse ++ [z] := by
          simp [Node.joinable, hzn]
        rw [hj]
        refine ⟨n₁, rfl, ⟨C.same, C.disk, C.listed, C.keeps, fun h hh => ?_, fun hc => ?_⟩⟩
        · rcases C.failed h hh with h' | ⟨hi, y, lo, he, hm, hy⟩
          · exact Or.inl h'
          · exact Or.inr ⟨hi, y, lo ++ [z], by rw [he]; simp, hm, hy⟩
        · exact C.eq fun h hh => hc h (mem_append_left _ hh)

end Collect

end FreechCore
