import Mathlib.Data.Finset.Card
import FreechCore.Checkpoint.Moves
import FreechCore.Chain.Process

/-!
The pool of orphans over whole runs of `ProcessBlock`. Both maps hold the same blocks, none of them
is in the block tree, and the way back to the root of a chain of orphans comes to an end. When a
block is accepted, the work queue gets to every orphan that waited for it or for an orphan accepted
on the way.
-/

namespace FreechCore

open List Relation StdMap

section

variable {env : Env} {pool : OrphanPool} {b : CBlock} {fuel hash : ℕ}

namespace OrphanPool

def Holds (pool : OrphanPool) (b : CBlock) : Prop :=
  (b.hashPrevBlock, b) ∈ pool.mapOrphanBlocksByPrev

/-- Every orphan is in both maps, under its own hash and under that of its parent. -/
structure Kept (pool : OrphanPool) (env : Env) : Prop where
  hashed : ∀ {h b}, pool.mapOrphanBlocks.find? h = some b → h = getHash env b
  placed : ∀ {k b}, (k, b) ∈ pool.mapOrphanBlocksByPrev → k = b.hashPrevBlock
  once : pool.mapOrphanBlocksByPrev.Nodup
  same : ∀ b, pool.mapOrphanBlocks.find? (getHash env b) = some b ↔ pool.Holds b

lemma Kept.eq_of_hash (K : pool.Kept env) {b' : CBlock} (hb : pool.Holds b) (hb' : pool.Holds b')
    (h : getHash env b = getHash env b') : b = b' := by
  have h₁ := (K.same b).mpr hb
  rw [h, (K.same b').mpr hb'] at h₁
  exact (Option.some.inj h₁).symm

lemma Kept.mem_waiting (K : pool.Kept env) {h : ℕ} :
    b ∈ pool.waiting h ↔ pool.Holds b ∧ b.hashPrevBlock = h := by
  constructor
  · intro hb
    obtain ⟨⟨k, _⟩, hx, rfl⟩ := mem_map.mp hb
    obtain ⟨hmem, hk⟩ := mem_filter.mp hx
    have hplace := K.placed hmem
    exact ⟨hplace ▸ hmem, hplace.symm.trans (of_decide_eq_true hk)⟩
  · rintro ⟨hb, rfl⟩
    exact mem_map.mpr ⟨_, mem_filter.mpr ⟨hb, decide_eq_true rfl⟩, rfl⟩

lemma insert_perm : (pool.insert env b).mapOrphanBlocksByPrev.Perm
    ((b.hashPrevBlock, b) :: pool.mapOrphanBlocksByPrev) := by
  have hsplit := takeWhile_append_dropWhile (l := pool.mapOrphanBlocksByPrev)
    (p := fun e => decide (e.1 ≤ b.hashPrevBlock))
  conv_rhs => rw [← hsplit]
  exact perm_middle

lemma mem_insert {e : ℕ × CBlock} : e ∈ (pool.insert env b).mapOrphanBlocksByPrev ↔
    e = (b.hashPrevBlock, b) ∨ e ∈ pool.mapOrphanBlocksByPrev :=
  insert_perm.mem_iff.trans mem_cons

lemma Kept.insert (K : pool.Kept env)
    (hnew : pool.mapOrphanBlocks.contains (getHash env b) = false) : (pool.insert env b).Kept env := by
  have hmap : (pool.insert env b).mapOrphanBlocks = pool.mapOrphanBlocks.insert (getHash env b) b := by
    simp [OrphanPool.insert, hnew]
  have hfree : pool.mapOrphanBlocks.find? (getHash env b) = none := by
    simpa [StdMap.contains] using hnew
  have hout : ¬pool.Holds b := fun h => by
    rw [(K.same b).mpr h] at hfree
    cases hfree
  refine ⟨fun {h b'} hb' => ?_, fun {k b'} hb' => ?_, ?_, fun b' => ?_⟩
  · rw [hmap, StdMap.find?_insert] at hb'
    split_ifs at hb' with hh
    · exact hh.trans (congrArg _ (Option.some.inj hb'))
    · exact K.hashed hb'
  · rcases mem_insert.mp hb' with he | hb'
    · cases he
      rfl
    · exact K.placed hb'
  · exact insert_perm.nodup_iff.mpr (nodup_cons.mpr ⟨hout, K.once⟩)
  · rw [Holds, mem_insert, hmap, StdMap.find?_insert]
    split_ifs with hh
    · constructor
      · intro hb'
        cases hb'
        exact .inl rfl
      · rintro (he | hb')
        · rw [(Prod.mk.inj he).2]
        · rw [← hh, (K.same b').mpr hb'] at hfree
          cases hfree
    · rw [K.same b', Holds]
      refine ⟨.inr, fun h => h.resolve_left fun he => hh ?_⟩
      rw [(Prod.mk.inj he).2]

end OrphanPool

/-! ### The way back to the root -/

section Accept

variable {n n' : Node} {i : AcceptInput} {r : Check}

lemma AcceptInput.accept_index (h : i.accept env n b = some (n', r)) {x : ℕ}
    (hx : (n'.index x).isSome = true) : (n.index x).isSome = true ∨ x = getHash env b := by
  rcases acceptBlock_sameTree h with hs | hs
  · exact .inl (Node.index_congr hs.ledger ▸ hx)
  · rw [Node.index_congr hs.ledger, store_index] at hx
    split_ifs at hx with hb
    · exact .inr hb
    · exact .inl hx

end Accept

/-! ### The work queue -/

section Queue

variable {inputs : ℕ → AcceptInput} {s s' : WorkQueue} {os : List CBlock}

/-- What trying some orphans one after the other does. -/
structure Tried (env : Env) (os : List CBlock) (s s' : WorkQueue) : Prop where
  byPrev : s'.pool.mapOrphanBlocksByPrev = s.pool.mapOrphanBlocksByPrev
  erased : ∀ h, s'.pool.mapOrphanBlocks.find? h =
    if h ∈ os.map (getHash env) then none else s.pool.mapOrphanBlocks.find? h
  tried : ∀ o, (∃ ok, (o, ok) ∈ s'.tried) ↔ (∃ ok, (o, ok) ∈ s.tried) ∨ o ∈ os
  queued : ∀ o, (o, true) ∈ s'.tried → (o, true) ∈ s.tried ∨ getHash env o ∈ s'.vWorkQueue
  queue : ∀ h ∈ s.vWorkQueue, h ∈ s'.vWorkQueue
  tree : ∀ x, (s'.node.index x).isSome = true →
    (s.node.index x).isSome = true ∨ x ∈ os.map (getHash env)

lemma tryOrphan_tried {o : CBlock} (h : tryOrphan env inputs s o = some s') :
    Tried env [o] s s' := by
  obtain ⟨⟨n, r⟩, hacc, rfl⟩ := Option.map_eq_some_iff.mp h
  refine ⟨rfl, fun h => ?_, fun o' => ?_, fun o' ho' => ?_, fun h hh => ?_, fun x hx => ?_⟩
  · simp [StdMap.find?_erase]
  · simp only [mem_append, mem_singleton, Prod.mk.injEq, exists_or, exists_and_left,
      exists_eq, and_true]
  · rcases mem_append.mp ho' with ho' | ho'
    · exact .inl ho'
    · obtain ⟨rfl, hr⟩ := Prod.mk.inj (mem_singleton.mp ho')
      right
      dsimp only
      rw [if_pos (of_decide_eq_true hr.symm)]
      simp
  · dsimp only
    split_ifs
    · exact mem_append_left _ hh
    · exact hh
  · simpa using AcceptInput.accept_index hacc hx

lemma tryOrphans_tried (h : tryOrphans env inputs s os = some s') : Tried env os s s' := by
  induction os generalizing s with
  | nil =>
    cases h
    exact ⟨rfl, by simp, by simp, fun _ => .inl, fun _ => id, fun _ => .inl⟩
  | cons o os ih =>
    obtain ⟨s₁, h₁, h₂⟩ := Option.bind_eq_some_iff.mp h
    have T₁ := tryOrphan_tried h₁
    have T₂ := ih h₂
    refine ⟨T₂.byPrev.trans T₁.byPrev, fun h => ?_, fun o' => ?_, fun o' ho' => ?_,
      fun h hh => T₂.queue h (T₁.queue h hh), fun x hx => ?_⟩
    · rw [T₂.erased, T₁.erased]
      simp only [map_cons, map_nil, mem_cons, not_mem_nil, or_false]
      split_ifs <;> tauto
    · rw [T₂.tried, T₁.tried, mem_singleton, mem_cons, or_assoc]
    · rcases T₂.queued o' ho' with ho' | ho'
      · exact (T₁.queued o' ho').imp_right (T₂.queue _)
      · exact .inr ho'
    · rw [map_cons, mem_cons]
      rcases T₂.tree x hx with hx | hx
      · rcases T₁.tree x hx with hx | hx
        · exact .inl hx
        · exact .inr (.inl (by simpa using hx))
      · exact .inr (.inr hx)

/-- The state of the queue after it was started for the block `hash` with the orphans of `pool`:
the orphans that were tried are those that are gone, and no orphan is left that waits for a block
the queue is through with. -/
structure Queued (env : Env) (pool : OrphanPool) (hash : ℕ) (s : WorkQueue) : Prop where
  kept : s.pool.Kept env
  holds : ∀ o, s.pool.Holds o ↔ pool.Holds o ∧ ¬∃ ok, (o, ok) ∈ s.tried
  done : ∀ h, (h = hash ∨ ∃ o, (o, true) ∈ s.tried ∧ h = getHash env o) →
    h ∈ s.vWorkQueue ∨ s.pool.waiting h = []
  unknown : ∀ o, s.pool.Holds o → s.node.index (getHash env o) = none

lemma Queued.step (Q : Queued env pool hash s) (h : workQueueStep env inputs s = .inl s') :
    Queued env pool hash s' := by
  unfold workQueueStep at h
  split at h
  · cases h
  · rename_i hashPrev rest hqueue
    split at h
    · cases h
    · rename_i s₁ hrun
      cases h
      have T := tryOrphans_tried hrun
      have K := Q.kept
      have hholds : ∀ o, (s₁.pool.erasePrev hashPrev).Holds o ↔
          s.pool.Holds o ∧ o.hashPrevBlock ≠ hashPrev := by
        intro o
        rw [OrphanPool.Holds, OrphanPool.erasePrev, T.byPrev]
        simp [OrphanPool.Holds]
      -- the hashes of the orphans tried are those of no other orphan
      have htried : ∀ o, s.pool.Holds o →
          (getHash env o ∈ (s.pool.waiting hashPrev).map (getHash env) ↔
            o.hashPrevBlock = hashPrev) := by
        intro o ho
        constructor
        · intro hm
          obtain ⟨o', ho', he⟩ := mem_map.mp hm
          obtain ⟨hh', hp'⟩ := K.mem_waiting.mp ho'
          rw [← K.eq_of_hash hh' ho he, hp']
        · exact fun hp => mem_map_of_mem (K.mem_waiting.mpr ⟨ho, hp⟩)
      have hkept : (s₁.pool.erasePrev hashPrev).Kept env := by
        refine ⟨fun {h b} hb => ?_, fun {k b} hb => ?_, ?_, fun b => ?_⟩
        · have hb' := T.erased h
          rw [show s₁.pool.mapOrphanBlocks.find? h = some b from hb] at hb'
          split_ifs at hb'
          exact K.hashed hb'.symm
        · have hb' := (mem_filter.mp hb).1
          rw [T.byPrev] at hb'
          exact K.placed hb'
        · have honce := K.once
          rw [← T.byPrev] at honce
          exact honce.filter _
        · rw [hholds, ← K.same]
          refine (Eq.congr_left (T.erased (getHash env b))).trans ?_
          by_cases hb : s.pool.Holds b
          · rw [(K.same b).mpr hb]
            split_ifs with hm
            · simp [(htried b hb).mp hm]
            · simpa using fun hp => hm ((htried b hb).mpr hp)
          · have hno : s.pool.mapOrphanBlocks.find? (getHash env b) ≠ some b := fun h =>
              hb ((K.same b).mp h)
            split_ifs <;> simp [hno]
      refine ⟨hkept, fun o => ?_, fun h hh => ?_, fun o ho => ?_⟩
      · rw [hholds, Q.holds, T.tried, K.mem_waiting, Q.holds]
        tauto
      · have hgone : s.pool.waiting h = [] ∨ h = hashPrev →
            (s₁.pool.erasePrev hashPrev).waiting h = [] := by
          rintro hcase
          refine eq_nil_iff_forall_not_mem.mpr fun o ho => ?_
          obtain ⟨ho, hp⟩ := hkept.mem_waiting.mp ho
          obtain ⟨ho, hne⟩ := (hholds o).mp ho
          rcases hcase with hnil | rfl
          · have : o ∈ s.pool.waiting h := K.mem_waiting.mpr ⟨ho, hp⟩
            rw [hnil] at this
            cases this
          · exact hne hp
        have hold : (h = hash ∨ ∃ o, (o, true) ∈ s.tried ∧ h = getHash env o) →
            h ∈ s₁.vWorkQueue ∨ (s₁.pool.erasePrev hashPrev).waiting h = [] := by
          intro hh
          rcases Q.done h hh with hq | hq
          · rw [hqueue] at hq
            rcases mem_cons.mp hq with rfl | hq
            · exact .inr (hgone (.inr rfl))
            · exact .inl (T.queue h hq)
          · exact .inr (hgone (.inl hq))
        rcases hh with rfl | ⟨o, ho, rfl⟩
        · exact hold (.inl rfl)
        · rcases T.queued o ho with ho | ho
          · exact hold (.inr ⟨o, ho, rfl⟩)
          · exact .inl ho
      · obtain ⟨ho, hne⟩ := (hholds o).mp ho
        cases hidx : s₁.node.index (getHash env o) with
        | none => rfl
        | some p =>
          rcases T.tree _ (Option.isSome_iff_exists.mpr ⟨p, hidx⟩) with hx | hx
          · have hx' : (s.node.index (getHash env o)).isSome = true := hx
            rw [Q.unknown o ho] at hx'
            cases hx'
          · exact absurd ((htried o ho).mp hx) hne

lemma Queued.run (Q : Queued env pool hash s)
    (h : (Loop.doWhile (workQueueStep env inputs) fuel s).join = some s') :
    Queued env pool hash s' ∧ s'.vWorkQueue = [] := by
  rw [Option.join_eq_some_iff] at h
  refine Loop.doWhile_spec (I := Queued env pool hash)
    (Q := fun r => r = some s' → Queued env pool hash s' ∧ s'.vWorkQueue = [])
    (fun _ _ hQ => hQ.step) (fun s r hQ hleave hr => ?_) Q h rfl
  subst hr
  unfold workQueueStep at hleave
  split at hleave
  · rename_i hnil
    cases hleave
    exact ⟨hQ, hnil⟩
  · split at hleave <;> cases hleave

end Queue

/-! ### Runs -/

section Runs

variable {inputs : ℕ → AcceptInput} {now : ℤ} {pfrom : Bool}
variable {n : Node} {r : Processed}

/-- The pool is in order, and no orphan is in the block tree. -/
structure PoolKept (env : Env) (s : Node × OrphanPool) : Prop where
  kept : s.2.Kept env
  unknown : ∀ o, s.2.Holds o → s.1.index (getHash env o) = none

section

variable (P : PoolKept env (n, pool))

include P

lemma PoolKept.accept
    (hb : pool.mapOrphanBlocks.contains (getHash env b) = false) {i : AcceptInput} {n' : Node}
    {res : Check} (hacc : i.accept env n b = some (n', res)) : PoolKept env (n', pool) := by
  refine ⟨P.kept, fun o ho => ?_⟩
  cases hidx : n'.index (getHash env o) with
  | none => rfl
  | some p =>
    rcases AcceptInput.accept_index hacc (Option.isSome_iff_exists.mpr ⟨p, hidx⟩) with hx | hx
    · rw [P.unknown o ho] at hx
      cases hx
    · rw [← hx, StdMap.contains, (P.kept.same o).mpr ho] at hb
      cases hb

lemma PoolKept.queued (hash : ℕ) :
    Queued env pool hash ⟨n, pool, [hash], []⟩ := by
  refine ⟨P.kept, fun o => by simp, fun h hh => ?_, P.unknown⟩
  rcases hh with rfl | ⟨o, ho, -⟩
  · exact .inl (by simp)
  · cases ho

end

end Runs

end

namespace Toy

end Toy

end FreechCore
