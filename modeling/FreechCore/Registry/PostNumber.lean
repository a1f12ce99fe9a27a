import FreechCore.Registry.Runs

/-!
How many posts a user may have. The limit grows with the number of blocks since the newest
registration of the user. Anybody may put a registration into a block again that is on the
chain already: it counts as new, and the limit drops.
-/

namespace FreechCore

open BackLink Ledger List Option Relation

/-- Whether the user may have a post with the number `k`. -/
def validatePostNumberForUser (env : Env) (fuel : ℕ) (n : Node) (username : Bytes) (k : ℤ) :
    Option Bool :=
  match getTransaction env fuel n username (-1) with
  | none => none
  | some none => some false
  | some (some (_, hashBlock)) =>
    if k < 0 then some false
    else if 0 < n.nBestHeight ∧ 2 * (n.nBestHeight - n.heightOf hashBlock) + 20 < k then some false
    else some true

def Node.Validates (n : Node) (env : Env) (u : Bytes) (k : ℤ) : Prop :=
  ∃ fuel, validatePostNumberForUser env fuel n u k = some true

/-- A call of `SetBestChain` that goes through and adds blocks on top of the active chain. -/
def Extends (env : Env) (c : Call) (n : Node) : Prop :=
  (∃ n', c.run env n = some (n', .ok ())) ∧ ∃ con f l, n.Branches c.pindexNew [] con f l ∧
    ∀ h ∈ con, (n.nStatus h).failed = false

section PostNumber

variable {env : Env} {n n' : Node} {A up : List ℕ} {u : Bytes} {k : ℤ}

lemma Settled.validates_iff (S : Settled env n A) : n.Validates env u k ↔
    ∃ y R, n.ledger.history u A = y :: R ∧ 0 ≤ k ∧
      (1 < A.length → k ≤ 2 * ((A.length : ℤ) - 1 - n.ledger.ht y) + 20) := by
  have h := S.working
  cases hR : n.ledger.history u A with
  | nil =>
    -- the name is not on the chain and not found
    refine iff_of_false ?_ (by simp)
    rintro ⟨fuel, hf⟩
    cases fuel with
    | zero => cases hf
    | succ fuel =>
      have hlook := h.getTransaction_off (fun _ => h.not_mem_of_absent hR) (-1) fuel
      simp [validatePostNumberForUser, hlook] at hf
  | cons y R =>
    have hy := mem_of_history_cons hR
    obtain ⟨tx, -, hfound⟩ := found_eq_some hy.2
    have hle : n.ledger.ht y ≤ n.heightBound (-1) := by
      exact h.ht_le_best hy.1
    have hlook : ∀ fuel, getTransaction env (fuel + 1) n u (-1) = some (some (tx, y)) := fun fuel => by
      rw [h.getTransaction_entry (h.entry_head hR) hy.1 hle, hfound]
    have hval : ∀ fuel, validatePostNumberForUser env (fuel + 1) n u k = some true ↔
        0 ≤ k ∧ (1 < A.length → k ≤ 2 * ((A.length : ℤ) - 1 - n.ledger.ht y) + 20) := by
      intro fuel
      have hht : (n.heightOf y : ℤ) = n.ledger.ht y := rfl
      simp only [validatePostNumberForUser, hlook, h.best, hht]
      split_ifs with h1 h2
      · exact iff_of_false (by simp) (by omega)
      · refine iff_of_false (by simp) fun hno => ?_
        omega
      · exact iff_of_true rfl ⟨by omega, fun hA => by omega⟩
    constructor
    · rintro ⟨fuel, hf⟩
      cases fuel with
      | zero => cases hf
      | succ fuel => exact ⟨y, R, rfl, (hval fuel).mp hf⟩
    · rintro ⟨y', R', he, hk⟩
      rw [List.cons.injEq] at he
      exact ⟨1, (hval 0).mpr (by rw [he.1]; exact hk)⟩

lemma Ledger.Grows.trans {L L' L'' : Ledger} (h : L.Grows L') (h' : L'.Grows L'') : L.Grows L'' :=
  ⟨fun hp => h'.index (h.index hp), fun hb => h'.file (h.file hb)⟩

lemma Ledger.Grows.of_eq {L L' : Ledger} (h : L' = L) : L.Grows L' :=
  h ▸ ⟨fun hp => hp, fun hb => hb⟩

lemma Settled.extended (S : Settled env n A) (hr : ReflTransGen (Step env (Extends env)) n n') :
    ∃ up, Settled env n' (up ++ A) ∧ n.ledger.Grows n'.ledger := by
  induction hr with
  | refl => exact ⟨[], S, .of_eq rfl⟩
  | @tail m m' _ hstep ih =>
    obtain ⟨up, S', G⟩ := ih
    cases hstep with
    | store hfit =>
      exact ⟨up, S'.grow hfit.grewTo (hfit.tree S'.working.tree S'.genesis), G.trans hfit.grows⟩
    | @mark _ _ above _ =>
      have hs := Node.SameChain.foldl .markFailedChild above m
      exact ⟨up, S'.congr hs, G.trans (.of_eq hs.ledger)⟩
    | adopt cp => exact ⟨up, S'.congr ⟨rfl, rfl, rfl, rfl, rfl, rfl, rfl⟩, G⟩
    | switch hP hrun =>
      obtain ⟨⟨m₁, hm⟩, con, f, l, B, hf⟩ := hP
      rw [hm, some.injEq, Prod.mk.injEq] at hrun
      obtain ⟨rfl, -⟩ := hrun
      have hA : up ++ A = f :: l := S'.eq_left B
      rw [hA] at S'
      rcases setBestChain_cases S' B hm with ⟨-, h, -⟩ | ⟨-, -, R⟩ |
        ⟨-, g, _, _, _, _, _, _, _, h, -⟩
      · cases h
      · have hR := R (joinable_eq_reverse.mpr hf)
        refine ⟨con ++ up, ?_, G.trans (.of_eq hR.ledger)⟩
        rw [append_assoc, hA]
        exact hR.settled
      · cases h

/-- **When a post number stays valid.** A valid number stays valid on an extension of the
chain exactly if it is within the limit that the newest registration of the user in the
extension sets. -/
theorem validates_extension_iff (S : Settled env n A) (hv : n.Validates env u k)
    (hr : ReflTransGen (Step env (Extends env)) n n') (hA : n'.Active (up ++ A)) :
    n'.Validates env u k ↔ ∀ hi y lo, up = hi ++ y :: lo → n'.ledger.registers u y = true →
      n'.ledger.history u hi = [] → k ≤ 2 * hi.length + 20 := by
  obtain ⟨up', S', G⟩ := S.extended hr
  obtain rfl : up = up' := append_cancel_right (hA.unique S'.active)
  obtain ⟨y, R, hR, hk, hlim⟩ := S.validates_iff.mp hv
  have T := S'.working.tree
  have hhist : n'.ledger.history u A = y :: R :=
    (G.history S.working.tree S.working.chainA).trans hR
  have hlen : 1 < A.length := by
    have hy := mem_of_history_cons hR
    obtain ⟨p, hp⟩ := S.working.chainA.index_eq hy.1
    have h0 := S.working.tree.height_pos hp hy.2
    have h1 := S.working.chainA.height_lt_length S.working.tree hy.1
    unfold ht at h0
    omega
  -- the height of a block of the extension
  have hht : ∀ {hi lo : List ℕ} {z : ℕ}, up = hi ++ z :: lo →
      n'.ledger.ht z = (lo.length : ℤ) + A.length := by
    intro hi lo z he
    have hch := S'.working.chainA
    rw [he, append_assoc, cons_append] at hch
    unfold ht
    rw [(hch.of_append (by simp)).height T, length_append]
    rfl
  rw [S'.validates_iff]
  constructor
  · rintro ⟨x, Q, hQ, -, hx⟩ hi z lo he hz hnone
    rw [he, history_append, history_append, hnone, nil_append,
      history_cons_of_registers hz, cons_append, List.cons.injEq] at hQ
    have hb := hx (by rw [length_append]; omega)
    rw [← hQ.1, hht he, he] at hb
    simp only [length_append, length_cons] at hb
    omega
  · intro hall
    cases hup : n'.ledger.history u up with
    | nil =>
      refine ⟨y, R, by rw [history_append, hup, hhist, nil_append], hk, fun _ => ?_⟩
      have hy := mem_of_history_cons hR
      obtain ⟨p, hp⟩ := S.working.chainA.index_eq hy.1
      rw [G.ht hp, length_append]
      omega
    | cons z Q =>
      obtain ⟨hi, lo, he, hno, hz, -⟩ := filter_eq_cons_iff.mp hup
      have hb := hall hi z lo he hz (filter_eq_nil_iff.mpr hno)
      refine ⟨z, Q ++ y :: R, by rw [history_append, hup, hhist, cons_append], hk,
        fun _ => ?_⟩
      rw [hht he, he]
      simp only [length_append, length_cons]
      omega

lemma validatePostNumberForUser_unique {f g : ℕ} {a b : Bool}
    (h : validatePostNumberForUser env f n u k = some a)
    (h' : validatePostNumberForUser env g n u k = some b) : a = b := by
  unfold validatePostNumberForUser at h h'
  cases hf : getTransaction env f n u (-1) with
  | none => simp [hf] at h
  | some r =>
    cases hg : getTransaction env g n u (-1) with
    | none => simp [hg] at h'
    | some r' =>
      cases getTransaction_unique hf hg
      rw [hf] at h
      rw [hg] at h'
      exact some.inj (h.symm.trans h')

end PostNumber

namespace Toy

lemma extends_of_branches {b : CBlock} {m m' : Node} {f : ℕ} {l : List ℕ}
    (B : m.Branches (getHash env b) [] [getHash env b] f l)
    (hf : (m.nStatus (getHash env b)).failed = false)
    (hr : (call (getHash env b)).run env m = some (m', .ok ())) :
    Extends env (call (getHash env b)) m :=
  ⟨⟨m', hr⟩, _, f, l, B, by simpa using hf⟩

def registered : Option Node := started.bind (extend · (block 2 1 1 spam [register alice key1]))

end Toy

open Toy in
/-- A block without registrations leaves a post number valid. -/
theorem validates_next_block : ∃ n n', n.Active [2, 1] ∧ n.Validates Toy.env alice 20 ∧
    ReflTransGen (Step Toy.env (Extends Toy.env)) n n' ∧ n'.Active ([3] ++ [2, 1]) ∧
      n'.Validates Toy.env alice 20 := by
  have h : registered.map (fun n => (activeOf n, validatePostNumberForUser Toy.env 5 n alice 20)) =
      some (some [2, 1], some true) := by
    decide +kernel
  have h' : (registered.bind (extend · (block 3 2 2 spam []))).map (fun n =>
      (activeOf n, n.ledger.registrations 3)) = some (some [3, 2, 1], []) := by
    decide +kernel
  obtain ⟨n, hn, he⟩ := map_eq_some_iff.mp h
  obtain ⟨n', hn', he'⟩ := map_eq_some_iff.mp h'
  simp only [Prod.mk.injEq] at he he'
  rw [hn, bind_some] at hn'
  obtain ⟨n₀, hn₀, h₁⟩ := bind_eq_some_iff.mp hn
  have hs₁ : ReflTransGen (Step env (Extends env)) n₀ n :=
    extend_steps (fun _ _ _ _ => extends_of_branches) h₁
  have hs₂ : ReflTransGen (Step env (Extends env)) n n' :=
    extend_steps (fun _ _ _ _ => extends_of_branches) hn'
  have hA := active_of_activeOf he.1
  have hA' : n'.Active ([3] ++ [2, 1]) := active_of_activeOf he'.1
  obtain ⟨up, S, -⟩ := (started_of_eq hn₀).fresh.settled.extended hs₁
  have hS : Settled env n [2, 1] := S.active.unique hA ▸ S
  refine ⟨n, n', hA, ⟨5, he.2⟩, hs₂, hA', (validates_extension_iff hS ⟨5, he.2⟩ hs₂ hA').mpr ?_⟩
  intro hi y lo hup hy _
  have hy3 : y = 3 := mem_singleton.mp (by rw [hup]; simp)
  subst hy3
  simp [registers, registration, he'.2] at hy

open Toy in
/-- A block that holds the registration of the user once more takes a valid post number
away. -/
theorem validates_lowered : ∃ n n', n.Active [3, 2, 1] ∧ n.Validates Toy.env alice 22 ∧
    ReflTransGen (Step Toy.env (Extends Toy.env)) n n' ∧ n'.Active ([4] ++ [3, 2, 1]) ∧
    (∀ tx ∈ n'.ledger.registrations 4, tx ∈ n'.ledger.registrations 2) ∧
      ¬ n'.Validates Toy.env alice 22 := by
  have h : (registered.bind (extend · (block 3 2 2 spam []))).map (fun n =>
      (activeOf n, validatePostNumberForUser Toy.env 5 n alice 22)) =
      some (some [3, 2, 1], some true) := by
    decide +kernel
  have h' : ((registered.bind (extend · (block 3 2 2 spam []))).bind
      (extend · (block 4 3 3 spam [register alice key1]))).map (fun n =>
      (activeOf n, n.ledger.registrations 4, n.ledger.registrations 2,
        validatePostNumberForUser Toy.env 5 n alice 22)) =
      some (some [4, 3, 2, 1], [register alice key1], [register alice key1], some false) := by
    decide +kernel
  obtain ⟨n, hn, he⟩ := map_eq_some_iff.mp h
  obtain ⟨n', hn', he'⟩ := map_eq_some_iff.mp h'
  simp only [Prod.mk.injEq] at he he'
  obtain ⟨hA', h4, h2, hno⟩ := he'
  rw [hn, bind_some] at hn'
  refine ⟨n, n', active_of_activeOf he.1, ⟨5, he.2⟩,
    extend_steps (fun _ _ _ _ => extends_of_branches) hn', active_of_activeOf hA',
    by rw [h4, h2]; exact fun _ => id, ?_⟩
  rintro ⟨fuel, hf⟩
  cases validatePostNumberForUser_unique hf hno

end FreechCore
