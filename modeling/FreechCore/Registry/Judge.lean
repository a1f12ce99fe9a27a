import FreechCore.Registry.Reorganise

/-!
The judgement of a block, given a way to look up names. `ConnectBlock` looks names up through
the index and the main-chain vector; as long as the index has the names of the vector's
chain right, it judges a block by that chain, whatever the chain the block lies on.
-/

namespace FreechCore

open BackLink Ledger List Option

variable {fuel : ℕ} {n m m' : Node} {env : Env} {A W : List ℕ}

section Verdicts

variable (env : Env) (look : Bytes → Option Found)

/-- The verdict on a promoted message. -/
def spamVerdict (tx : CTransaction) : Check :=
  let spamUser := CScript.extractPushDataString tx.userName 0
  if spamUser = nobody then .ok ()
  else if CScript.extractPushDataString tx.userName 1 = [] then
    .error (.invalid 100 ["ConnectBlock() : spam signature missing"])
  else
    match look spamUser with
    | none =>
      .error (.invalid 100 ["ConnectBlock() : spam signed by unknown user " ++ logText spamUser])
    | some (txPubKey, _) => checkSpamSignature env tx txPubKey

/-- A registration may stand over the one that is looked up for its name. -/
def overwriteAllowed (tx : CTransaction) : Bool :=
  match look tx.getUsername with
  | none => true
  | some (old, _) => decide (Allowed env old tx)

/-- The block is in order, if names are looked up as given. -/
structure CBlock.Passes (b : CBlock) (now : ℤ) : Prop where
  check : checkBlock env now true true b = .ok ()
  spam : ∃ tx, b.vtx.head? = some tx ∧ spamVerdict env look tx = .ok ()
  overwrite : ∀ tx ∈ b.registrations, overwriteAllowed env look tx = true

variable {env look}

lemma checkSpamUser_eq {H : ℤ} {tx : CTransaction} {res : Check}
    (hlook : ∀ u r, getTransaction env fuel n u H = some r → r = look u)
    (h : checkSpamUser env fuel n H tx = some res) : res = spamVerdict env look tx := by
  unfold checkSpamUser at h
  unfold spamVerdict
  dsimp only at h ⊢
  split_ifs at h ⊢
  · exact (some.inj h).symm
  · exact (some.inj h).symm
  · split at h
    · cases h
    · rename_i hg
      rw [← hlook _ _ hg]
      exact (some.inj h).symm
    · rename_i txPubKey y hg
      rw [← hlook _ _ hg]
      exact (some.inj h).symm

end Verdicts

/-! ### Lookups that go by the vector's chain -/

section Right

variable {W' : List ℕ} {u : Bytes}

/-- A lookup of the name that returns has the right answer for the chain `A`. -/
def Node.Right (n : Node) (env : Env) (A : List ℕ) (u : Bytes) : Prop :=
  ∀ fuel k r, getTransaction env fuel n u k = some r → r = n.ledger.latest u A (n.heightBound k)

lemma getTransaction_congr (h : Working env m A W) (h' : Working env m' A W')
    (hL : m'.ledger = m.ledger) (he : m'.entries env u = m.entries env u) (fuel : ℕ) (k : ℤ) :
    getTransaction env fuel m' u k = getTransaction env fuel m u k := by
  have hmain : m'.isInMainChain = m.isInMainChain := by
    funext x
    rw [Bool.eq_iff_iff, h'.isInMainChain_iff, h.isInMainChain_iff]
  have hb : m'.heightBound k = m.heightBound k := by
    unfold Node.heightBound
    rw [h'.best, h.best]
  rw [getTransaction_eq h'.tree h'.sound, getTransaction_eq h.tree h.sound, hL, he, hmain, hb]

lemma Node.Right.congr (hr : m.Right env A u) (h : Working env m A W) (h' : Working env m' A W')
    (hL : m'.ledger = m.ledger) (he : m'.entries env u = m.entries env u) : m'.Right env A u := by
  intro fuel k r hg
  have hb : m'.heightBound k = m.heightBound k := by
    unfold Node.heightBound
    rw [h'.best, h.best]
  rw [getTransaction_congr h h' hL he] at hg
  rw [hL, hb]
  exact hr fuel k r hg

lemma Ledger.latest_eq_none {L : Ledger} (hu : L.history u A = []) (k : ℤ) :
    L.latest u A k = none := by
  rw [← Working.find?_history, hu]
  rfl

lemma Ledger.latest_ne_none {L : Ledger} {z : ℕ} (hz : z ∈ A) (hu : L.registers u z = true)
    {k : ℤ} (hk : L.ht z ≤ k) : L.latest u A k ≠ none := by
  have hsome : ((L.history u A).find? fun y => decide (L.ht y ≤ k)).isSome = true :=
    List.find?_isSome.mpr ⟨z, mem_history.mpr ⟨hz, hu⟩, by simpa using hk⟩
  obtain ⟨w, hw⟩ := isSome_iff_exists.mp hsome
  obtain ⟨old, -, hfound⟩ := found_eq_some (mem_history.mp (mem_of_find?_eq_some hw)).2
  rw [← Working.find?_history, hw]
  simp [hfound]

lemma Working.right_of_absent (h : Working env m A W) (hu : m.ledger.history u A = []) :
    m.Right env A u := by
  intro fuel k r hg
  cases fuel with
  | zero => cases hg
  | succ fuel =>
    rw [h.getTransaction_off fun _ => h.not_mem_of_absent hu, some.injEq] at hg
    rw [← hg, latest_eq_none hu]

lemma Working.right (h : Working env n A A) (ht : n.Tidy env A A) (u : Bytes) :
    n.Right env A u := by
  intro fuel k r hg
  exact getTransaction_unique hg
    (h.getTransaction_latest ht (h.heightBound_nonneg k) (Nat.lt_succ_self _))

/-- The registers of the names of the chain `A` are as in `n`. -/
def Node.Keeps (n : Node) (env : Env) (A : List ℕ) (m : Node) : Prop :=
  ∀ u, n.ledger.history u A ≠ [] → m.entries env u = n.entries env u

lemma Node.Keeps.right (hk : n.Keeps env A m) (h : Working env n A A) (ht : n.Tidy env A A)
    (h' : Working env m A W) (hL : m.ledger = n.ledger) (u : Bytes) : m.Right env A u := by
  by_cases hu : n.ledger.history u A = []
  · exact h'.right_of_absent (hL ▸ hu)
  · exact (h.right ht u).congr h h' hL (hk u hu)

end Right

/-! ### The overwrite check, judged by the vector's chain -/

section Overwrite

variable {tx : CTransaction} {res : Check}
variable {l : List CTransaction}

/-- What is looked up for a block at height `H`. -/
def Ledger.lookAt (L : Ledger) (A : List ℕ) (H : ℤ) (u : Bytes) : Option Found := L.latest u A H

lemma Working.latest_best (h : Working env m A W) {u : Bytes} (hu : m.ledger.history u A ≠ []) :
    m.ledger.latest u A m.nBestHeight ≠ none := by
  obtain ⟨x, hx⟩ := exists_mem_of_ne_nil _ hu
  rw [mem_history] at hx
  exact latest_ne_none hx.1 hx.2 (h.ht_le_best hx.1)

/-- **The check of one registration** goes by what the vector's chain has for its name. -/
lemma checkOverwriteTx_judged (h : Working env m A W) (hr : m.Right env A tx.getUsername)
    (hc : checkOverwriteTx env fuel m W.length tx = some (m', res)) :
    (res = .ok () ↔ overwriteAllowed env (m.ledger.lookAt A W.length) tx = true) ∧
      (m.ledger.history tx.getUsername A = [] ∨
        m.ledger.lookAt A W.length tx.getUsername ≠ none → m' = m) ∧
      (m.ledger.history tx.getUsername A ≠ [] →
        m.ledger.lookAt A W.length tx.getUsername = none →
          m' = m.eraseTxIndex (tx.getUsername, -1)) := by
  obtain ⟨o, ho, ho'⟩ := checkOverwriteTx_returns hc
  have hb := heightBound_of_nonneg (n := m) (H := W.length) (by omega)
  have hbest := hr _ _ _ ho
  unfold overwriteAllowed Ledger.lookAt
  cases o with
  | none =>
    have hu : m.ledger.history tx.getUsername A = [] := by
      by_contra hu
      exact h.latest_best hu hbest.symm
    rw [checkOverwriteTx_hidden ho, some.injEq, Prod.mk.injEq] at hc
    rw [latest_eq_none hu]
    exact ⟨by simp [hc.2], fun _ => hc.1.symm, fun hne => absurd hu hne⟩
  | some f =>
    obtain ⟨o', hH⟩ := ho' (by simp)
    have hat := hr _ _ _ hH
    rw [hb] at hat
    rw [← hat]
    cases o' with
    | some f' =>
      rw [checkOverwriteTx_found ho hH, some.injEq, Prod.mk.injEq] at hc
      refine ⟨?_, fun _ => hc.1.symm, fun _ hn => by cases hn⟩
      rw [← hc.2, verdict_eq_ok]
      simp
    | none =>
      have hu : m.ledger.history tx.getUsername A ≠ [] := by
        intro hu
        rw [latest_eq_none hu] at hbest
        cases hbest
      have hs : (m.txIndex (tx.getUsername, -1)).isSome = true := by
        rw [isSome_iff_ne_none]
        intro hn
        have hz : m.entries env tx.getUsername (-1) = none := entries_none hn
        cases fuel with
        | zero => cases ho
        | succ fuel =>
          rw [h.getTransaction_off (by rw [hz]; intro z hz; cases hz)] at ho
          cases ho
      rw [checkOverwriteTx_orphan ho hH hs, some.injEq, Prod.mk.injEq] at hc
      refine ⟨by simp [hc.2], fun hor => ?_, fun _ _ => hc.1.symm⟩
      rcases hor with hn | hn
      · exact absurd hn hu
      · exact absurd rfl hn

/-- What the overwrite check makes of a block, judged by the vector's chain: whether it passes,
and which names of the chain lose their newest entry. -/
structure Judged (env : Env) (A : List ℕ) (H : ℤ) (l : List CTransaction) (m m' : Node)
    (res : Check) : Prop where
  verdict : res = .ok () ↔ ∀ tx ∈ l, overwriteAllowed env (m.ledger.lookAt A H) tx = true
  kept : ∀ u, (∀ tx ∈ l.takeWhile (overwriteAllowed env (m.ledger.lookAt A H)),
    tx.getUsername = u → m.ledger.history u A ≠ [] → m.ledger.lookAt A H u ≠ none) →
      m'.entries env u = m.entries env u
  dropped : ∀ tx ∈ l.takeWhile (overwriteAllowed env (m.ledger.lookAt A H)),
    m.ledger.history tx.getUsername A ≠ [] → m.ledger.lookAt A H tx.getUsername = none →
      m'.entries env tx.getUsername (-1) = none

/-- **The overwrite check of a block** goes by what the vector's chain has for its names. -/
lemma checkOverwrite_judged (h : Working env m A W)
    (hr : ∀ tx ∈ l, m.Right env A tx.getUsername) (hnd : (l.map CTransaction.getUsername).Nodup)
    (hc : checkOverwrite env fuel W.length m l = some (m', res)) :
    Judged env A W.length l m m' res := by
  induction l generalizing m with
  | nil =>
    obtain ⟨rfl, rfl⟩ := hc
    exact ⟨by simp, fun _ _ => rfl, fun tx htx => by cases htx⟩
  | cons tx l ih =>
    rw [map_cons, nodup_cons] at hnd
    unfold checkOverwrite at hc
    cases h₁ : checkOverwriteTx env fuel m W.length tx with
    | none => simp [h₁] at hc
    | some r =>
      obtain ⟨m₁, res₁⟩ := r
      simp only [h₁] at hc
      obtain ⟨hv, hsame, hdrop⟩ := checkOverwriteTx_judged h (hr tx (by simp)) h₁
      cases res₁ with
      | error f =>
        cases hc
        have hno : overwriteAllowed env (m.ledger.lookAt A W.length) tx = false := by
          rw [← Bool.not_eq_true, ← hv]
          simp
        have hm : m' = m := hsame (Or.inr fun hn => by simp [overwriteAllowed, hn] at hno)
        refine ⟨?_, ?_, ?_⟩
        · simp [hno]
        · intro u _; rw [hm]
        · intro t ht
          simp [hno] at ht
      | ok v =>
        have hyes := hv.mp rfl
        obtain ⟨hL, hW, -, hrow⟩ := checkOverwriteTx_keeps h h₁
        have hne : ∀ t ∈ l, t.getUsername ≠ tx.getUsername := fun t ht e =>
          hnd.1 (e ▸ mem_map_of_mem ht)
        obtain ⟨j1, j2, j3⟩ := ih hW (fun t ht => (hr t (mem_cons_of_mem _ ht)).congr h hW hL
          (hrow _ (hne t ht))) hnd.2 hc
        rw [hL] at j1 j2 j3
        refine ⟨?_, ?_, ?_⟩
        · rw [j1]
          simp [hyes]
        · intro u hu
          rw [takeWhile_cons_of_pos hyes] at hu
          have hm : m₁.entries env u = m.entries env u := by
            by_cases hut : u = tx.getUsername
            · subst hut
              rw [hsame (by tauto)]
            · exact hrow u hut
          rw [← hm]
          exact j2 u fun t ht => hu t (mem_cons_of_mem _ ht)
        · intro t ht hne' hn
          rw [takeWhile_cons_of_pos hyes] at ht
          rcases mem_cons.mp ht with rfl | ht
          · -- the names after it are others, so the entry stays dropped
            rw [j2 t.getUsername fun t' ht' e =>
              absurd e (hne t' ((takeWhile_sublist _).subset ht')), hdrop hne' hn,
              entries_eraseTxIndex, if_pos rfl]
            simp [eraseLatest]
          · exact j3 t ht hne' hn

end Overwrite

/-! ### Blocks, judged by the vector's chain -/

section Block

variable {now : ℤ} {x : ℕ} {p : CBlockIndex}
variable {b : CBlock} {view view' : Option ℕ} {f : Failure}

/-- The check of a block takes no name off the chain `A`: if it gets as far as the overwrite
check, every name of the chain that is checked before a registration is refused can be looked
up at the height of the block. -/
def CBlock.Spares (b : CBlock) (env : Env) (look : Bytes → Option Found) (now : ℤ)
    (known : Bytes → Prop) : Prop :=
  checkBlock env now true true b = .ok () →
    (∃ tx, b.vtx.head? = some tx ∧ spamVerdict env look tx = .ok ()) →
      ∀ tx ∈ b.registrations.takeWhile (overwriteAllowed env look), known tx.getUsername →
        look tx.getUsername ≠ none

lemma Ledger.Stored.height_eq (T : m.ledger.Tree env) (B : m.ledger.Stored env x p b)
    (hx : m.ledger.Chain (x :: W)) : b.nHeight = W.length := by
  rw [B.height, ← heightOf_eq B.index, hx.height T]

lemma lookAt_of_right (hr : ∀ u, m.Right env A u) (hH : b.nHeight = W.length) (u : Bytes)
    (r : Option Found) (hg : getTransaction env fuel m u b.nHeight = some r) :
    r = m.ledger.lookAt A W.length u := by
  have hb := heightBound_of_nonneg (n := m) (H := W.length) (by omega)
  rw [hH] at hg
  have := hr u _ _ _ hg
  rwa [hb] at this

section

variable (h : Working env m A W) (B : m.ledger.Stored env x p b) (hx : m.ledger.Chain (x :: W))
  (hr : ∀ u, m.Right env A u)

include h B hx hr

/-- **A block that connects** passes, judged by the vector's chain. -/
lemma connectBlock_passes
    (hc : connectBlock env fuel now m view x p b false = some (m', view', .ok ())) :
    b.Passes env (m.ledger.lookAt A W.length) now := by
  have hH := B.height_eq h.tree hx
  obtain ⟨n₁, C, -⟩ := connectBlock_ok (h.hash_ne_genesis B hx) hc
  obtain ⟨tx, htx, hs⟩ := C.spam
  refine ⟨C.check, ⟨tx, htx, (checkSpamUser_eq (lookAt_of_right hr hH) hs).symm⟩, ?_⟩
  have J := checkOverwrite_judged h (fun tx _ => hr _) (checkBlock_checked C.check).names
    (hH ▸ C.overwrite)
  exact J.verdict.mp rfl

/-- **A block that does not connect** does not pass. It leaves the names of the vector's chain
alone exactly if it spares them. -/
lemma connectBlock_refuses
    (hc : connectBlock env fuel now m view x p b false = some (m', view', .error f)) :
    ¬ b.Passes env (m.ledger.lookAt A W.length) now ∧
      (b.Spares env (m.ledger.lookAt A W.length) now (m.ledger.history · A ≠ []) →
        m.Keeps env A m') ∧
      ((∀ u, m.ledger.history u A ≠ [] → m'.entries env u (-1) ≠ none) →
        b.Spares env (m.ledger.lookAt A W.length) now (m.ledger.history · A ≠ [])) := by
  have hH := B.height_eq h.tree hx
  rcases (connectBlock_error hc).2 with ⟨rfl, hno⟩ | ⟨hcheck, tx, htx, ⟨rfl, hs⟩ | ⟨hs, ho⟩⟩
  · have hno : checkBlock env now true true b ≠ .ok () := by simp [hno]
    exact ⟨fun hp => hno hp.check, fun _ _ _ => rfl, fun _ hok => absurd hok hno⟩
  · have hv := checkSpamUser_eq (lookAt_of_right hr hH) hs
    have hno : ¬ ∃ tx, b.vtx.head? = some tx ∧
        spamVerdict env (m'.ledger.lookAt A W.length) tx = .ok () := by
      rintro ⟨tx', htx', hok⟩
      cases htx.symm.trans htx'
      cases hv.trans hok
    exact ⟨fun hp => hno hp.spam, fun _ _ _ => rfl, fun _ _ hok => absurd hok hno⟩
  · have hv := checkSpamUser_eq (lookAt_of_right hr hH) hs
    have J := checkOverwrite_judged h (fun tx _ => hr _) (checkBlock_checked hcheck).names
      (hH ▸ ho)
    refine ⟨fun hp => ?_, fun hsp u hu => ?_, fun hne _ _ t ht hk hn => ?_⟩
    · cases J.verdict.mpr hp.overwrite
    · refine J.kept u fun t ht htu hk => ?_
      rw [← htu]
      exact hsp hcheck ⟨tx, htx, hv.symm⟩ t ht (htu ▸ hk)
    · exact hne _ hk (J.dropped t ht hk hn)

end

def Node.PassesBy (n : Node) (env : Env) (now : ℤ) (A : List ℕ) (x : ℕ) : Prop :=
  ∃ b, n.readBlockFromDisk env x = some b ∧
    b.Passes env (n.ledger.lookAt A (n.ledger.ht x)) now

lemma readBlockFromDisk_congr (hL : m.ledger = n.ledger) (x : ℕ) :
    m.readBlockFromDisk env x = n.readBlockFromDisk env x := by
  have hi : m.index = n.index := congrArg index hL
  have hf : m.blockFiles = n.blockFiles := congrArg blockFiles hL
  unfold Node.readBlockFromDisk
  rw [hi, hf]

end Block

end FreechCore
