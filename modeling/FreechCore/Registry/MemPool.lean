import FreechCore.Registry.Valid
import FreechCore.Registry.Lookups

/-!
What a switch leaves in the memory pool. The transactions of the abandoned branch are brought back
as far as they are accepted, while lookups go by the new chain but only up to the old best height;
then the transactions of the new branch are taken out, by their hashes. Nothing else is taken out:
a transaction stays although the new branch has given its name or its key to another one.
-/

namespace FreechCore

open Ledger List Option

/-- The transaction can be put on top of the chain: its name is free there, or it is signed with
the key that the chain has for the name. -/
def Ledger.Permits (L : Ledger) (env : Env) (A : List ℕ) (tx : CTransaction) : Prop :=
  ∀ y R old, L.history tx.getUsername A = y :: R → L.registration y tx.getUsername = some old →
    isReplacement env old tx = true

/-- Every transaction of the memory pool can be put on top of the chain. -/
def Node.Minable (n : Node) (env : Env) (A : List ℕ) : Prop :=
  ∀ h tx, n.mapTx.find? h = some tx → n.ledger.Permits env A tx

/-! ### The transactions of the two branches -/

/-- The transactions of a branch that is disconnected, as far as they are to be brought back. -/
def Node.returned (n : Node) (env : Env) (dis : List ℕ) : List CTransaction :=
  dis.flatMap fun h =>
    match n.index h, n.readBlockFromDisk env h with
    | some p, some b => b.vtx.filter fun tx =>
        !tx.isSpamMessage && decide (getTotalBlocksEstimate env < p.nHeight)
    | _, _ => []

def Node.branchTxs (n : Node) (env : Env) (con : List ℕ) : List CTransaction :=
  con.flatMap fun h => ((n.readBlockFromDisk env h).map CBlock.vtx).getD []

section

variable {env : Env} {fuel : ℕ} {n n' : Node}

section Branches

variable {now : ℤ} {view view' : Option ℕ}
variable {hs : List ℕ} {v : List CTransaction}

lemma returned_congr (hL : n'.ledger = n.ledger) (dis : List ℕ) :
    n'.returned env dis = n.returned env dis := by
  unfold Node.returned
  rw [Node.index_congr hL]
  simp only [readBlockFromDisk_congr hL]

lemma branchTxs_congr (hL : n'.ledger = n.ledger) (con : List ℕ) :
    n'.branchTxs env con = n.branchTxs env con := by
  unfold Node.branchTxs
  simp only [readBlockFromDisk_congr hL]

lemma disconnectAll_returned (hd : disconnectAll env n view hs = some (n', view', .ok v)) :
    v = n.returned env hs ∧ n'.mapTx = n.mapTx := by
  induction hs generalizing n view v with
  | nil => cases hd; exact ⟨rfl, rfl⟩
  | cons h hs ih =>
    unfold disconnectAll at hd
    split at hd
    · rename_i p b hp hb
      split at hd
      · cases hd
      · cases hd
      · rename_i n₁ view₁ hdis
        have hI := disconnectBlock_indexOnly hdis
        split at hd
        · rename_i n₂ view₂ v₂ hall
          cases hd
          obtain ⟨hv, hm⟩ := ih hall
          rw [returned_congr hI.frame.ledger] at hv
          refine ⟨?_, hm.trans (by rw [hI])⟩
          rw [hv, Node.returned, Node.returned, flatMap_cons]
          simp only [hp, hb]
        · rename_i hno
          exact absurd hd (hno n' view' v)
    · cases hd

lemma writeUndo_mapTx (n : Node) (h k : ℕ) : (writeUndo n h k).mapTx = n.mapTx := by
  have hw : ∀ m : Node, (m.writeBlockIndex h).mapTx = m.mapTx := by
    intro m
    unfold Node.writeBlockIndex
    split <;> rfl
  unfold writeUndo
  split_ifs
  · exact hw _
  · exact hw _
  · rfl

lemma connectBlock_mapTx {h : ℕ} {p : CBlockIndex} {b : CBlock}
    (hc : connectBlock env fuel now n view h p b false = some (n', view', .ok ())) :
    n'.mapTx = n.mapTx := by
  by_cases hg : getHash env b = hashGenesisBlock env
  · rw [(connectBlock_genesis hg hc).1]
  · obtain ⟨n₁, C, -, hn'⟩ := connectBlock_ok hg hc
    have hm : n₁.mapTx = n.mapTx := by rw [(checkOverwrite_indexOnly C.overwrite).1]
    rw [hn', ← hm]
    exact writeUndo_mapTx n₁ h b.nUndo

lemma connectAll_branchTxs (hc : connectAll env fuel now n view hs = some (n', view', .ok v)) :
    v = n.branchTxs env hs ∧ n'.mapTx = n.mapTx := by
  induction hs generalizing n view v with
  | nil => cases hc; exact ⟨rfl, rfl⟩
  | cons h hs ih =>
    unfold connectAll at hc
    split at hc
    · rename_i p b hp hb
      split at hc
      · cases hc
      · cases hc
      · rename_i n₁ view₁ hcb
        have hF := connectBlock_frame hcb
        split at hc
        · rename_i n₂ view₂ v₂ hall
          cases hc
          obtain ⟨hv, hm⟩ := ih hall
          rw [branchTxs_congr hF.ledger] at hv
          refine ⟨?_, hm.trans (connectBlock_mapTx hcb)⟩
          rw [hv, Node.branchTxs, Node.branchTxs, flatMap_cons, hb]
          rfl
        · rename_i hno
          exact absurd hc (hno n' view' v)
    · cases hc

end Branches

/-! ### What is brought back, and what is taken out -/

/-- The memory pool takes the transaction if lookups are as given and its hash is new. -/
structure Admits (env : Env) (look : Bytes → Option Found) (tx : CTransaction) : Prop where
  check : checkTransaction env tx = .ok ()
  loose : tx.isSpamMessage = false
  standard : env.testNet = true ∨ isStandardTx tx = true
  allowed : ∀ old x, look tx.getUsername = some (old, x) → isReplacement env old tx = true

/-- The transaction is the first of the list under its hash that is taken. -/
def FirstAdmitted (env : Env) (look : Bytes → Option Found) (vtx : List CTransaction)
    (tx : CTransaction) : Prop :=
  Admits env look tx ∧ ∃ l l', vtx = l ++ tx :: l' ∧
    ∀ t ∈ l, env.hashTx t = env.hashTx tx → ¬Admits env look t

section Pool

variable {look : Bytes → Option Found} {tx : CTransaction}
variable {vtx : List CTransaction}

lemma mempoolAccept_looks {ok : Bool}
    (hlook : ∀ u r, getTransaction env fuel n u (-1) = some r → r = look u)
    (hacc : mempoolAccept env fuel n tx = some (n', ok)) :
    (n.mapTx.find? (env.hashTx tx) = none ∧ Admits env look tx ∧
        n' = { n with mapTx := n.mapTx.insert (env.hashTx tx) tx }) ∨
      (¬(n.mapTx.find? (env.hashTx tx) = none ∧ Admits env look tx) ∧ n' = n) := by
  unfold mempoolAccept at hacc
  split_ifs at hacc with hbad
  · cases hacc
    refine .inr ⟨fun ⟨hnew, hA⟩ => ?_, rfl⟩
    rcases hbad with hcheck | hspam | ⟨htest, hstd⟩ | hin
    · exact hcheck hA.check
    · rw [hA.loose] at hspam
      cases hspam
    · rcases hA.standard with h1 | h1
      · rw [h1] at htest
        cases htest
      · rw [h1] at hstd
        cases hstd
    · rw [StdMap.contains, hnew] at hin
      cases hin
  · simp only [not_or, not_and, not_not, Bool.not_eq_true, Bool.not_eq_false] at hbad
    obtain ⟨hcheck, hspam, hstd, hin⟩ := hbad
    have hnew : n.mapTx.find? (env.hashTx tx) = none := isSome_eq_false_iff.mp hin |>
      isNone_iff_eq_none.mp
    have hstd' : env.testNet = true ∨ isStandardTx tx = true := by
      cases ht : env.testNet with
      | true => exact .inl rfl
      | false => exact .inr (hstd ht)
    split at hacc
    · cases hacc
    · rename_i hg
      cases hacc
      have hn := hlook _ _ hg
      exact .inl ⟨hnew, ⟨hcheck, hspam, hstd', fun old x hl => by rw [← hn] at hl; cases hl⟩, rfl⟩
    · rename_i f hg
      have hn := hlook _ _ hg
      simp only [verifyDuplicateOrReplacementTx, hg, Bool.false_eq_true, false_and, if_false,
        Bool.true_and] at hacc
      cases hrep : isReplacement env f.1 tx with
      | true =>
        rw [hrep] at hacc
        cases hacc
        refine .inl ⟨hnew, ⟨hcheck, hspam, hstd', fun old x hl => ?_⟩, rfl⟩
        rw [← hn] at hl
        cases hl
        exact hrep
      | false =>
        rw [hrep] at hacc
        cases hacc
        refine .inr ⟨fun ⟨_, hA⟩ => ?_, rfl⟩
        have := hA.allowed f.1 f.2 hn.symm
        rw [hrep] at this
        cases this

lemma firstAdmitted_cons {t : CTransaction} : FirstAdmitted env look (t :: vtx) tx ↔
    (t = tx ∧ Admits env look tx) ∨
      (env.hashTx t = env.hashTx tx → ¬Admits env look t) ∧ FirstAdmitted env look vtx tx := by
  constructor
  · rintro ⟨hA, l, l', he, hl⟩
    cases l with
    | nil => exact .inl ⟨(List.cons.inj he).1, hA⟩
    | cons t' l =>
      obtain ⟨rfl, rfl⟩ := List.cons.inj he
      exact .inr ⟨hl t mem_cons_self, hA, l, l', rfl,
        fun s hs => hl s (mem_cons_of_mem _ hs)⟩
  · rintro (⟨rfl, hA⟩ | ⟨hno, hA, l, l', rfl, hl⟩)
    · exact ⟨hA, [], vtx, rfl, fun t ht => by cases ht⟩
    · exact ⟨hA, t :: l, l', rfl, forall_mem_cons.mpr ⟨hno, hl⟩⟩

lemma find?_resurrect (hlook : ∀ u r, getTransaction env fuel n u (-1) = some r → r = look u)
    (hres : resurrect env fuel n vtx = some n') (h : ℕ) (tx : CTransaction) :
    n'.mapTx.find? h = some tx ↔ n.mapTx.find? h = some tx ∨
      (n.mapTx.find? h = none ∧ env.hashTx tx = h ∧ FirstAdmitted env look vtx tx) := by
  induction vtx generalizing n with
  | nil =>
    cases hres
    refine ⟨.inl, fun hor => hor.resolve_right ?_⟩
    rintro ⟨-, -, -, l, l', he, -⟩
    simp at he
  | cons t vtx ih =>
    unfold resurrect at hres
    split at hres
    · cases hres
    rename_i n₁ ok hacc
    have hlook₁ : ∀ u r, getTransaction env fuel n₁ u (-1) = some r → r = look u := by
      rw [mempoolAccept_eq hacc]
      exact hlook
    rw [ih hlook₁ hres, firstAdmitted_cons]
    rcases mempoolAccept_looks hlook hacc with ⟨hnew, hA, rfl⟩ | ⟨hno, rfl⟩
    · rw [StdMap.find?_insert]
      by_cases hh : h = env.hashTx t
      · subst hh
        simp only [if_true, hnew, true_and]
        constructor
        · rintro (he | ⟨he, -⟩)
          · cases he
            exact .inr ⟨rfl, .inl ⟨rfl, hA⟩⟩
          · cases he
        · rintro (he | ⟨hhash, ⟨rfl, -⟩ | ⟨hno, -⟩⟩)
          · cases he
          · exact .inl rfl
          · exact absurd hA (hno hhash.symm)
      · simp only [if_neg hh]
        refine or_congr_right (and_congr_right fun _ => and_congr_right fun hhash => ?_)
        constructor
        · exact fun hF => .inr ⟨fun he => absurd (he.trans hhash).symm hh, hF⟩
        · rintro (⟨rfl, -⟩ | ⟨-, hF⟩)
          · exact absurd hhash.symm hh
          · exact hF
    · refine or_congr_right (and_congr_right fun hnone => and_congr_right fun hhash => ?_)
      rw [← hhash] at hnone
      constructor
      · exact fun hF => .inr ⟨fun he hA => hno ⟨he ▸ hnone, hA⟩, hF⟩
      · rintro (⟨rfl, hA⟩ | ⟨-, hF⟩)
        · exact absurd ⟨hnone, hA⟩ hno
        · exact hF

/-- One of the transactions has this hash, and can be in a memory pool. -/
def Confirms (env : Env) (vtx : List CTransaction) (h : ℕ) : Prop :=
  ∃ t ∈ vtx, t.isSpamMessage = false ∧ env.hashTx t = h

lemma find?_foldl_mempoolRemove (h : ℕ) (tx : CTransaction) :
    (vtx.foldl (mempoolRemove env) n).mapTx.find? h = some tx ↔
      n.mapTx.find? h = some tx ∧ ¬Confirms env vtx h := by
  unfold Confirms
  induction vtx generalizing n with
  | nil => simp
  | cons t vtx ih =>
    rw [foldl_cons, ih, mempoolRemove]
    by_cases hs : t.isSpamMessage = true
    · simp [hs]
    · rw [if_neg hs, StdMap.find?_erase]
      by_cases hh : h = env.hashTx t
      · simp [hh, hs]
      · have hh' : env.hashTx t ≠ h := fun he => hh he.symm
        simp [hh, hh']

end Pool

/-! ### A switch -/

/-- The transaction is signed with the key that the newest block of a branch that registers its
name brings. -/
def Ledger.SignedIn (L : Ledger) (env : Env) (con : List ℕ) (tx : CTransaction) : Prop :=
  ∀ c R old, L.history tx.getUsername con = c :: R → L.registration c tx.getUsername = some old →
    isReplacement env old tx = true

/-- The memory pool goes with a switch from `dis` to `con` over `F`, apart from the transactions
that the new branch confirms. -/
structure Node.PoolFits (n : Node) (env : Env) (dis con F : List ℕ) : Prop where
  /-- a transaction whose name the new branch registers is signed with the key it brings -/
  joined : ∀ h tx, n.mapTx.find? h = some tx → ¬Confirms env (n.branchTxs env con) h →
    n.ledger.SignedIn env con tx
  /-- one whose name only the old branch registers can be put on what is left of the chain -/
  left : ∀ h tx, n.mapTx.find? h = some tx → ¬Confirms env (n.branchTxs env con) h →
    n.ledger.history tx.getUsername con = [] → n.ledger.history tx.getUsername dis ≠ [] →
      n.ledger.Permits env F tx
  /-- one that is brought back is signed with the key that the new branch brings above the old
  best height -/
  back : ∀ tx, FirstAdmitted env (fun u => n.ledger.latest u (con ++ F) n.nBestHeight)
      (n.returned env dis) tx → n.mapTx.find? (env.hashTx tx) = none →
    ¬Confirms env (n.branchTxs env con) (env.hashTx tx) →
      (∃ c R, n.ledger.history tx.getUsername con = c :: R ∧ n.nBestHeight < n.ledger.ht c) →
        n.ledger.SignedIn env con tx

section Switch

variable {now : ℤ} {fIBD : Bool} {reconnect : Node → Option Node}
variable {t f h : ℕ} {dis con l F : List ℕ} {tx : CTransaction}

lemma Ledger.latest_of_head {L : Ledger} {u : Bytes} {A R : List ℕ} {y : ℕ} {k : ℤ}
    {old : CTransaction} (hR : L.history u A = y :: R) (hk : L.ht y ≤ k)
    (hold : L.registration y u = some old) : L.latest u A k = some (old, y) := by
  rw [← Working.find?_history, hR, List.find?_cons_of_pos (by simpa using hk), bind_some,
    found, hold]
  rfl

lemma reorganise_of_setBestChain (T : n.ledger.Tree env) (B : n.Branches t dis con f l)
    (hok : ∀ x ∈ con, (n.nStatus x).failed = false)
    (hrun : setBestChain env fuel now fIBD reconnect n t = some (n', .ok ())) :
    dis.length ≤ con.length ∧
      reorganise env fuel now fIBD reconnect n t dis con.reverse = some (n', .ok ()) := by
  rw [setBestChain_eq_of_unfailed T B hok] at hrun
  split_ifs at hrun with hlen
  · cases hrun
  · exact ⟨not_lt.mp hlen, hrun⟩

lemma find?_switchTo {look : Bytes → Option Found} {view : Option ℕ} {vConnect : List ℕ}
    {v w : List CTransaction}
    (hlook : ∀ u r, getTransaction env fuel ((n.flushView view fIBD).registerBestChain t vConnect)
      u (-1) = some r → r = look u)
    (hs : switchTo env fuel fIBD n view t vConnect v w = some n') (h : ℕ) (tx : CTransaction) :
    n'.mapTx.find? h = some tx ↔
      (n.mapTx.find? h = some tx ∨
        (n.mapTx.find? h = none ∧ env.hashTx tx = h ∧ FirstAdmitted env look v tx)) ∧
          ¬Confirms env w h := by
  unfold switchTo at hs
  dsimp only at hs
  split at hs
  · cases hs
  · rename_i m hres
    rw [some.injEq] at hs
    rw [← hs]
    have hback := find?_resurrect hlook hres h tx
    exact (find?_foldl_mempoolRemove h tx).trans (and_congr_left fun _ => hback)

lemma find?_setBestChain (S : Settled env n (dis ++ f :: l))
    (ht : n.Tidy env (dis ++ f :: l) (dis ++ f :: l)) (B : n.Branches t dis con f l)
    (hok : ∀ x ∈ con, (n.nStatus x).failed = false)
    (hclean : n.CleanBranch env (dis ++ f :: l) (f :: l) con)
    (hrun : setBestChain env fuel now fIBD reconnect n t = some (n', .ok ())) :
    n'.ledger = n.ledger ∧ ∀ h tx, n'.mapTx.find? h = some tx ↔
      (n.mapTx.find? h = some tx ∨ (n.mapTx.find? h = none ∧ env.hashTx tx = h ∧
        FirstAdmitted env (fun u => n.ledger.latest u (con ++ f :: l) n.nBestHeight)
          (n.returned env dis) tx)) ∧ ¬Confirms env (n.branchTxs env con) h := by
  obtain ⟨hlen, hr⟩ := reorganise_of_setBestChain S.working.tree B hok hrun
  refine ⟨(reorganise_ok S (by simp) B.fork.right B.target hlen hr).ledger, fun h tx => ?_⟩
  -- the way through the two loops
  obtain ⟨m, v, hdis, U⟩ := disconnectAll_ok S.working (by simp)
    fun x hx => mem_append_left _ hx
  rw [← S.coins] at hdis
  obtain ⟨m₂, view₂, w, hcon, hs, -⟩ :=
    (reorganise_cases hdis hr).resolve_right fun ⟨_, _, _, _, _, hno, _⟩ => hno rfl
  have hD : m.ledger.Chain (con.reverse.reverse ++ f :: l) := by
    rw [U.ledger, reverse_reverse]
    exact B.fork.right
  obtain ⟨rfl, J⟩ := connectAll_ok U.working hD hcon
  obtain ⟨hv, hmap⟩ := disconnectAll_returned hdis
  obtain ⟨hw, hmap₂⟩ := connectAll_branchTxs hcon
  have hbest : m₂.nBestHeight = n.nBestHeight := J.frame.height.trans U.frame.height
  have hJ := J.working
  have hJt := J.tidy (U.tidy ht) (hclean.unwound rfl U B.fork.right)
  rw [reverse_reverse] at hs hJ hJt
  -- lookups go by the new chain, up to the old best height
  have hlook : ∀ u r, getTransaction env fuel
      ((m₂.flushView (con ++ f :: l).head? fIBD).registerBestChain t con.reverse) u (-1) = some r →
        r = n.ledger.latest u (con ++ f :: l) n.nBestHeight := by
    intro u r hg
    have hpos : 0 ≤ m₂.nBestHeight := by
      rw [hbest, S.working.best, length_append, length_cons]
      omega
    have hL : ((m₂.flushView (con ++ f :: l).head? fIBD).registerBestChain t con.reverse).ledger =
        m₂.ledger := rfl
    have hvec := registerBestChain_vec hJ.tree hJ.vec hJ.chainW B.target hlen
    have hlong : getTransaction env _ ((m₂.flushView (con ++ f :: l).head? fIBD).registerBestChain
        t con.reverse) u (-1) = some (m₂.ledger.latest u (con ++ f :: l) m₂.nBestHeight) :=
      getTransaction_settling hJ hJt hL rfl hvec hpos (Nat.lt_succ_self _) u
    rw [getTransaction_unique hg hlong, J.frame.ledger, U.ledger, hbest]
  have hmem : ∀ x, x ∈ w ↔ x ∈ n.branchTxs env con := by
    intro x
    rw [hw, branchTxs_congr U.ledger]
    unfold Node.branchTxs
    simp only [mem_flatMap, mem_reverse]
  have hpool := find?_switchTo hlook hs h tx
  rw [hmap₂, hmap, hv] at hpool
  unfold Confirms at hpool ⊢
  simp only [hmem] at hpool
  exact hpool

/-- **The memory pool can still be mined after a switch** exactly if, apart from what the new branch
confirms, every transaction of the pool whose name the new branch registers is signed with the key
it brings, every one whose name only the old branch registers can be put on the common part of the
chain, and none is brought back for a name to which the new branch gives another key above the old
best height. -/
theorem minable_setBestChain_iff (S : Settled env n (dis ++ f :: l))
    (ht : n.Tidy env (dis ++ f :: l) (dis ++ f :: l)) (B : n.Branches t dis con f l)
    (hok : ∀ x ∈ con, (n.nStatus x).failed = false)
    (hclean : n.CleanBranch env (dis ++ f :: l) (f :: l) con)
    (hrun : setBestChain env fuel now fIBD reconnect n t = some (n', .ok ()))
    (hpool : n.Minable env (dis ++ f :: l)) :
    n'.Minable env (con ++ f :: l) ↔ n.PoolFits env dis con (f :: l) := by
  obtain ⟨hL, hfind⟩ := find?_setBestChain S ht B hok hclean hrun
  have hnew : ∀ u c R, n.ledger.history u con = c :: R →
      ∃ R', n.ledger.history u (con ++ f :: l) = c :: R' := fun u c R hR =>
    ⟨R ++ n.ledger.history u (f :: l), by rw [history_append, hR]; rfl⟩
  have hold : ∀ u, n.ledger.history u con = [] →
      n.ledger.history u (con ++ f :: l) = n.ledger.history u (f :: l) := fun u hR => by
    rw [history_append, hR, nil_append]
  unfold Node.Minable
  rw [hL]
  constructor
  · intro hmin
    have hsigned : ∀ tx, n.ledger.Permits env (con ++ f :: l) tx → n.ledger.SignedIn env con tx :=
      fun tx hp c R old hR hreg => by
        obtain ⟨R', hR'⟩ := hnew _ c R hR
        exact hp c R' old hR' hreg
    refine ⟨fun h tx hin hno => hsigned tx (hmin h tx ((hfind h tx).mpr ⟨.inl hin, hno⟩)),
      fun h tx hin hno hcon _ y R old hR hreg => ?_, fun tx hF hnone hno _ => ?_⟩
    · refine hmin h tx ((hfind h tx).mpr ⟨.inl hin, hno⟩) y R old ?_ hreg
      rw [hold _ hcon]
      exact hR
    · exact hsigned tx (hmin _ tx ((hfind _ tx).mpr ⟨.inr ⟨hnone, rfl, hF⟩, hno⟩))
  · intro P h tx hin y R old hR hreg
    obtain ⟨hwhere, hno⟩ := (hfind h tx).mp hin
    cases hcon : n.ledger.history tx.getUsername con with
    | cons c R₁ =>
      obtain ⟨R', hR'⟩ := hnew _ c R₁ hcon
      have hyc : y = c := by
        rw [hR, List.cons.injEq] at hR'
        exact hR'.1
      subst hyc
      rcases hwhere with hin | ⟨hnone, rfl, hF⟩
      · exact P.joined h tx hin hno y R₁ old hcon hreg
      · by_cases hlt : n.nBestHeight < n.ledger.ht y
        · exact P.back tx hF hnone hno ⟨y, R₁, hcon, hlt⟩ y R₁ old hcon hreg
        · exact hF.1.allowed old y (latest_of_head hR (not_lt.mp hlt) hreg)
    | nil =>
      rw [hold _ hcon] at hR
      rcases hwhere with hin | ⟨hnone, rfl, hF⟩
      · by_cases hdis : n.ledger.history tx.getUsername dis = []
        · refine hpool h tx hin y R old ?_ hreg
          rw [history_append, hdis, nil_append]
          exact hR
        · exact P.left h tx hin hno hcon hdis y R old hR hreg
      · have hy : y ∈ f :: l := (mem_of_history_cons hR).1
        have hle := S.working.ht_le_best (mem_append_right dis hy)
        refine hF.1.allowed old y (latest_of_head (R := R) ?_ hle hreg)
        rw [hold _ hcon]
        exact hR

lemma minable_root (T : n.ledger.Tree env) {g : ℕ} (hg : n.ledger.Chain [g]) : n.Minable env [g] := by
  intro h tx _ y R old hR _
  have hy := mem_of_history_cons hR
  cases hg with
  | root hp hq =>
    rw [mem_singleton.mp hy.1, T.registers_root hp hq] at hy
    cases hy.2

end Switch

end

namespace Toy

def firstBlock : CBlock := block 2 1 1 spam [register alice key1]

def firstStored : Option Node := started.bind (performFree [.store firstBlock])

lemma reached_firstStored {n : Node} (h : firstStored = some n) :
    Reached env (SwitchesClean env) n := by
  obtain ⟨n₀, hn₀, h⟩ := bind_eq_some_iff.mp h
  exact reached_performFree ⟨n₀, started_of_eq hn₀, .refl⟩ h

/-- The node before it switches to its first block, with transactions in its memory pool. -/
structure FirstSwitch (n n' : Node) : Prop where
  settled : Settled env n [1]
  tidy : n.Tidy env [1] [1]
  branches : n.Branches 2 [] [2] 1 []
  unfailed : ∀ x ∈ [2], (n.nStatus x).failed = false
  clean : n.CleanBranch env [1] [1] [2]
  run : (call 2).run env n = some (n', .ok ())
  minable : n.Minable env [1]
  active : n'.Active [2, 1]

def firstSwitch (n : Node) : Option Node :=
  if n.ledger.path 20 2 = some [2, 1] ∧ n.coinsTip = some 1 ∧ (n.nStatus 2).failed = false ∧
      keysFree env n 2 = true then
    match (call 2).run env n with
    | some (n', .ok ()) => if activeOf n' = some [2, 1] then some n' else none
    | _ => none
  else none

lemma firstSwitch_of_eq {n₀ n n' : Node} (hr : firstStored = some n₀)
    (hn : n = { n₀ with mapTx := n.mapTx }) (h : firstSwitch n = some n') : FirstSwitch n n' := by
  unfold firstSwitch at h
  split_ifs at h with hc
  obtain ⟨hpath, hcoins, hfail, hfree⟩ := hc
  split at h
  · rename_i m hrun
    split_ifs at h with hact
    cases h
    have hch := (chain_of_path hpath).1
    have B : n.Branches 2 [] [2] 1 [] := .extension hch hcoins
    obtain ⟨A, I⟩ := (reached_firstStored hr).intact
    have hs : n₀.SameChain n := by
      rw [hn]
      exact ⟨rfl, rfl, rfl, rfl, rfl, rfl, rfl⟩
    have S := I.settled.congr hs
    obtain rfl := S.eq_left B
    exact ⟨S, I.tidy.congr hs, B, fun x hx => mem_singleton.mp hx ▸ hfail,
      cleanBranch_of_keysFree (by simpa using hfree), hrun, minable_root S.working.tree S.working.chainA,
      active_of_activeOf hact⟩
  · cases h

end Toy

open Toy in
/-- Two registrations of one name are accepted; a block confirms one of them, and the other one
stays in the memory pool. -/
theorem not_minable_rival : ∃ n₀ n₁ n n', Reached Toy.env (SwitchesClean Toy.env) n₀ ∧
    mempoolAccept Toy.env 5 n₀ (register alice key1) = some (n₁, true) ∧
    mempoolAccept Toy.env 5 n₁ (register alice key2) = some (n, true) ∧ n.Minable Toy.env [1] ∧
      (call 2).run Toy.env n = some (n', .ok ()) ∧ n'.Active [2, 1] ∧ ¬n'.Minable Toy.env [2, 1] := by
  have h : (firstStored.bind fun n₀ => (mempoolAccept Toy.env 5 n₀ (register alice key1)).bind fun r₁ =>
      (mempoolAccept Toy.env 5 r₁.1 (register alice key2)).bind fun r =>
        (firstSwitch r.1).map fun n' => (r₁.2, r.2,
          n'.mapTx.find? (Toy.env.hashTx (register alice key2)), n'.ledger.history alice [2, 1],
            n'.ledger.registration 2 alice)) =
      some (true, true, some (register alice key2), [2], some (register alice key1)) := by
    decide +kernel
  obtain ⟨n₀, hn₀, h⟩ := bind_eq_some_iff.mp h
  obtain ⟨⟨n₁, ok₁⟩, h₁, h⟩ := bind_eq_some_iff.mp h
  obtain ⟨⟨n, ok⟩, h₂, h⟩ := bind_eq_some_iff.mp h
  obtain ⟨n', hsw, h⟩ := map_eq_some_iff.mp h
  simp only [Prod.mk.injEq] at h
  obtain ⟨rfl, rfl, hfind, hhist, hreg⟩ := h
  have hn : n = { n₀ with mapTx := n.mapTx } := by
    rw [mempoolAccept_eq h₂, mempoolAccept_eq h₁]
  have F := firstSwitch_of_eq hn₀ hn hsw
  refine ⟨n₀, n₁, n, n', reached_firstStored hn₀, h₁, h₂, F.minable, F.run, F.active, fun hmin => ?_⟩
  have hrep := hmin _ _ hfind 2 [] (register alice key1) hhist hreg
  exact absurd hrep (by decide)

open Toy in
/-- A registration is accepted and confirmed by the next block. -/
theorem minable_confirmed : ∃ n₀ n n', Reached Toy.env (SwitchesClean Toy.env) n₀ ∧
    mempoolAccept Toy.env 5 n₀ (register alice key1) = some (n, true) ∧
      (call 2).run Toy.env n = some (n', .ok ()) ∧ n'.Active [2, 1] ∧ n'.Minable Toy.env [2, 1] := by
  have h : (firstStored.bind fun n₀ => (mempoolAccept Toy.env 5 n₀ (register alice key1)).bind fun r =>
      (firstSwitch r.1).map fun _ => (r.2, r.1.mapTx.entries, r.1.branchTxs Toy.env [2])) =
      some (true, [(Toy.env.hashTx (register alice key1), register alice key1)],
        [spam, register alice key1]) := by
    decide +kernel
  obtain ⟨n₀, hn₀, h⟩ := bind_eq_some_iff.mp h
  obtain ⟨⟨n, ok⟩, h₁, h⟩ := bind_eq_some_iff.mp h
  obtain ⟨n', hsw, h⟩ := map_eq_some_iff.mp h
  simp only [Prod.mk.injEq] at h
  obtain ⟨rfl, hentries, htxs⟩ := h
  have F := firstSwitch_of_eq hn₀ (mempoolAccept_eq h₁) hsw
  refine ⟨n₀, n, n', reached_firstStored hn₀, h₁, F.run, F.active, ?_⟩
  -- the only transaction of the pool is in the block
  have hall : ∀ h tx, n.mapTx.find? h = some tx → Confirms Toy.env (n.branchTxs Toy.env [2]) h := by
    intro h tx hin
    have hmem := StdMap.mem_entries_iff.mpr hin
    rw [hentries, mem_singleton, Prod.mk.injEq] at hmem
    exact ⟨register alice key1, by rw [htxs]; simp, by decide, hmem.1.symm⟩
  refine (minable_setBestChain_iff F.settled F.tidy F.branches F.unfailed F.clean F.run
    F.minable).mpr ⟨fun h tx hin hno => absurd (hall h tx hin) hno,
      fun h tx hin hno => absurd (hall h tx hin) hno, fun tx hF => ?_⟩
  obtain ⟨-, l, l', he, -⟩ := hF
  simp [Node.returned] at he

end FreechCore
