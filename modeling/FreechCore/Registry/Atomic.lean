import FreechCore.Registry.Lookups
import FreechCore.Registry.Judge

/-!
What a switch that is given up leaves behind. The index was changed in place on the way, and
nothing is restored. Lookups give the answers they gave before exactly if no name of the
active chain was touched: by a block that was disconnected, by one that was connected, or by
the overwrite check of the one that was refused.
-/

namespace FreechCore

open BackLink Ledger List Option

/-- The check of the block takes no name off the chain `A`. -/
def Node.SparesBy (n : Node) (env : Env) (now : ℤ) (A : List ℕ) (x : ℕ) : Prop :=
  ∀ b, n.readBlockFromDisk env x = some b →
    b.Spares env (n.ledger.lookAt A (n.ledger.ht x)) now (n.ledger.history · A ≠ [])

/-- Connecting the blocks `up` up to one that does not pass takes no name off the chain `A`. -/
def Node.SparesNames (n : Node) (env : Env) (now : ℤ) (A up : List ℕ) : Prop :=
  ∀ done bad rest, up = done ++ bad :: rest → (∀ x ∈ done, n.PassesBy env now A x) →
    (∀ x ∈ done, ∀ u, n.ledger.registers u x = true → n.ledger.history u A = []) ∧
      (¬ n.PassesBy env now A bad → n.SparesBy env now A bad)

section

variable {env : Env} {fuel : ℕ} {now : ℤ} {n n' : Node} {A up : List ℕ} {u : Bytes}

section Connect

variable {m m' : Node} {W : List ℕ} {x bad : ℕ}
variable {f : Failure} {view' : Option ℕ}

lemma sparesNames_cons_of_not (hx : ¬ n.PassesBy env now A x) :
    n.SparesNames env now A (x :: up) ↔ n.SparesBy env now A x := by
  constructor
  · exact fun h => (h [] x up rfl (by simp)).2 hx
  · intro hs done bad rest he hp
    cases done with
    | nil =>
      rw [nil_append, List.cons.injEq] at he
      exact ⟨by simp, fun _ => he.1 ▸ hs⟩
    | cons z done =>
      rw [cons_append, List.cons.injEq] at he
      exact absurd (he.1 ▸ hp z (by simp)) hx

/-- Blocks that register nothing spare every name. -/
lemma sparesNames_of_registrations (T : n.ledger.Tree env) (hch : n.ledger.Chain (up.reverse ++ W))
    (h : ∀ x ∈ up, n.ledger.registrations x = []) : n.SparesNames env now A up := by
  rintro done bad rest rfl -
  refine ⟨fun x hx u hu => ?_, fun _ b hb _ _ tx htx => ?_⟩
  · rw [registers, registration, h x (by simp [hx])] at hu
    cases hu
  · obtain ⟨p, hp⟩ := hch.index_eq (h := bad) (by simp)
    rw [← (stored_of_readBlockFromDisk T hp hb).registrations_eq, h bad (by simp)] at htx
    cases htx

lemma sparesNames_cons_of_passes (hx : n.PassesBy env now A x)
    (hnames : ∀ u, n.ledger.registers u x = true → n.ledger.history u A = []) :
    n.SparesNames env now A (x :: up) ↔ n.SparesNames env now A up := by
  constructor
  · intro h done bad rest he hp
    obtain ⟨h1, h2⟩ := h (x :: done) bad rest (by rw [he]; rfl)
      (forall_mem_cons.mpr ⟨hx, hp⟩)
    exact ⟨fun z hz => h1 z (mem_cons_of_mem _ hz), h2⟩
  · intro h done bad rest he hp
    cases done with
    | nil =>
      rw [nil_append, List.cons.injEq] at he
      exact ⟨by simp, fun hno => absurd (he.1 ▸ hx) hno⟩
    | cons z done =>
      rw [cons_append, List.cons.injEq] at he
      obtain ⟨rfl, he⟩ := he
      obtain ⟨h1, h2⟩ := h done bad rest he fun y hy => hp y (mem_cons_of_mem _ hy)
      exact ⟨forall_mem_cons.mpr ⟨hnames, h1⟩, h2⟩

lemma connectAll_hides (h : Working env m A (x :: W)) (hup : m.ledger.Chain (up.reverse ++ x :: W))
    (hoff : ∀ z ∈ x :: up, z ∉ A)
    (hc : connectAll env fuel now m (some x) up = some (m', view', .error (bad, f)))
    (hu : m.ledger.registers u x = true) : ∃ y, m'.entries env u (-1) = some y ∧ y ∉ A := by
  obtain ⟨done, rest, m₂, rfl, J, hbad⟩ := connectAll_error h hup hc
  have hch : m₂.ledger.Chain (bad :: (done.reverse ++ x :: W)) := by
    rw [J.frame.ledger]
    exact hup.under (reverse_reverse _)
  have O := hbad.overwritten J.working hch
  have hL : m'.ledger = m.ledger := by
    rw [O.same]
    exact J.frame.ledger
  have hR : m'.ledger.history u (done.reverse ++ x :: W) ≠ [] := by
    rw [hL, history_append, history_cons_of_registers hu]
    simp
  obtain ⟨y, R, hR⟩ := exists_cons_of_ne_nil hR
  refine ⟨y, O.working.entry_head hR, hoff y ?_⟩
  -- the newest block that registers the name is one of those connected
  rw [hL, history_append, history_cons_of_registers hu] at hR
  cases hd : m.ledger.history u done.reverse with
  | nil =>
    rw [hd, nil_append, List.cons.injEq] at hR
    simp [hR.1]
  | cons z R' =>
    rw [hd, cons_append, List.cons.injEq] at hR
    have hz : z ∈ done.reverse :=
      (mem_history.mp (hd ▸ mem_cons_self : z ∈ m.ledger.history u done.reverse)).1
    rw [← hR.1]
    exact mem_cons_of_mem _ (mem_append_left _ (mem_reverse.mp hz))

section Block

variable {view : Option ℕ} {p : CBlockIndex} {b : CBlock}
variable (hn : Working env n A A) (ht : n.Tidy env A A) (h : Working env m A W)
variable (hL : m.ledger = n.ledger) (hk : n.Keeps env A m) (hx : n.ledger.Chain (x :: W))
variable (hp : m.index x = some p) (hb : m.readBlockFromDisk env x = some b)

include hn ht h hL hk hx hp hb

lemma connectBlock_spares
    (hc : connectBlock env fuel now m view x p b false = some (m', view', .error f)) :
    ¬ n.PassesBy env now A x ∧ (n.SparesBy env now A x → n.Keeps env A m') ∧
      ((∀ u, n.ledger.history u A ≠ [] → m'.entries env u (-1) = n.entries env u (-1)) →
        n.SparesBy env now A x) := by
  have hht := hx.ht_eq hn.tree
  have hb' : n.readBlockFromDisk env x = some b := (readBlockFromDisk_congr hL x).symm.trans hb
  obtain ⟨hno, hsp, hsp'⟩ := connectBlock_refuses h (stored_of_readBlockFromDisk h.tree hp hb)
    (hL ▸ hx) (hk.right hn ht h hL) hc
  rw [hL, ← hht] at hno hsp hsp'
  refine ⟨?_, fun hs u hu => ?_, fun hnew c hc => ?_⟩
  · rintro ⟨c, hc, hpass⟩
    cases hb'.symm.trans hc
    exact hno hpass
  · rw [← hk u hu]
    exact hsp (hs b hb') u (hL ▸ hu)
  · cases hb'.symm.trans hc
    refine hsp' fun u hu => ?_
    obtain ⟨y, R, hR⟩ := exists_cons_of_ne_nil hu
    rw [hnew u hu, hn.entry_head hR]
    simp

lemma connectBlock_passesBy
    (hc : connectBlock env fuel now m view x p b false = some (m', view', .ok ())) :
    n.PassesBy env now A x := by
  have hht := hx.ht_eq hn.tree
  have hpass := connectBlock_passes h (stored_of_readBlockFromDisk h.tree hp hb) (hL ▸ hx)
    (hk.right hn ht h hL) hc
  rw [hL, ← hht] at hpass
  exact ⟨b, (readBlockFromDisk_congr hL x).symm.trans hb, hpass⟩

end Block

/-- **Connecting a branch up to a block that is refused** leaves the registers of the names of
`A` alone exactly if it spares them. -/
lemma connectAll_spares (hn : Working env n A A) (ht : n.Tidy env A A) (h : Working env m A W)
    (hL : m.ledger = n.ledger) (hk : n.Keeps env A m) (hup : n.ledger.Chain (up.reverse ++ W))
    (hoff : ∀ z ∈ up, z ∉ A)
    (hc : connectAll env fuel now m W.head? up = some (m', view', .error (bad, f))) :
    (n.SparesNames env now A up → n.Keeps env A m') ∧
      ((∀ u, n.ledger.history u A ≠ [] → m'.entries env u (-1) = n.entries env u (-1)) →
        n.SparesNames env now A up) := by
  induction up generalizing m W with
  | nil => simp [connectAll] at hc
  | cons x up ih =>
    have hx : n.ledger.Chain (x :: W) := hup.of_up
    obtain ⟨p, hp⟩ := (hL ▸ hx : m.ledger.Chain (x :: W)).index_eq mem_cons_self
    rcases connectAll_cons_error hp hc with ⟨hb, rfl, -⟩ | ⟨b, hb, ⟨-, hcb⟩ | ⟨m₁, view₁, hcb, hall⟩⟩
    · -- a block that cannot be read is refused without any effect
      have hb' : n.readBlockFromDisk env x = none := (readBlockFromDisk_congr hL x).symm.trans hb
      have hno : ¬ n.PassesBy env now A x := by
        rintro ⟨b, hb'', -⟩
        rw [hb'] at hb''
        cases hb''
      rw [sparesNames_cons_of_not hno]
      exact ⟨fun _ => hk, fun _ b hb'' => by rw [hb'] at hb''; cases hb''⟩
    · obtain ⟨hno, hsp⟩ := connectBlock_spares hn ht h hL hk hx hp hb hcb
      rw [sparesNames_cons_of_not hno]
      exact hsp
    · have hpass := connectBlock_passesBy hn ht h hL hk hx hp hb hcb
      obtain ⟨rfl, C⟩ := h.connectBlock (stored_of_readBlockFromDisk h.tree hp hb) (hL ▸ hx) hcb
      have hL₁ : m₁.ledger = n.ledger := C.frame.ledger.trans hL
      have hup₁ : n.ledger.Chain (up.reverse ++ x :: W) := by simpa using hup
      by_cases hnames : ∀ u, n.ledger.registers u x = true → n.ledger.history u A = []
      · rw [sparesNames_cons_of_passes hpass hnames]
        refine ih C.working hL₁ (fun u hu => ?_) hup₁
          (fun z hz => hoff z (mem_cons_of_mem _ hz)) hall
        rw [← hk u hu]
        refine C.rows u ?_
        rw [← Bool.not_eq_true, hL]
        exact fun hux => hu (hnames u hux)
      · -- the block takes a name of the chain
        simp only [not_forall] at hnames
        obtain ⟨u, hux, hu⟩ := hnames
        constructor
        · intro hs
          cases up with
          | nil => simp [connectAll] at hall
          | cons z up =>
            exact absurd ((hs [x] z up rfl (by simpa using hpass)).1 x (by simp) u hux) hu
        · intro hnew
          obtain ⟨y, hy, hyA⟩ := connectAll_hides C.working (hL₁.symm ▸ hup₁) hoff hall
            (hL₁.symm ▸ hux)
          obtain ⟨z, R, hR⟩ := exists_cons_of_ne_nil hu
          rw [hnew u hu, hn.entry_head hR, some.injEq] at hy
          have hz := mem_of_history_cons hR
          exact absurd (hy ▸ hz.1) hyA

end Connect

/-! ### Answers -/

section Answers

variable {m : Node} {W : List ℕ}

/-- The lookup returns, with this answer. -/
def Node.Answers (n : Node) (env : Env) (u : Bytes) (maxHeight : ℤ) (r : Option Found) : Prop :=
  ∃ fuel, getTransaction env fuel n u maxHeight = some r

/-- Every lookup gives the same answer in both nodes, or in neither. -/
def Node.SameAnswers (n n' : Node) (env : Env) : Prop :=
  ∀ u maxHeight r, n.Answers env u maxHeight r ↔ n'.Answers env u maxHeight r

lemma Node.SameChain.sameAnswers (hs : n.SameChain n') : n.SameAnswers n' env := by
  have hindex : n'.index = n.index := congrArg Ledger.index hs.ledger
  have hfiles : n'.blockFiles = n.blockFiles := congrArg Ledger.blockFiles hs.ledger
  have hstep : getTransactionStep env n' = getTransactionStep env n := by
    unfold getTransactionStep Node.readTxIndex Node.readTx
    rw [hs.txIndex, hfiles, isInMainChain_congr hs.ledger hs.vec, hindex]
  intro u k r
  simp only [Node.Answers, getTransaction, Node.heightBound, hs.height, hstep]

lemma Working.answers_absent (h : Working env m A W) (hu : m.ledger.history u A = []) (k : ℤ)
    (r : Option Found) : m.Answers env u k r ↔ r = none := by
  constructor
  · rintro ⟨fuel, hf⟩
    rw [h.right_of_absent hu fuel k r hf, latest_eq_none hu]
  · rintro rfl
    exact ⟨1, h.getTransaction_off (fun _ => h.not_mem_of_absent hu) k 0⟩

lemma Node.Keeps.sameAnswers (hk : n.Keeps env A n') (h : Working env n A A)
    (h' : Working env n' A W) (hL : n'.ledger = n.ledger) : n.SameAnswers n' env := by
  intro u k r
  by_cases hu : n.ledger.history u A = []
  · rw [h.answers_absent hu, h'.answers_absent (hL ▸ hu)]
  · unfold Node.Answers
    simp only [getTransaction_congr h h' hL (hk u hu)]

lemma Node.SameAnswers.newest (hs : n.SameAnswers n' env) (h : Working env n A A)
    (h' : Working env n' A W) (hu : n.ledger.history u A ≠ []) :
    n'.entries env u (-1) = n.entries env u (-1) := by
  obtain ⟨z, R, hR⟩ := exists_cons_of_ne_nil hu
  have hz := h.entry_head hR
  have hzA := mem_of_history_cons hR
  obtain ⟨old, -, hfound⟩ := found_eq_some hzA.2
  have hans : n.Answers env u (-1) (some (old, z)) := by
    refine ⟨1, ?_⟩
    rw [h.getTransaction_best hz hzA.1, hfound]
  obtain ⟨fuel, hf⟩ := (hs u (-1) _).mp hans
  cases fuel with
  | zero => cases hf
  | succ fuel =>
    by_cases hy : ∃ y, n'.entries env u (-1) = some y ∧ y ∈ A
    · obtain ⟨y, hy, hyA⟩ := hy
      rw [h'.getTransaction_best hy hyA, some.injEq] at hf
      obtain ⟨_, -, he⟩ := map_eq_some_iff.mp hf
      have hyz : y = z := congrArg Prod.snd he
      rw [hy, hz, hyz]
    · rw [h'.getTransaction_off fun y hye hyA => hy ⟨y, hye, hyA⟩] at hf
      cases hf

end Answers

/-! ### The branch that was disconnected -/

section Disconnect

variable {n₁ n₂ n₃ : Node} {dis F done : List ℕ}
variable {bad : ℕ} {e : Failure}

lemma Unwound.newest_ne (U : Unwound env (dis ++ F) F dis n n₁)
    (h : Working env n (dis ++ F) (dis ++ F)) (ht : n.Tidy env (dis ++ F) (dis ++ F)) {x z : ℕ}
    {R : List ℕ} (hx : x ∈ dis) (hux : n.ledger.registers u x = true)
    (hlink : n.entries env u (n.ledger.ht x - 1) ≠ none)
    (hR : n.ledger.history u (dis ++ F) = z :: R) : n₁.entries env u (-1) ≠ some z := by
  have hnd : (n.ledger.history u (dis ++ F)).Nodup := (h.chainA.nodup h.tree).filter _
  have hzA := mem_of_history_cons hR
  cases hF : n.ledger.history u F with
  | nil =>
    obtain ⟨r, hf⟩ := h.follows u
    obtain ⟨w, hw⟩ : ∃ w, (n.ledger.history u (dis ++ F)).getLast? = some w :=
      ⟨_, List.getLast?_eq_some_getLast (by simp [hR])⟩
    rw [U.newest u hF, Node.under, hw]
    simp only [hf.last hw]
    cases hr : r with
    | some y =>
      -- what it left there belongs to another branch
      rw [some_or, Ne, some.injEq]
      rintro rfl
      exact h.residue_off ht hf hr hzA.1
    | none =>
      rw [none_or, Ne, some.injEq]
      rintro rfl
      -- the newest block is the only one, and it left nothing
      have hRnil : R = [] := by
        rw [hR] at hw hnd
        cases R with
        | nil => rfl
        | cons y R =>
          rw [List.getLast?_cons_cons] at hw
          exact absurd (mem_of_getLast? hw) (nodup_cons.mp hnd).1
      have hxz : x = w := by
        have : x ∈ n.ledger.history u (dis ++ F) :=
          mem_history.mpr ⟨mem_append_left _ hx, hux⟩
        rw [hR, hRnil] at this
        exact mem_singleton.mp this
      exact hlink (hxz ▸ (hf.last hw).trans hr)
  | cons y R' =>
    rw [U.working.entry_head (by rw [U.ledger]; exact hF), Ne, some.injEq]
    rintro rfl
    -- the newest block is one of those disconnected
    have hne : n.ledger.history u dis ≠ [] :=
      ne_nil_of_mem (mem_history.mpr ⟨hx, hux⟩)
    obtain ⟨w, Q, hQ⟩ := exists_cons_of_ne_nil hne
    rw [history_append, hQ, hF] at hnd
    rw [history_append, hQ, cons_append, List.cons.injEq] at hR
    rw [hR.1, cons_append, nodup_cons] at hnd
    exact hnd.1 (by simp)

/-- If the newest entries of the names of the active chain stay, the blocks that were
disconnected had left nothing under their heights. -/
lemma GivenUp.links (G : GivenUp env fuel now dis F up done bad n n₁ n₂ n₃ n' e)
    (h : Working env n (dis ++ F) (dis ++ F)) (ht : n.Tidy env (dis ++ F) (dis ++ F))
    (hch : n.ledger.Chain (bad :: (done.reverse ++ F))) (hoff : ∀ x ∈ done, x ∉ dis ++ F)
    (hnew : ∀ u, n.ledger.history u (dis ++ F) ≠ [] →
      n'.entries env u (-1) = n.entries env u (-1)) :
    ∀ x ∈ dis, ∀ u, n.ledger.registers u x = true → n.entries env u (n.ledger.ht x - 1) = none := by
  intro x hx u hux
  by_contra hlink
  have hu : n.ledger.history u (dis ++ F) ≠ [] :=
    ne_nil_of_mem (mem_history.mpr ⟨mem_append_left _ hx, hux⟩)
  obtain ⟨z, R, hR⟩ := exists_cons_of_ne_nil hu
  have hz : n₃.entries env u (-1) = some z := by
    rw [← G.entries_eq, hnew u hu]
    exact h.entry_head hR
  have O := G.overwritten hch
  by_cases hdone : ∃ y ∈ done, n.ledger.registers u y = true
  · obtain ⟨y, hy, hyu⟩ := hdone
    have hne : n.ledger.history u done.reverse ≠ [] :=
      ne_nil_of_mem (mem_history.mpr ⟨mem_reverse.mpr hy, hyu⟩)
    obtain ⟨w, Q, hQ⟩ := exists_cons_of_ne_nil hne
    have hL₃ : n₃.ledger = n.ledger := (G.frame hch).ledger
    have hw := O.working.entry_head (u := u) (y := w) (R := Q ++ n.ledger.history u F)
      (by rw [hL₃, history_append, hQ]; rfl)
    have hwd : w ∈ done := mem_reverse.mp
      (mem_history.mp (hQ ▸ mem_cons_self : w ∈ n.ledger.history u done.reverse)).1
    have hzA := (mem_history.mp
      (hR ▸ mem_cons_self : z ∈ n.ledger.history u (dis ++ F))).1
    rw [hz, some.injEq] at hw
    exact hoff w hwd (hw ▸ hzA)
  · have hrow : n₂.entries env u = n₁.entries env u := by
      refine G.joined.rows u fun y hy => ?_
      rw [G.unwound.ledger, ← Bool.not_eq_true]
      exact fun hyu => hdone ⟨y, hy, hyu⟩
    rcases O.rows u with he | ⟨-, -, he⟩
    · rw [he, hrow] at hz
      exact G.unwound.newest_ne h ht hx hux hlink hR hz
    · rw [he, eraseLatest, Function.update_self] at hz
      cases hz

end Disconnect

/-! ### The switch as a whole -/

section Switch

variable {fIBD : Bool} {reconnect : Node → Option Node}
variable {t f : ℕ} {dis con l : List ℕ} {g : Failure}

/-- If the switch from `dis ++ F` to `con ++ F` is given up, it leaves nothing behind: the
branch is too short, or no block to disconnect has left an older registration under its
height and the blocks to connect spare the names of the active chain. -/
def Node.GivesUpCleanly (n : Node) (env : Env) (now : ℤ) (dis con F : List ℕ) : Prop :=
  (n.joinable con).length < dis.length ∨
    ((∀ x ∈ dis, ∀ u, n.ledger.registers u x = true →
        n.entries env u (n.ledger.ht x - 1) = none) ∧
      n.SparesNames env now (dis ++ F) (n.joinable con))

lemma SparesNames.congr (hL : n'.ledger = n.ledger) :
    n'.SparesNames env now A up ↔ n.SparesNames env now A up := by
  simp only [Node.SparesNames, Node.PassesBy, Node.SparesBy, readBlockFromDisk_congr hL, hL]

/-- **A switch to a branch that is too short** is refused before anything is written. -/
theorem setBestChain_tooShort {res : Check} (T : n.ledger.Tree env) (B : n.Branches t dis con f l)
    (hlen : (n.joinable con).length < dis.length)
    (hr : setBestChain env fuel now fIBD reconnect n t = some (n', res)) :
    res = .error shorterChain ∧ n.SameAnswers n' env := by
  obtain ⟨n₁, C, heq⟩ := setBestChain_eq T B
  rw [heq, if_pos hlen] at hr
  cases hr
  exact ⟨rfl, C.same.sameAnswers⟩

/-- **A failed switch is atomic for the registry exactly if it gives up cleanly.** -/
theorem setBestChain_atomic_iff (S : Settled env n (dis ++ f :: l))
    (ht : n.Tidy env (dis ++ f :: l) (dis ++ f :: l)) (B : n.Branches t dis con f l)
    (hr : setBestChain env fuel now fIBD reconnect n t = some (n', .error g)) :
    n.SameAnswers n' env ↔ n.GivesUpCleanly env now dis con (f :: l) := by
  have hw := S.working
  rcases setBestChain_cases S B hr with ⟨hlen, -, -⟩ | ⟨-, h, -⟩ |
    ⟨hlen, -, n₀, done, bad, n₁, n₂, n₃, e, -, C, G⟩
  · exact iff_of_true (setBestChain_tooShort hw.tree B hlen hr).2 (Or.inl hlen)
  · cases h
  · -- marking failed blocks changes nothing that counts here
    have hw₀ := hw.congr C.same
    have ht₀ := ht.congr C.same
    have he₀ : n₀.entries env = n.entries env := by
      unfold Node.entries
      rw [C.same.ledger, C.same.txIndex]
    obtain ⟨rest, hj⟩ := G.split
    have hch : n₀.ledger.Chain (bad :: (done.reverse ++ f :: l)) :=
      C.same.ledger.symm ▸ B.chain_joinable hj
    have hoff : ∀ x ∈ n.joinable con, x ∉ dis ++ f :: l := fun x hx =>
      B.fork.not_mem_left hw.tree (joinable_subset hx)
    have hL' : n'.ledger = n.ledger :=
      (G.marked.same.ledger.trans (G.frame hch).ledger).trans C.same.ledger
    have hw' := (G.overwritten hch).working.congr G.marked.same
    have hup : n₀.ledger.Chain ((n.joinable con).reverse ++ f :: l) := by
      rw [C.same.ledger]
      exact B.chain_reverse_joinable
    obtain ⟨view, hcall⟩ := G.call
    -- with the links in order, the first branch is disconnected without a trace
    have hstage := fun hlinks : ∀ x ∈ dis, ∀ u, n₀.ledger.registers u x = true →
        n₀.entries env u (n₀.ledger.ht x - 1) = none =>
      connectAll_spares hw₀ ht₀ G.unwound.working G.unwound.ledger
        (fun u _ => G.unwound.rows u fun x hx hxu => hlinks x hx u hxu) hup hoff hcall
    unfold Node.Keeps at hstage
    rw [← G.entries_eq, SparesNames.congr C.same.ledger, he₀, C.same.ledger] at hstage
    constructor
    · intro hs
      have hnew : ∀ u, n.ledger.history u (dis ++ f :: l) ≠ [] →
          n'.entries env u (-1) = n.entries env u (-1) := fun u hu => hs.newest hw hw' hu
      have hlinks := G.links hw₀ ht₀ hch (fun x hx => hoff x (by rw [hj]; simp [hx]))
        (by rw [he₀, C.same.ledger]; exact hnew)
      rw [he₀, C.same.ledger] at hlinks
      exact Or.inr ⟨hlinks, (hstage hlinks).2 hnew⟩
    · rintro (hlt | ⟨hlinks, hsp⟩)
      · omega
      · have hk : n.Keeps env (dis ++ f :: l) n' := (hstage hlinks).1 hsp
        exact hk.sameAnswers hw hw' hL'

end Switch

end

namespace Toy

/-- A name is registered, a second block has the given registrations, and then a longer branch from
before that block turns out invalid: its promoted message is signed by nobody known. -/
def failedBranch (second : List CTransaction) : List Act :=
  [.store (block 2 1 1 spam [register alice key1]), .switch 2,
    .store (block 3 2 2 spam second), .switch 3,
    .store (block 13 2 2 spam []), .store (block 14 13 3 (spamBy (ascii "b") key1) [])]

end Toy

open Toy in
/-- The second block registers another name. -/
theorem atomic_unknown_signer : ∃ n n' g, Reached Toy.env (SwitchesClean Toy.env) n ∧
    n.ledger.history alice [3, 2, 1] = [2] ∧ n.Branches 14 [3] [14, 13] 2 [1] ∧
    (call 14).run Toy.env n = some (n', .error g) ∧ n.SameAnswers n' Toy.env := by
  have h : (started.bind (performFree (failedBranch [register (ascii "c") key2]))).map (fun n =>
      (n.coinsTip, n.ledger.path 20 3, n.ledger.path 20 14, n.joinable [14, 13])) =
      some (some 3, some [3, 2, 1], some [14, 13, 2, 1], [13, 14]) := by
    decide +kernel
  have h' : (started.bind (performFree (failedBranch [register (ascii "c") key2]))).map (fun n =>
      (n.ledger.history alice [3, 2, 1], ([13, 14].flatMap n.ledger.registrations).length,
        keysFree Toy.env n 3, ((call 14).run Toy.env n).map (·.2.isOk))) =
      some ([2], 0, true, some false) := by
    decide +kernel
  obtain ⟨n, hn, he⟩ := map_eq_some_iff.mp h
  simp only [hn, map_some, some.injEq, Prod.mk.injEq, length_eq_zero_iff, flatMap_eq_nil_iff] at he h'
  obtain ⟨hcoins, hleft, hright, hjoin⟩ := he
  obtain ⟨hname, hregs, hfree, hfails⟩ := h'
  obtain ⟨⟨n', res⟩, hrun, hres⟩ := map_eq_some_iff.mp hfails
  obtain ⟨n₀, hn₀, hall⟩ := bind_eq_some_iff.mp hn
  have hr := reached_performFree ⟨n₀, started_of_eq hn₀, .refl⟩ hall
  have B : n.Branches 14 [3] [14, 13] 2 [1] :=
    ⟨⟨(chain_of_path hleft).1, (chain_of_path hright).1, by decide⟩, hcoins, rfl⟩
  obtain ⟨A, S, ht, -, -⟩ := hr.intact
  obtain rfl := S.eq_left B
  cases res with
  | ok v => cases hres
  | error g =>
    refine ⟨n, n', g, hr, hname, B, hrun, (setBestChain_atomic_iff S ht B hrun).mpr (Or.inr
      ⟨fun x hx u => mem_singleton.mp hx ▸ entries_of_keysFree hfree, ?_⟩)⟩
    rw [hjoin]
    exact sparesNames_of_registrations S.working.tree B.fork.right hregs

open Toy in
/-- The second block replaces the key. The switch to the invalid branch fails and leaves the name
with its old key. -/
theorem failedBranch_not_atomic : ∃ n n' g, Reached Toy.env (fun c n => ∃ n', c.run Toy.env n =
    some (n', .ok ())) n ∧ (call 14).run Toy.env n = some (n', .error g) ∧
      ¬ n.SameAnswers n' Toy.env := by
  have h : (started.bind (performAll (failedBranch [replaceKey alice key2 key1]))).map (fun n =>
      getTransaction Toy.env 5 n alice (-1)) = some (some (some (replaceKey alice key2 key1, 3))) := by
    decide +kernel
  have h' : (started.bind (performAll (failedBranch [replaceKey alice key2 key1]))).map (fun n =>
      ((call 14).run Toy.env n).map fun r => (r.2.isOk, getTransaction Toy.env 5 r.1 alice (-1))) =
      some (some (false, some (some (register alice key1, 2)))) := by
    decide +kernel
  obtain ⟨n, hn, hbefore⟩ := map_eq_some_iff.mp h
  rw [hn, map_some, some.injEq] at h'
  obtain ⟨⟨n', res⟩, hrun, hres⟩ := map_eq_some_iff.mp h'
  simp only [Prod.mk.injEq] at hres
  obtain ⟨n₀, hn₀, hall⟩ := bind_eq_some_iff.mp hn
  cases res with
  | ok v => cases hres.1
  | error g =>
    refine ⟨n, n', g, reached_performAll ⟨n₀, started_of_eq hn₀, .refl⟩
      (fun t m m' hr => ⟨m', hr⟩) hall, hrun, fun hs => ?_⟩
    obtain ⟨fuel, hafter⟩ := (hs alice (-1) _).mp ⟨5, hbefore⟩
    have := getTransaction_unique hafter hres.2
    simp at this

end FreechCore
