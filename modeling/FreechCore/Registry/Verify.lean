import FreechCore.Chain.Verify
import FreechCore.Registry.Valid
import FreechCore.Registry.Lookups

/-!
Whether the check of the databases leaves the registry as it is. At level 4 blocks are withdrawn
from the index one by one and then connected again, with the main-chain vector as it is. A block
that was withdrawn and is connected again leaves no trace; one that is not connected again, since
a check has failed, has taken its names back to what they were before it.
-/

namespace FreechCore

open BackLink Ledger List Option

variable {view : Option ℕ} {s : VerifyState}

/-! ### Blocks that are withdrawn -/

/-- The node `m` is the node `n` with the blocks `L` withdrawn from the top of the chain `A`, of
which `W` is left. -/
structure Withdrawn (env : Env) (n : Node) (A L W : List ℕ) (m : Node) : Prop where
  split : A = L ++ W
  working : Working env m A W
  frame : n.Frame m
  rows : ∀ u, m.entries env u =
    withdraw n.ledger.ht (n.entries env u) (n.ledger.history u L)

section

variable {env : Env} {n m : Node} {A L W : List ℕ} {x fuel : ℕ} {p : CBlockIndex} {b : CBlock}
  {now level : ℤ}

section Withdraw

variable {u : Bytes}

lemma Withdrawn.start (h : Working env n A A) : Withdrawn env n A [] A n :=
  ⟨rfl, h, .refl n, fun _ => rfl⟩

lemma Ledger.history_concat (L' : Ledger) (u : Bytes) (l : List ℕ) (x : ℕ) :
    L'.history u (l ++ [x]) =
      if L'.registers u x then L'.history u l ++ [x] else L'.history u l := by
  rw [history_append]
  cases hu : L'.registers u x with
  | true => rw [history_cons_of_registers hu]; rfl
  | false => rw [history_cons_of_not hu]; simp

lemma Withdrawn.down (U : Withdrawn env n A L (x :: W) m) (hW : W ≠ [])
    (B : m.ledger.Stored env x p b) :
    disconnectBlock m (some x) x p b false = some (m.disconnect b, W.head?, .ok ()) ∧
      Withdrawn env n A (L ++ [x]) W (m.disconnect b) := by
  obtain ⟨hb, hrun⟩ := U.working.disconnectBlock hW B
  have hxA : x ∈ A := by rw [U.split]; simp
  refine ⟨hrun, by rw [U.split]; simp, U.working.disconnect hW hxA B hb.checked,
    U.frame.trans (.txIndex m _), fun u => ?_⟩
  have he : (m.disconnect b).entries env u = _ := entries_restored B hb.checked U.working.sound u
  rw [he, history_concat, U.frame.ledger, U.rows u]
  split_ifs
  · rw [withdraw_concat]
  · rfl

lemma Withdrawn.newest (h : Working env n A A) (hs : A = L ++ x :: W)
    (hu : n.ledger.registers u x = true) :
    withdraw n.ledger.ht (n.entries env u) (n.ledger.history u L) (-1) = some x := by
  obtain ⟨r, hf⟩ := h.follows u
  have hd := h.chainA.descending h.tree u
  rw [hs, history_append, history_cons_of_registers hu] at hf hd
  exact (hf.withdraw hd).1

lemma Withdrawn.residue (h : Working env n A A) (ht : n.Tidy env A A) (hs : A = L ++ x :: W)
    (hu : n.ledger.registers u x = true) (hW : n.ledger.history u W = []) {y : ℕ}
    (hy : n.entries env u (n.ledger.ht x - 1) = some y) : y ∉ A := by
  obtain ⟨r, hf⟩ := h.follows u
  refine h.residue_off ht hf ?_
  have hlast : (n.ledger.history u A).getLast? = some x := by
    rw [hs, history_append, history_cons_of_registers hu, hW]
    simp
  rw [← hf.last hlast]
  exact hy

end Withdraw

/-! ### What is looked up for a block that is connected again -/

/-- What a lookup finds for the block `x` over `W` that is connected again: what its chain has for
the name, or the block itself if it is the first to register the name and no older entry is saved
under its height. -/
def Node.lookBack (n : Node) (env : Env) (W : List ℕ) (x : ℕ) (u : Bytes) : Option Found :=
  match n.ledger.history u W with
  | y :: _ => n.ledger.found u y
  | [] =>
    if n.ledger.registers u x = true ∧ n.entries env u (n.ledger.ht x - 1) = none then
      n.ledger.found u x
    else none

section Lookups

variable {u : Bytes}

section

variable (U : Withdrawn env n A (L ++ [x]) W m) (h : Working env n A A)

include U h

lemma Withdrawn.entry_first (hu : n.ledger.registers u x = true) :
    m.entries env u (-1) = (n.entries env u (n.ledger.ht x - 1)).or (some x) := by
  have hs : A = L ++ x :: W := by rw [U.split]; simp
  obtain ⟨q, hq⟩ := h.chainA.index_eq (show x ∈ A by rw [hs]; simp)
  have hpos := h.tree.height_pos hq hu
  have hkey : withdraw n.ledger.ht (n.entries env u) (n.ledger.history u L) (n.ledger.ht x - 1) =
      n.entries env u (n.ledger.ht x - 1) := withdraw_of_ne _ (by omega)
  rw [U.rows, history_concat, if_pos hu, withdraw_concat, disconnect, hkey]
  cases n.entries env u (n.ledger.ht x - 1) with
  | some y => simp
  | none => exact Withdrawn.newest h hs hu

lemma Withdrawn.lookBack (ht : n.Tidy env A A) (htm : m.Tidy env A W) (fuel : ℕ) :
    getTransaction env (fuel + 2) m u W.length = some (n.lookBack env W x u) ∧
      (n.ledger.registers u x = true →
        getTransaction env (fuel + 2) m u (-1) = some (n.lookBack env W x u)) := by
  have hs : A = L ++ x :: W := by rw [U.split]; simp
  have hL := U.frame.ledger
  have hx : n.ledger.Chain (x :: W) := (hs ▸ h.chainA).of_append (by simp)
  have hht := hx.ht_eq h.tree
  have hbound : m.heightBound W.length = W.length := heightBound_of_nonneg (by omega)
  -- an entry on the chain is found at its height and at the best height
  have hvisible : ∀ z, m.entries env u (-1) = some z → z ∈ A → n.ledger.ht z ≤ W.length →
      getTransaction env (fuel + 2) m u W.length = some (n.ledger.found u z) ∧
        getTransaction env (fuel + 2) m u (-1) = some (n.ledger.found u z) := by
    intro z hz hzA hle
    rw [← hL] at hle ⊢
    refine ⟨U.working.getTransaction_entry hz hzA (by rw [hbound]; exact hle) _,
      U.working.getTransaction_entry hz hzA ?_ _⟩
    exact U.working.ht_le_best hzA
  have hoff : (∀ z, m.entries env u (-1) = some z → z ∉ A) →
      getTransaction env (fuel + 2) m u W.length = some none ∧
        getTransaction env (fuel + 2) m u (-1) = some none := fun hz =>
    ⟨U.working.getTransaction_off hz _ _, U.working.getTransaction_off hz _ _⟩
  unfold Node.lookBack
  cases hR : n.ledger.history u W with
  | cons y R =>
    have hy : y ∈ W := (mem_of_history_cons hR).1
    have hlt := (hx.of_cons (ne_nil_of_mem hy)).height_lt_length h.tree hy
    obtain ⟨h1, h2⟩ := hvisible y (U.working.entry_head (hL ▸ hR)) (by rw [hs]; simp [hy])
      (by unfold Ledger.ht; omega)
    exact ⟨h1, fun _ => h2⟩
  | nil =>
    cases hu : n.ledger.registers u x with
    | true =>
      have hnew := U.entry_first h hu
      cases hkey : n.entries env u (n.ledger.ht x - 1) with
      | none =>
        rw [hkey, none_or] at hnew
        obtain ⟨h1, h2⟩ := hvisible x hnew (by rw [hs]; simp) hht.le
        exact ⟨h1, fun _ => h2⟩
      | some y =>
        rw [hkey, some_or] at hnew
        obtain ⟨h1, h2⟩ := hoff fun z hz => by
          rw [hnew, some.injEq] at hz
          exact hz ▸ Withdrawn.residue h ht hs hu hR hkey
        exact ⟨h1, fun _ => h2⟩
    | false =>
      refine ⟨?_, fun hf => by cases hf⟩
      by_cases hA : ∃ z, m.entries env u (-1) = some z ∧ z ∈ A
      · -- the entry lies above the block, and nothing under it
        obtain ⟨z, hz, hzA⟩ := hA
        have hreg : n.ledger.registers u z = true := hL ▸ (U.working.sound.registers hz).2
        have hzL : z ∈ L := by
          rw [hs, mem_append, mem_cons] at hzA
          rcases hzA with hzL | rfl | hzW
          · exact hzL
          · rw [hreg] at hu
            cases hu
          · exact absurd hzW (not_mem_of_history_nil hR hreg)
        have hlt : n.ledger.ht x < n.ledger.ht z := by
          have hpair := (hs ▸ h.chainA).pairwise_lt h.tree
          have := (pairwise_append.mp hpair).2.2 z hzL x (by simp)
          unfold Ledger.ht
          exact_mod_cast this
        have hrest := htm u (some z) (by rw [hL, hR]; exact hz)
        refine U.working.getTransaction_below hz hzA (hrest.bottom z rfl (hL ▸ hR) hzA) ?_ fuel
        rw [hbound, hL]
        omega
      · exact (hoff fun z hz hzA => hA ⟨z, hz, hzA⟩).1

end

end Lookups

/-! ### A block that is connected again -/

section Again

variable {H : ℤ} {look : Bytes → Option Found}

lemma Withdrawn.tidy (U : Withdrawn env n A L W m) (h : Working env n A A) (ht : n.Tidy env A A) :
    m.Tidy env A W := by
  have hrow : ∀ u, ∃ r, Follows n.ledger.ht (withdraw n.ledger.ht (n.entries env u)
      (n.ledger.history u L)) (-1) (n.ledger.history u W) r ∧
        n.ledger.Rests (withdraw n.ledger.ht (n.entries env u) (n.ledger.history u L)) u A
          (n.ledger.history u W) r := by
    intro u
    have hW := U.working.chainW.ne_nil
    have hs := U.split
    clear U
    induction L using reverseRecOn generalizing W with
    | nil =>
      rw [nil_append] at hs
      obtain ⟨r, hf⟩ := h.follows u
      rw [← hs]
      exact ⟨r, hf, ht u r hf⟩
    | append_singleton L x ih =>
      have hs' : A = L ++ x :: W := by rw [hs]; simp
      obtain ⟨r, hf, hr⟩ := ih (by simp) hs'
      have hx : n.ledger.Chain (x :: W) := (hs' ▸ h.chainA).of_append (by simp)
      rw [history_concat]
      split_ifs with hu
      · rw [withdraw_concat]
        obtain ⟨r', hf', hr'⟩ := follows_disconnect h.tree hx h.chainA
          (by rw [hs']; simp) hu hf
        exact ⟨r', hf', hr' hr⟩
      · rw [history_cons_of_not (by simpa using hu)] at hf hr
        exact ⟨r, hf, hr⟩
  intro u r hf
  obtain ⟨r', hf', hr'⟩ := hrow u
  rw [U.rows, U.frame.ledger] at hf ⊢
  rw [hf.unique hf']
  exact hr'

lemma checkSpamUser_of_looks (hlook : ∀ u, getTransaction env fuel m u H = some (look u))
    (tx : CTransaction) : checkSpamUser env fuel m H tx = some (spamVerdict env look tx) := by
  unfold checkSpamUser spamVerdict
  dsimp only
  rw [hlook]
  split_ifs
  · rfl
  · rfl
  · cases look (CScript.extractPushDataString tx.userName 0) <;> rfl

/-- The overwrite check, if the lookups of a name at the height of the block and at the best
height agree: the index stays as it is. -/
lemma checkOverwrite_of_looks {l : List CTransaction}
    (hlook : ∀ tx ∈ l, getTransaction env fuel m tx.getUsername (-1) = some (look tx.getUsername) ∧
      getTransaction env fuel m tx.getUsername H = some (look tx.getUsername)) :
    ∃ res, checkOverwrite env fuel H m l = some (m, res) ∧
      (res = .ok () ↔ ∀ tx ∈ l, overwriteAllowed env look tx = true) := by
  induction l with
  | nil => exact ⟨.ok (), rfl, by simp⟩
  | cons tx l ih =>
    obtain ⟨hbest, hat⟩ := hlook tx (by simp)
    obtain ⟨res, hres, hiff⟩ := ih fun t ht => hlook t (mem_cons_of_mem _ ht)
    unfold checkOverwrite
    have hone : checkOverwriteTx env fuel m H tx =
        some (m, if overwriteAllowed env look tx then .ok () else .error overwriteError) := by
      unfold overwriteAllowed
      cases hl : look tx.getUsername with
      | none =>
        rw [hl] at hbest
        exact checkOverwriteTx_hidden hbest
      | some f =>
        rw [hl] at hbest hat
        rw [checkOverwriteTx_found hbest hat, verdict]
        simp
    rw [hone]
    by_cases hyes : overwriteAllowed env look tx = true
    · rw [if_pos hyes]
      exact ⟨res, hres, by simp [hyes, hiff]⟩
    · rw [if_neg hyes]
      exact ⟨_, rfl, by simp [hyes]⟩

/-- A block, if every lookup returns, and agrees with that at the best height for the names that
the block registers: it connects exactly if it passes, and a block that does not connect changes
nothing. -/
lemma connectBlock_of_looks (now : ℤ) (x : ℕ) (hparent : p.pprev = view)
    (hg : getHash env b ≠ hashGenesisBlock env) (hb : b.Checked)
    (hlook : ∀ u, getTransaction env fuel m u b.nHeight = some (look u))
    (hbest : ∀ tx ∈ b.registrations,
      getTransaction env fuel m tx.getUsername (-1) = some (look tx.getUsername)) :
    (b.Passes env look now → checkOverwrite env fuel b.nHeight m b.registrations = some (m, .ok ()) ∧
      ∃ m', connectBlock env fuel now m view x p b false = some (m', some x, .ok ())) ∧
    (¬b.Passes env look now →
      ∃ f, connectBlock env fuel now m view x p b false = some (m, view, .error f)) := by
  obtain ⟨tx, hvtx, -⟩ := hb.first
  have hhead : b.vtx.head? = some tx := by rw [hvtx]; rfl
  have hspam := checkSpamUser_of_looks hlook tx
  obtain ⟨res, hres, hiff⟩ := checkOverwrite_of_looks fun t ht => ⟨hbest t ht, hlook t.getUsername⟩
  refine ⟨fun hp => ?_, fun hp => ?_⟩
  · obtain ⟨tx', htx', hv⟩ := hp.spam
    cases hhead.symm.trans htx'
    have hok := hiff.mpr hp.overwrite
    subst hok
    refine ⟨hres, (writeUndo m x b.nUndo).writeTxIndex (blockIndexEntries m p.blockPos b), ?_⟩
    unfold connectBlock
    simp only [Bool.not_false, hp.check, hparent, ne_eq, not_true, if_false, hg, hhead,
      map_some, hspam, hv, hres, Bool.false_eq_true]
    rfl
  · unfold connectBlock
    cases hcheck : checkBlock env now true true b with
    | error f => exact ⟨f, by simp [hcheck]⟩
    | ok v =>
      cases hv : spamVerdict env look tx with
      | error f =>
        exact ⟨f, by simp [hcheck, hparent, hg, hhead, hspam, hv]⟩
      | ok v' =>
        cases res with
        | error f =>
          exact ⟨f, by simp [hcheck, hparent, hg, hhead, hspam, hv, hres]⟩
        | ok v'' => exact absurd ⟨hcheck, ⟨tx, hhead, hv⟩, hiff.mp rfl⟩ hp

lemma entries_of_connectBlock {m' : Node} {view' : Option ℕ} (h : Working env m A W)
    (B : m.ledger.Stored env x p b) (hx : m.ledger.Chain (x :: W))
    (hc : connectBlock env fuel now m view x p b false = some (m', view', .ok ()))
    (hover : checkOverwrite env fuel b.nHeight m b.registrations = some (m, .ok ())) (u : Bytes) :
    m'.entries env u = if m.ledger.registers u x
      then connect m.ledger.ht (m.entries env u) x else m.entries env u := by
  obtain ⟨-, C⟩ := h.connectBlock B hx hc
  obtain ⟨n₁, K, -, hm'⟩ := connectBlock_ok (h.hash_ne_genesis B hx) hc
  have hn₁ : n₁ = m := by
    have := hover.symm.trans K.overwrite
    exact (Prod.mk.inj (some.inj this)).1.symm
  subst hn₁
  rw [← entries_written B (checkBlock_checked K.check) h.sound u]
  unfold Node.entries
  rw [C.frame.ledger, hm', Node.connected, ← (writeUndo_written n₁ x b.nUndo).txIndex]
  rfl

def Node.PassesAgain (n : Node) (env : Env) (now : ℤ) (W : List ℕ) (x : ℕ) : Prop :=
  ∃ b, n.readBlockFromDisk env x = some b ∧ b.Passes env (n.lookBack env W x) now

lemma Withdrawn.up (now : ℤ) (U : Withdrawn env n A (L ++ [x]) W m) (h : Working env n A A)
    (ht : n.Tidy env A A) (hfuel : 2 ≤ fuel) :
    ∃ p b, m.index x = some p ∧ m.readBlockFromDisk env x = some b ∧
      (n.PassesAgain env now W x → ∃ m', Withdrawn env n A L (x :: W) m' ∧
        connectBlock env fuel now m W.head? x p b false = some (m', some x, .ok ())) ∧
      (¬n.PassesAgain env now W x →
        ∃ f, connectBlock env fuel now m W.head? x p b false = some (m, W.head?, .error f)) := by
  have hs : A = L ++ x :: W := by rw [U.split]; simp
  have hL := U.frame.ledger
  have hx : m.ledger.Chain (x :: W) := by
    rw [hL]
    exact (hs ▸ h.chainA).of_append (by simp)
  obtain ⟨p, hp⟩ := hx.index_eq mem_cons_self
  obtain ⟨b, B⟩ := U.working.tree.stored_block hp
  have hW := U.working.chainW.ne_nil
  have hparent : p.pprev = W.head? := hx.pprev_eq_head? B
  have hsolid := U.working.solid x (Or.inl (by rw [hs]; simp)) p b B (hx.pprev_ne_none B hW)
  obtain ⟨hi, hread⟩ := readBlockFromDisk_of_stored B hsolid.work
  have hH := B.height_eq U.working.tree hx
  obtain ⟨f, rfl⟩ : ∃ f, fuel = f + 2 := ⟨fuel - 2, by omega⟩
  have htm := U.tidy h ht
  have hlook : ∀ u, getTransaction env (f + 2) m u b.nHeight = some (n.lookBack env W x u) := by
    intro u
    rw [hH]
    exact (U.lookBack h ht htm f).1
  have hbest : ∀ tx ∈ b.registrations, getTransaction env (f + 2) m tx.getUsername (-1) =
      some (n.lookBack env W x tx.getUsername) := by
    intro tx htx
    refine (U.lookBack h ht htm f).2 ?_
    rw [← hL]
    exact registers_of_mem (by rw [B.registrations_eq]; exact htx)
  obtain ⟨hyes, hno⟩ := connectBlock_of_looks now x hparent
    (U.working.hash_ne_genesis B hx) hsolid.checked hlook hbest
  have hread' : n.readBlockFromDisk env x = some b :=
    (readBlockFromDisk_congr hL x).symm.trans hread
  refine ⟨p, b, hi, hread, fun hpass => ?_, fun hpass => hno fun hp => hpass ⟨b, hread', hp⟩⟩
  obtain ⟨b', hb', hpasses⟩ := hpass
  cases hread'.symm.trans hb'
  obtain ⟨hover, m', hc⟩ := hyes hpasses
  obtain ⟨-, C⟩ := U.working.connectBlock B hx hc
  refine ⟨m', ⟨hs, C.working, U.frame.trans C.frame, fun u => ?_⟩, hc⟩
  rw [entries_of_connectBlock U.working B hx hc hover u, U.rows u, history_concat, hL]
  split_ifs with hu
  · have hpos := U.working.tree.height_pos hp (hL.symm ▸ hu)
    rw [withdraw_concat]
    exact connect_disconnect (Withdrawn.newest h hs hu) (hL ▸ hpos)
  · rfl

end Again

/-! ### The two loops -/

section Loops

variable {low : ℤ} {down rest : List ℕ}

/-- The block can be read, and passes the checks up to level 2. -/
def Node.Verifies (n : Node) (env : Env) (now : ℤ) (x : ℕ) : Prop :=
  ∃ p b, n.index x = some p ∧ verifyBlock env now 4 n x p = .ok b

lemma verifyBlock_congr (hF : n.Frame m) (level : ℤ) (x : ℕ) (p : CBlockIndex) :
    verifyBlock env now level m x p = verifyBlock env now level n x p := by
  unfold verifyBlock checkpointsCheckBlock softCheckBlock
  rw [readBlockFromDisk_congr hF.ledger, hF.softCP]

lemma readBlockFromDisk_of_verifyBlock (h : verifyBlock env now level n x p = .ok b) :
    n.readBlockFromDisk env x = some b := by
  unfold verifyBlock at h
  split at h
  · cases h
  · rename_i b' hb'
    split_ifs at h
    cases h
    exact hb'

lemma verifyTips_end {z : ℕ} {l : List ℕ} (hz : s.node.ledger.Chain (z :: l))
    (hend : l = [] ∨ s.node.ledger.ht z < low) :
    verifyTips env now level low (fuel + 1) s (some z) = some (s, .ok ()) := by
  unfold verifyTips
  cases hz with
  | root hp hq =>
    have hp' : s.node.index z = some _ := hp
    simp only [hp', hq]
  | @cons _ q l p hp hq _ =>
    have hlow : (p.nHeight : ℤ) < low := by
      have := hend.resolve_left (by simp)
      rwa [Ledger.ht, heightOf_eq hp] at this
    have hp' : s.node.index z = some p := hp
    simp only [hp', hq, hlow, if_true]

/-- What the first loop does with the blocks `down` on top of `rest`: it withdraws them all, or
those above the first that does not pass. -/
def TipsDone (env : Env) (now : ℤ) (n : Node) (A L down rest : List ℕ)
    (r : Option (VerifyState × Check)) : Prop :=
  (∃ m, Withdrawn env n A (L ++ down) rest m ∧ (∀ y ∈ down, n.Verifies env now y) ∧
    r = some (⟨m, rest.head?, rest.head?⟩, .ok ())) ∨
  ∃ up x lo m f, down = up ++ x :: lo ∧ (∀ y ∈ up, n.Verifies env now y) ∧
    ¬n.Verifies env now x ∧ Withdrawn env n A (L ++ up) (x :: lo ++ rest) m ∧
      ∃ s, r = some (s, .error f) ∧ s.node = m

lemma Withdrawn.tips (now : ℤ) (U : Withdrawn env n A L (down ++ rest) m) (hne : rest ≠ [])
    (hlow : ∀ y ∈ down, low ≤ n.ledger.ht y)
    (hend : ∀ z l, rest = z :: l → l = [] ∨ n.ledger.ht z < low) (hfuel : down.length < fuel) :
    TipsDone env now n A L down rest (verifyTips env now 4 low fuel
      ⟨m, (down ++ rest).head?, (down ++ rest).head?⟩ (down ++ rest).head?) := by
  induction down generalizing m L fuel with
  | nil =>
    obtain ⟨z, l, rfl⟩ := exists_cons_of_ne_nil hne
    obtain ⟨fuel, rfl⟩ : ∃ f, fuel = f + 1 := ⟨fuel - 1, by simp at hfuel; omega⟩
    refine .inl ⟨m, by simpa using U, fun y hy => (by cases hy), ?_⟩
    refine verifyTips_end (l := l) U.working.chainW ?_
    rw [U.frame.ledger]
    exact hend z l rfl
  | cons x down ih =>
    obtain ⟨fuel, rfl⟩ : ∃ f, fuel = f + 1 := ⟨fuel - 1, by simp at hfuel; omega⟩
    have hdr : down ++ rest ≠ [] := by simp [hne]
    have hx : m.ledger.Chain (x :: (down ++ rest)) := U.working.chainW
    obtain ⟨p, hp⟩ := hx.index_eq mem_cons_self
    obtain ⟨b, B⟩ := U.working.tree.stored_block hp
    have hparent := hx.pprev_eq_head? B
    obtain ⟨q, l, hq⟩ := exists_cons_of_ne_nil hdr
    have hi : m.index x = some p := hp
    have hi' : n.index x = some p := (congrFun (Node.index_congr U.frame.ledger) x).symm.trans hi
    have hnot : ¬(p.nHeight : ℤ) < low := by
      have := hlow x (by simp)
      rw [Ledger.ht, heightOf_eq hi'] at this
      omega
    rw [hq, head?_cons] at hparent
    simp only [cons_append, head?_cons]
    unfold verifyTips
    simp only [hi, hparent, hnot, if_false, verifyBlock_congr U.frame]
    cases hv : verifyBlock env now 4 n x p with
    | error f =>
      refine .inr ⟨[], x, down, m, f, rfl, fun y hy => (by cases hy), ?_, by simpa using U, _,
        rfl, rfl⟩
      rintro ⟨p', b', hp', hv'⟩
      cases hi'.symm.trans hp'
      rw [hv] at hv'
      cases hv'
    | ok b' =>
      have hread : m.readBlockFromDisk env x = some b' :=
        (readBlockFromDisk_congr U.frame.ledger x).trans (readBlockFromDisk_of_verifyBlock hv)
      have B' := stored_of_readBlockFromDisk U.working.tree hi hread
      obtain ⟨hdis, U'⟩ := Withdrawn.down (W := down ++ rest) U hdr B'
      have hthree : (3 : ℤ) ≤ 4 := by decide
      have hfour : decide ((4 : ℤ) < 4) = false := by decide
      simp only [hthree, true_and, if_true, hfour, hdis]
      have hlt : down.length < fuel := by
        rw [length_cons] at hfuel
        omega
      have hrun := ih U' (fun y hy => hlow y (mem_cons_of_mem _ hy)) hlt
      have hver : n.Verifies env now x := ⟨p, b', hi', hv⟩
      rw [hq, head?_cons] at hrun ⊢
      rcases hrun with ⟨m', Um, hall, hr⟩ | ⟨up, z, lo, m', f, hsplit, hall, hz, Um, hr⟩
      · exact .inl ⟨m', by simpa using Um, forall_mem_cons.mpr ⟨hver, hall⟩, hr⟩
      · exact .inr ⟨x :: up, z, lo, m', f, by rw [hsplit]; rfl,
          forall_mem_cons.mpr ⟨hver, hall⟩, hz, by simpa using Um, hr⟩

/-- What the second loop does with the blocks `L` that were withdrawn from the top of `W`: those
below the first that does not pass are connected again. -/
def TipsBack (env : Env) (now : ℤ) (n : Node) (A L W : List ℕ)
    (r : Option (VerifyState × Check)) : Prop :=
  ∃ left back m s res, L = left ++ back ∧ Withdrawn env n A left (back ++ W) m ∧
    (∀ mid y lo, back = mid ++ y :: lo → n.PassesAgain env now (lo ++ W) y) ∧
    (∀ up z, left = up ++ [z] → ¬n.PassesAgain env now (back ++ W) z) ∧
    r = some (s, res) ∧ s.node = m

lemma Withdrawn.next (U : Withdrawn env n A (L ++ [x]) W m) {w : ℕ} (hw : W.head? = some w) :
    m.getNextInMainChain w = some x := by
  obtain ⟨l, rfl⟩ := head?_eq_some_iff.mp hw
  have hwA : w ∈ A := by rw [U.split]; simp
  have hht : m.heightOf w = l.length := U.working.chainW.height U.working.tree
  unfold Node.getNextInMainChain
  rw [if_pos (U.working.isInMainChain_iff.mpr hwA), hht, U.working.vec, U.split]
  simp

lemma Withdrawn.back (now : ℤ) (U : Withdrawn env n A L W m) (h : Working env n A A) (ht : n.Tidy env A A)
    (hbest : n.pindexBest = A.head?) (hfuel : 2 ≤ fuel) {rounds : ℕ} (hrounds : L.length ≤ rounds) :
    TipsBack env now n A L W (reconnectTips env fuel now rounds ⟨m, W.head?, W.head?⟩) := by
  induction L using reverseRecOn generalizing m W rounds with
  | nil =>
    refine ⟨[], [], m, ⟨m, W.head?, W.head?⟩, .ok (), rfl, by simpa using U,
      fun mid y lo he => by simp at he, fun up z he => by simp at he, ?_, rfl⟩
    have hA : A = W := by simpa using U.split
    have hstop : W.head? = m.pindexBest := by rw [U.frame.best, hbest, hA]
    unfold reconnectTips
    rw [if_pos hstop]
  | append_singleton L x ih =>
    obtain ⟨rounds, rfl⟩ : ∃ k, rounds = k + 1 := ⟨rounds - 1, by simp at hrounds; omega⟩
    obtain ⟨w, l, rfl⟩ := exists_cons_of_ne_nil U.working.chainW.ne_nil
    have hgo : some w ≠ m.pindexBest := by
      rw [U.frame.best, hbest]
      intro he
      have hnd := h.chainA.nodup h.tree
      obtain ⟨A', hA'⟩ := head?_eq_some_iff.mp he.symm
      -- the best block is one of those withdrawn
      cases L with
      | nil =>
        have hs : A = x :: w :: l := U.split
        rw [hs, cons.injEq] at hA'
        rw [hs, ← hA'.1] at hnd
        simp at hnd
      | cons z L =>
        have hs : A = z :: (L ++ [x] ++ w :: l) := U.split
        rw [hs, cons.injEq] at hA'
        rw [hs, ← hA'.1] at hnd
        simp at hnd
    obtain ⟨p, b, hp, hb, hyes, hno⟩ := U.up now h ht hfuel
    unfold reconnectTips
    simp only [head?_cons, hgo, if_false, bind_some, U.next rfl, hp, hb]
    by_cases hpass : n.PassesAgain env now (w :: l) x
    · obtain ⟨m', U', hc⟩ := hyes hpass
      rw [head?_cons] at hc
      simp only [hc]
      have hlt : L.length ≤ rounds := by
        rw [length_append, length_singleton] at hrounds
        omega
      obtain ⟨left, back, m₂, s, res, hL, U₂, hback, hleft, hr, hs⟩ :=
        ih U' hlt
      refine ⟨left, back ++ [x], m₂, s, res, by rw [hL]; simp, by simpa using U₂,
        fun mid y lo he => ?_, fun up z he => ?_, hr, hs⟩
      · rcases eq_nil_or_concat lo with rfl | ⟨lo', z, rfl⟩
        · have he' : back ++ [x] = mid ++ [y] := he
          obtain ⟨-, hxy⟩ := append_inj' he' rfl
          rw [cons.injEq] at hxy
          rw [← hxy.1]
          exact hpass
        · have he' : back ++ [x] = (mid ++ y :: lo') ++ [z] := by simpa using he
          obtain ⟨he₁, he₂⟩ := append_inj' he' rfl
          rw [cons.injEq] at he₂
          have := hback mid y lo' he₁
          rw [he₂.1] at this
          simpa using this
      · have := hleft up z he
        simpa using this
    · obtain ⟨f, hc⟩ := hno hpass
      rw [head?_cons] at hc
      simp only [hc]
      refine ⟨L ++ [x], [], m, _, _, by simp, by simpa using U,
        fun mid y lo he => by simp at he, fun up z he => ?_, rfl, rfl⟩
      obtain ⟨-, he⟩ := append_inj' he rfl
      rw [cons.injEq] at he
      rw [← he.1]
      exact hpass

end Loops

/-! ### The whole check -/

/-- An older entry of a name that the block registers is saved under its height. -/
def Node.Replaces (n : Node) (env : Env) (x : ℕ) : Prop :=
  ∃ u, n.ledger.registers u x = true ∧ n.entries env u (n.ledger.ht x - 1) ≠ none

/-- The blocks of the chain that are checked. -/
def Node.checkedBlocks (n : Node) (A : List ℕ) (nCheckDepth : ℤ) : List ℕ :=
  A.dropLast.take ((n.checkDepth nCheckDepth).toNat + 1)

/-- Of the blocks `R` on top of `rest`, every one that replaces an entry is not withdrawn, since
the check fails at it or above it, or is connected again: all blocks pass the checks, and none from
there down fails to connect. -/
def Node.Restores (n : Node) (env : Env) (now : ℤ) (R rest : List ℕ) : Prop :=
  ∀ up x down, R = up ++ x :: down → n.Replaces env x →
    (∃ y ∈ up ++ [x], ¬n.Verifies env now y) ∨
      ((∀ y ∈ R, n.Verifies env now y) ∧
        ∀ mid y lo, x :: down = mid ++ y :: lo → n.PassesAgain env now (lo ++ rest) y)

section Whole

variable {low nCheckLevel nCheckDepth : ℤ} {n' : Node}
variable {R rest : List ℕ} {res : Check}

/-- **What is left withdrawn shows** exactly if it had replaced something. -/
lemma Withdrawn.answers_iff (U : Withdrawn env n A L W m) (h : Working env n A A)
    (ht : n.Tidy env A A) :
    (∀ g u k, getTransaction env g m u k = getTransaction env g n u k) ↔
      ∀ x ∈ L, ¬n.Replaces env x := by
  constructor
  · rintro hsame x hx ⟨u, hu, hkey⟩
    have hLA : ∀ y ∈ n.ledger.history u L, y ∈ n.ledger.history u A := fun y hy => by
      obtain ⟨hyL, hyu⟩ := mem_history.mp hy
      exact mem_history.mpr ⟨by rw [U.split]; simp [hyL], hyu⟩
    have hd := h.chainA.descending h.tree u
    obtain ⟨r, hf⟩ := h.follows u
    have hpos : ∀ y ∈ n.ledger.history u L, 0 < n.ledger.ht y := fun y hy => hd.2 y (hLA y hy)
    rcases withdraw_newest (e := n.entries env u) hpos with hnone | ⟨z, hz, y, hzy, hnew⟩
    · exact hkey (hnone x (mem_history.mpr ⟨hx, hu⟩))
    -- before, the newest registration is found, at or above the block
    cases hR : n.ledger.history u A with
    | nil =>
      have := hLA z hz
      rw [hR] at this
      cases this
    | cons t R =>
      have htA : t ∈ A := (mem_of_history_cons hR).1
      have hbefore := h.getTransaction_best (h.entry_head hR) htA 0
      obtain ⟨told, -, htfound⟩ := found_eq_some (mem_of_history_cons hR).2
      rw [← hsame, htfound] at hbefore
      have hyt : y ≠ t := by
        rintro rfl
        rcases hf.under hd (hLA z hz) hzy with ⟨-, hlt⟩ | hr
        · have hzA := hLA z hz
          rw [hR] at hzA hd
          rcases mem_cons.mp hzA with rfl | hzR
          · exact lt_irrefl _ hlt
          · exact absurd (hd.lt hzR) (not_lt.mpr hlt.le)
        · exact h.residue_off ht hf hr htA
      have hnew' : m.entries env u (-1) = some y := by rw [U.rows]; exact hnew
      by_cases hyA : y ∈ A
      · have hafter := U.working.getTransaction_best hnew' hyA 0
        obtain ⟨yold, -, hyfound⟩ := found_eq_some (U.working.sound.registers hnew').2
        rw [hyfound, hbefore, some.injEq, some.injEq, Prod.mk.injEq] at hafter
        exact hyt hafter.2.symm
      · have hafter := U.working.getTransaction_off (u := u) (fun z hz => by
          rw [hnew', some.injEq] at hz
          exact hz ▸ hyA) (-1) 0
        rw [hbefore] at hafter
        cases hafter
  · intro hno g u k
    refine getTransaction_congr h U.working U.frame.ledger ?_ g k
    rw [U.rows]
    refine withdraw_eq_self fun x hx => ?_
    obtain ⟨hxL, hxu⟩ := mem_history.mp hx
    by_contra hkey
    exact hno x hxL ⟨u, hxu, hkey⟩

lemma mem_or_suffix {α : Type*} {up down a c : List α} {x : α} (h : up ++ x :: down = a ++ c) :
    x ∈ a ∨ ∃ mid, c = mid ++ x :: down := by
  rcases append_eq_append_iff.mp h with ⟨l, rfl, h'⟩ | ⟨l, rfl, h'⟩
  · cases l with
    | nil => exact .inr ⟨[], by simpa using h'.symm⟩
    | cons y l =>
      rw [cons_append, cons.injEq] at h'
      exact .inl (by simp [h'.1])
  · exact .inr ⟨l, h'⟩

lemma restores_iff_of_unverified {up lo : List ℕ} (hR : R = up ++ x :: lo)
    (hup : ∀ y ∈ up, n.Verifies env now y) (hx : ¬n.Verifies env now x) :
    n.Restores env now R rest ↔ ∀ y ∈ up, ¬n.Replaces env y := by
  constructor
  · intro hres y hy hrep
    obtain ⟨a, c, rfl⟩ := append_of_mem hy
    rcases hres a y (c ++ x :: lo) (by rw [hR]; simp) hrep with ⟨z, hz, hno⟩ | ⟨hall, -⟩
    · refine hno (hup z ?_)
      simp only [mem_append, mem_cons] at hz ⊢
      tauto
    · exact hx (hall x (by rw [hR]; simp))
  · intro hno a y down hsplit hrep
    refine .inl ⟨x, ?_, hx⟩
    rcases mem_or_suffix (hsplit.symm.trans hR) with hy | ⟨mid, hmid⟩
    · exact absurd hrep (hno y hy)
    · -- the block lies at the one that fails, or below it
      cases mid with
      | nil =>
        rw [nil_append, cons.injEq] at hmid
        rw [hmid.1]
        simp
      | cons z mid =>
        rw [cons_append, cons.injEq] at hmid
        have he : a ++ y :: down = (up ++ z :: mid) ++ y :: down := by
          rw [← hsplit, hR, hmid.1, hmid.2]
          simp
        rw [append_cancel_right he, hmid.1]
        simp

lemma restores_iff_of_verified {left back : List ℕ} (hR : R = left ++ back)
    (hall : ∀ y ∈ R, n.Verifies env now y)
    (hback : ∀ mid y lo, back = mid ++ y :: lo → n.PassesAgain env now (lo ++ rest) y)
    (hleft : ∀ up z, left = up ++ [z] → ¬n.PassesAgain env now (back ++ rest) z) :
    n.Restores env now R rest ↔ ∀ y ∈ left, ¬n.Replaces env y := by
  constructor
  · intro hres y hy hrep
    obtain ⟨a, c, rfl⟩ := append_of_mem hy
    rcases hres a y (c ++ back) (by rw [hR]; simp) hrep with ⟨z, hz, hno⟩ | ⟨-, hpass⟩
    · refine hno (hall z ?_)
      rw [hR]
      simp only [mem_append, mem_cons] at hz ⊢
      tauto
    · -- the lowest block that is left would have to pass
      obtain ⟨c', z, hc⟩ := eq_nil_or_concat (y :: c) |>.resolve_left (by simp)
      refine hleft (a ++ c') z (by rw [hc]; simp) (hpass c' z back ?_)
      rw [← cons_append, hc]
      simp
  · intro hno a y down hsplit hrep
    refine .inr ⟨hall, fun mid z lo he => ?_⟩
    rcases mem_or_suffix (hsplit.symm.trans hR) with hy | ⟨mid', hmid⟩
    · exact absurd hrep (hno y hy)
    · refine hback (mid' ++ mid) z lo ?_
      rw [hmid, he]
      simp

lemma disconnectBlock_justCheck {view' : Option ℕ}
    (h : disconnectBlock n view x p b true = some (n', view', res)) : n' = n := by
  unfold disconnectBlock at h
  split at h
  · cases h
  split at h
  · cases h; rfl
  split at h
  · cases h; rfl
  · cases h; rfl

lemma verifyTips_node {s' : VerifyState} {pindex : Option ℕ} (hl : level < 4)
    (h : verifyTips env now level low fuel s pindex = some (s', res)) : s'.node = s.node := by
  induction fuel generalizing s pindex with
  | zero =>
    cases pindex with
    | none => cases h; rfl
    | some x => cases h
  | succ fuel ih =>
    cases pindex with
    | none => cases h; rfl
    | some x =>
      unfold verifyTips at h
      rw [decide_eq_true hl] at h
      split at h
      · cases h
      split at h
      · cases h; rfl
      split at h
      · cases h; rfl
      split at h
      · cases h; rfl
      split at h
      · split at h
        · cases h
        · rename_i hdis
          cases h
          exact disconnectBlock_justCheck hdis
        · rename_i hdis
          exact (ih h).trans (disconnectBlock_justCheck hdis)
      · exact ih h

lemma verifyDB_node (hl : checkLevel nCheckLevel < 4)
    (h : verifyDB env fuel now n nCheckLevel nCheckDepth = some (n', res)) : n' = n := by
  unfold verifyDB at h
  split at h
  · cases h; rfl
  split_ifs at h
  · cases h; rfl
  dsimp only at h
  split at h
  · cases h
  · rename_i s f hs
    cases h
    exact verifyTips_node hl hs
  · rename_i s hs
    rw [if_neg (by omega)] at h
    cases h
    exact verifyTips_node hl hs

lemma checkedBlocks_split (h : Working env n A A) :
    ∃ rest, A = n.checkedBlocks A nCheckDepth ++ rest ∧ rest ≠ [] ∧
      (∀ y ∈ n.checkedBlocks A nCheckDepth,
        n.nBestHeight - n.checkDepth nCheckDepth ≤ n.ledger.ht y) ∧
      ∀ z l, rest = z :: l → l = [] ∨ n.ledger.ht z < n.nBestHeight - n.checkDepth nCheckDepth := by
  have hpos := length_pos_of_ne_nil h.chainA.ne_nil
  have hd : 0 ≤ n.checkDepth nCheckDepth := by
    have := h.best
    unfold Node.checkDepth
    dsimp only
    split_ifs <;> omega
  set R := n.checkedBlocks A nCheckDepth with hR
  have hlen : R.length = min ((n.checkDepth nCheckDepth).toNat + 1) (A.length - 1) := by
    rw [hR, Node.checkedBlocks, length_take, length_dropLast]
  have hsplit : A = R ++ A.drop R.length := by
    have hpre : R <+: A := ( take_prefix _ _).trans ( dropLast_prefix A)
    obtain ⟨t, ht⟩ := hpre
    rw [← ht, drop_left]
  have hlenA : A.length = R.length + (A.drop R.length).length := by
    rw [← length_append, ← hsplit]
  refine ⟨A.drop R.length, hsplit, ?_, fun y hy => ?_, fun z l hzl => ?_⟩
  · intro he
    rw [he, length_nil] at hlenA
    omega
  · obtain ⟨a, c, hac⟩ := append_of_mem hy
    have hA' : A = a ++ y :: (c ++ A.drop R.length) := by
      nth_rewrite 1 [hsplit]
      rw [hac]
      simp
    have hht : n.ledger.heightOf y = (c ++ A.drop R.length).length :=
      ((hA' ▸ h.chainA).of_append (by simp)).height h.tree
    have hac' := congrArg length hac
    simp only [length_append, length_cons] at hac' hht
    rw [h.best, Ledger.ht, hht]
    omega
  · have hht : n.ledger.heightOf z = l.length := by
      have hc : n.ledger.Chain (z :: l) := by
        rw [← hzl]
        refine Ledger.Chain.of_append (l := R) ?_ (by rw [hzl]; simp)
        rw [← hsplit]
        exact h.chainA
      exact hc.height h.tree
    rw [hzl, length_cons] at hlenA
    rw [h.best, Ledger.ht, hht]
    by_cases hl : l.length = 0
    · exact .inl (length_eq_zero_iff.mp hl)
    · exact .inr (by omega)

lemma reconnectTips_mono {f g rounds : ℕ} {r : VerifyState × Check} (hfg : f ≤ g)
    (h : reconnectTips env f now rounds s = some r) :
    reconnectTips env g now rounds s = some r := by
  induction rounds generalizing s with
  | zero =>
    exact h
  | succ rounds ih =>
    unfold reconnectTips at h ⊢
    split at h
    · rename_i hstop
      rw [if_pos hstop]
      exact h
    rename_i hstop
    rw [if_neg hstop]
    cases hx : s.pindexState.bind s.node.getNextInMainChain with
    | none => simp [hx] at h
    | some x =>
      simp only [hx] at h ⊢
      cases hp : s.node.index x with
      | none => simp [hp] at h
      | some p =>
        simp only [hp] at h ⊢
        cases hb : s.node.readBlockFromDisk env x with
        | none => simpa [hb] using h
        | some b =>
          simp only [hb] at h ⊢
          cases hc : connectBlock env f now s.node s.coins x p b false with
          | none => simp [hc] at h
          | some q =>
            obtain ⟨m, coins, res⟩ := q
            rw [connectBlock_mono hfg hc]
            cases res with
            | error e => simpa [hc] using h
            | ok v =>
              simp only [hc] at h ⊢
              exact ih h

/-- **The check of the databases leaves every lookup as it was**, in a node whose index agrees with
its chain, exactly if the level is below 4, or no block that replaces an entry is left withdrawn:
for each such block of those checked, the check fails at it or above it, or all blocks pass the
checks and the block and those under it can be connected again. -/
theorem verifyDB_lookups_iff (S : Settled env n A) (ht : n.Tidy env A A)
    (h : verifyDB env fuel now n nCheckLevel nCheckDepth = some (n', res)) :
    (∀ g u k, getTransaction env g n' u k = getTransaction env g n u k) ↔
      checkLevel nCheckLevel < 4 ∨
        n.Restores env now (n.checkedBlocks A nCheckDepth)
          (A.drop (n.checkedBlocks A nCheckDepth).length) := by
  by_cases hl : checkLevel nCheckLevel < 4
  · rw [verifyDB_node hl h]
    exact ⟨fun _ => .inl hl, fun _ _ _ _ => rfl⟩
  rw [or_iff_right hl]
  have hfour : checkLevel nCheckLevel = 4 := by
    unfold checkLevel at hl ⊢
    omega
  have hW := S.working
  obtain ⟨best, A', rfl⟩ := exists_cons_of_ne_nil hW.chainA.ne_nil
  unfold verifyDB at h
  rw [S.best, head?_cons] at h
  dsimp only at h
  by_cases hroot : n.pprev best = none
  · -- there is only the genesis block
    rw [if_pos hroot] at h
    cases h
    have hA' : A' = [] := by
      cases A' with
      | nil => rfl
      | cons q l =>
        have := hW.chainA.pprev_eq
        cases hroot.symm.trans this
    refine ⟨fun _ up x down hs => ?_, fun _ _ _ _ => rfl⟩
    rw [hA', Node.checkedBlocks] at hs
    simp at hs
  rw [if_neg hroot, hfour] at h
  obtain ⟨rest, hsplit, hne, hlow, hend⟩ := checkedBlocks_split hW
  set R := n.checkedBlocks (best :: A') nCheckDepth with hR
  have hdrop : (best :: A').drop R.length = rest := by
    nth_rewrite 1 [hsplit]
    exact drop_left
  rw [hdrop]
  have hheight : n.heightOf best = A'.length := hW.chainA.height hW.tree
  have hRlen : R.length ≤ A'.length := by
    have := congrArg length hsplit
    have hpos := length_pos_of_ne_nil hne
    rw [length_append, length_cons] at this
    omega
  have U₀ : Withdrawn env n (best :: A') [] (R ++ rest) n := by
    rw [← hsplit]
    exact .start hW
  have hfuel : R.length < n.heightOf best + 1 := by omega
  have hfirst := U₀.tips now hne hlow hend hfuel
  have hhead : (R ++ rest).head? = some best := by
    rw [← hsplit]
    rfl
  rw [hhead] at hfirst
  rw [S.coins, head?_cons] at h
  rcases hfirst with ⟨m, U, hall, hr⟩ | ⟨up, x, lo, m, f, hs, hup, hx, U, s, hr, rfl⟩
  · simp only [hr, le_refl, if_true] at h
    obtain ⟨⟨s, r⟩, hs, he⟩ := map_eq_some_iff.mp h
    cases he
    rw [nil_append] at U
    have hrounds : R.length ≤ n.heightOf best := by omega
    obtain ⟨left, back, m', s', r', hL, U', hback, hleft, hrun, rfl⟩ :=
      U.back now hW ht S.best (Nat.le_add_left 2 fuel) hrounds
    rw [reconnectTips_mono (Nat.le_add_right fuel 2) hs] at hrun
    cases hrun
    rw [U'.answers_iff hW ht, restores_iff_of_verified hL hall hback hleft]
  · simp only [hr] at h
    cases h
    rw [nil_append] at U
    rw [U.answers_iff hW ht, restores_iff_of_unverified hs hup hx]

end Whole

end

namespace Toy

def aheadBlock : CBlock := { block 4 3 3 spam [] with nTime := 10000000 }

/-- A user replaces the key, over a block from a time when the clock was ahead; the last block
stands first. -/
def aheadBlocks : List CBlock :=
  [block 5 4 4 spam [replaceKey alice key2 key1], aheadBlock, block 3 2 2 spam [],
    block 2 1 1 spam [register alice key1]]

/-- The block that replaces the key is itself ahead. -/
def aheadTip : List CBlock :=
  [{ block 4 3 3 spam [replaceKey alice key2 key1] with nTime := 10000000 }, block 3 2 2 spam [],
    block 2 1 1 spam [register alice key1]]

/-- The blocks are connected one after the other. -/
def connectedBlocks (bs : List CBlock) : Option Node :=
  started.bind (performFree (bs.reverse.flatMap fun b => [.store b, .switch (getHash env b)]))

lemma reached_connectedBlocks {bs : List CBlock} {n : Node} (h : connectedBlocks bs = some n) :
    Reached env (SwitchesClean env) n := by
  obtain ⟨n₀, hn₀, h⟩ := bind_eq_some_iff.mp h
  exact reached_performFree ⟨n₀, started_of_eq hn₀, .refl⟩ h

/-- The lookups of the user before and after the check, and whether the check returns true. -/
def keyLookups (start : Option Node) (nCheckLevel : ℤ) :
    Option (Option (Option Found) × Option (Option Found) × Bool) :=
  start.bind fun n => (verifyDB env 5 5000000 n nCheckLevel 0).map fun r =>
    (getTransaction env 5 n alice (-1), getTransaction env 5 r.1 alice (-1),
      decide (r.2 = .ok ()))

lemma keyLookups_eq {start : Option Node} {nCheckLevel : ℤ} {before after : Option (Option Found)}
    {ok : Bool} (h : keyLookups start nCheckLevel = some (before, after, ok)) :
    ∃ n n' res, start = some n ∧
      verifyDB env 5 5000000 n nCheckLevel 0 = some (n', res) ∧ decide (res = .ok ()) = ok ∧
        getTransaction env 5 n alice (-1) = before ∧ getTransaction env 5 n' alice (-1) = after := by
  obtain ⟨n, hn, h⟩ := bind_eq_some_iff.mp h
  obtain ⟨⟨n', res⟩, hr, h⟩ := map_eq_some_iff.mp h
  obtain ⟨h₁, h₂⟩ := Prod.mk.inj h
  obtain ⟨h₂, h₃⟩ := Prod.mk.inj h₂
  exact ⟨n, n', res, hn, hr, h₃, h₁, h₂⟩

end Toy

open Toy in
/-- The clock is back where it should be, and the check of the databases fails at the block that
is ahead of it. The key over it is gone from the registry. -/
theorem verifyDB_loses_key : ∃ n n' res, Delivered Toy.env aheadBlocks n ∧
    verifyDB Toy.env 5 5000000 n 4 0 = some (n', res) ∧ res ≠ .ok () ∧
      getTransaction Toy.env 5 n alice (-1) = some (some (replaceKey alice key2 key1, 5)) ∧
        getTransaction Toy.env 5 n' alice (-1) = some (some (register alice key1, 2)) := by
  have h : keyLookups (deliverAll aheadBlocks) 4 =
      some (some (some (replaceKey alice key2 key1, 5)), some (some (register alice key1, 2)),
        false) := by
    decide +kernel
  obtain ⟨n, n', res, hn, hr, hres, hlook⟩ := keyLookups_eq h
  exact ⟨n, n', res, delivered_of_deliverAll hn, hr, of_decide_eq_false hres, hlook⟩

open Toy in
/-- One level less leaves every lookup as it was, and so does level 4 if the check fails at the block
that replaces the key; over the block that is ahead the key is not restored. -/
theorem verifyDB_lookups_ahead : (∃ n n' res, Reached Toy.env (SwitchesClean Toy.env) n ∧
      verifyDB Toy.env 5 5000000 n 3 0 = some (n', res) ∧
        ∀ g u k, getTransaction Toy.env g n' u k = getTransaction Toy.env g n u k) ∧
    (∃ n n' res, Reached Toy.env (SwitchesClean Toy.env) n ∧
      verifyDB Toy.env 5 5000000 n 4 0 = some (n', res) ∧
        ∀ g u k, getTransaction Toy.env g n' u k = getTransaction Toy.env g n u k) ∧
    ∃ n A, Settled Toy.env n A ∧ n.Tidy Toy.env A A ∧
      ¬n.Restores Toy.env 5000000 (n.checkedBlocks A 0)
        (A.drop (n.checkedBlocks A 0).length) := by
  refine ⟨?_, ?_, ?_⟩
  · have h : keyLookups (connectedBlocks aheadBlocks) 3 = some (some (some
        (replaceKey alice key2 key1, 5)), some (some (replaceKey alice key2 key1, 5)), false) := by
      decide +kernel
    obtain ⟨n, n', res, hn, hr, -⟩ := keyLookups_eq h
    have hreach := reached_connectedBlocks hn
    obtain ⟨A, I⟩ := hreach.intact
    exact ⟨n, n', res, hreach, hr, (verifyDB_lookups_iff I.settled I.tidy hr).mpr (.inl (by decide))⟩
  · have h : (connectedBlocks aheadTip).map (fun n =>
        (activeOf n, (verifyDB Toy.env 5 5000000 n 4 0).isSome,
          (n.index 4).map fun p => (verifyBlock Toy.env 5000000 4 n 4 p).isOk)) =
        some (some [4, 3, 2, 1], true, some false) := by
      decide +kernel
    obtain ⟨n, hn, he⟩ := map_eq_some_iff.mp h
    simp only [Prod.mk.injEq] at he
    obtain ⟨hA, hsome, hbad⟩ := he
    obtain ⟨⟨n', res⟩, hr⟩ := isSome_iff_exists.mp hsome
    have hreach := reached_connectedBlocks hn
    obtain ⟨A, I⟩ := hreach.intact
    obtain rfl := (active_of_activeOf hA).unique I.settled.active
    refine ⟨n, n', res, hreach, hr, (verifyDB_lookups_iff I.settled I.tidy hr).mpr (.inr ?_)⟩
    -- the tip is the first block that is checked
    intro up x down hs _
    refine Or.inl ⟨4, ?_, ?_⟩
    · cases up <;> simp_all [Node.checkedBlocks]
    · rintro ⟨p, b, hp, hb⟩
      rw [hp, map_some, hb] at hbad
      cases hbad
  · have h : keyLookups (connectedBlocks aheadBlocks) 4 = some (some (some
        (replaceKey alice key2 key1, 5)), some (some (register alice key1, 2)), false) := by
      decide +kernel
    obtain ⟨n, n', res, hn, hr, -, hbefore, hafter⟩ := keyLookups_eq h
    obtain ⟨A, I⟩ := (reached_connectedBlocks hn).intact
    refine ⟨n, A, I.settled, I.tidy, fun hres => ?_⟩
    have hsame := (verifyDB_lookups_iff I.settled I.tidy hr).mpr (.inr hres)
    have hne := hafter.symm.trans ((hsame 5 alice (-1)).trans hbefore)
    exact absurd hne (by decide)

end FreechCore
