import FreechCore.Registry.Frames

/-!
One block connected to, or disconnected from, the chain that is being worked on. Both keep
the agreement between the index and that chain; connecting also keeps the residues harmless
if the block finds no stale key under its height.
-/

namespace FreechCore

open BackLink Ledger

/-! ### Connecting a block -/

variable {env : Env} {n : Node} {x : ℕ} {p : CBlockIndex} {b : CBlock} {A W : List ℕ}

section Connect

variable {fuel : ℕ} {now : ℤ} {n₁ n' : Node} {view view' : Option ℕ}
variable {u : Bytes}

/-- The block finds no stale key for a name it is the first to register on its chain: where
the newest entry of the name is missing, is the block itself, or lies on the vector's chain
above the block, there is nothing under the key of the block's height. -/
def Node.TidyBlock (n : Node) (env : Env) (A W : List ℕ) (x : ℕ) : Prop :=
  ∀ u, n.ledger.registers u x = true → n.ledger.history u W = [] →
    (∀ y, n.entries env u (-1) = some y → y = x ∨ (y ∈ A ∧ n.ledger.ht x < n.ledger.ht y)) →
      n.entries env u (n.ledger.ht x - 1) = none

/-- What connecting the block `x` on top of `W` leads to. -/
structure Connected (env : Env) (A W : List ℕ) (x : ℕ) (n n' : Node) : Prop where
  working : Working env n' A (x :: W)
  tidy : n.Tidy env A W → n.TidyBlock env A W x → n'.Tidy env A (x :: W)
  rows : ∀ u, n.ledger.registers u x = false → n'.entries env u = n.entries env u
  keys : ∀ u k, k ≠ -1 → k ≠ n.ledger.ht x - 1 → n'.entries env u k = n.entries env u k
  frame : n.Frame n'
  allowed : ∀ tx ∈ n.ledger.registrations x, ∀ y R,
    n.ledger.history tx.getUsername W = y :: R → y ∈ A →
      ∃ old, n.ledger.registration y tx.getUsername = some old ∧ Allowed env old tx

section

variable (B : n₁.ledger.Stored env x p b) (hb : b.Checked) (S : n₁.ledger.Sound env n₁.txIndex)

include B hb S

lemma entries_written (u : Bytes) :
    n₁.ledger.entries env (n₁.connected p b) u = if n₁.ledger.registers u x
      then connect n₁.ledger.ht (n₁.entries env u) x else n₁.entries env u := by
  cases hu : n₁.ledger.registers u x with
  | true => exact entries_connected B hb S hu
  | false => exact entries_connected_other B hb hu

lemma written_eq
    (hn' : n' = (writeUndo n₁ x b.nUndo).writeTxIndex (blockIndexEntries n₁ p.blockPos b)) :
    n'.ledger = n₁.ledger ∧ n'.txIndex = n₁.connected p b ∧
      ∀ u, n'.entries env u = if n₁.ledger.registers u x
        then connect n₁.ledger.ht (n₁.entries env u) x else n₁.entries env u := by
  have W := writeUndo_written n₁ x b.nUndo
  have hL : n'.ledger = n₁.ledger := by
    rw [hn', ← W.frame.ledger]
    rfl
  have hi : n'.txIndex = n₁.connected p b := by
    rw [hn', Node.connected, ← W.txIndex]
    rfl
  refine ⟨hL, hi, fun u => ?_⟩
  unfold Node.entries
  rw [hL, hi]
  exact entries_written B hb S u

end

section

variable (h : Working env n A W)

include h

lemma Overwritten.tidyFor (hx : n.ledger.Chain (x :: W))
    {l : List CTransaction} {res : Check} (O : Overwritten env A W l n n₁ res)
    (ht : n.TidyBlock env A W x) (hu : n.ledger.registers u x = true)
    (hR : n.ledger.history u W = []) : n.ledger.TidyFor (n₁.entries env u) x := by
  obtain ⟨q, hq⟩ := hx.index_eq (List.mem_cons_self)
  have hx0 := h.tree.height_pos hq hu
  intro hlast
  rcases O.rows u with he | ⟨-, ⟨-, z, hz, hzA, hH⟩, he⟩
  · rw [he] at hlast ⊢
    refine ht u hu hR fun y hy => Or.inl ?_
    rcases hlast with hn | hs
    · rw [hn] at hy; cases hy
    · exact Option.some.inj (hy.symm.trans hs)
  · rw [he, eraseLatest, Function.update_of_ne (by omega)]
    refine ht u hu hR fun y hy => Or.inr ?_
    have hyz : y = z := Option.some.inj (hy.symm.trans hz)
    rw [hyz]
    refine ⟨hzA, lt_of_le_of_lt (le_of_eq ?_) hH⟩
    exact hx.ht_eq h.tree

lemma Working.hash_ne_genesis (B : n.ledger.Stored env x p b)
    (hx : n.ledger.Chain (x :: W)) : getHash env b ≠ hashGenesisBlock env := by
  rw [B.hash]
  exact fun e => hx.pprev_ne_none B h.chainW.ne_nil ((h.tree.root_iff B.index).mpr e)

lemma Working.undoable : Undoable env n (A ++ W) :=
  ⟨fun x hx => h.solid x (List.mem_append.mp hx), h.undo⟩

/-- **Connecting a block.** -/
theorem Working.connectBlock (B : n.ledger.Stored env x p b)
    (hx : n.ledger.Chain (x :: W))
    (hc : connectBlock env fuel now n view x p b false = some (n', view', .ok ())) :
    view' = some x ∧ Connected env A W x n n' := by
  obtain ⟨n₁, C, rfl, hn'⟩ := connectBlock_ok (h.hash_ne_genesis B hx) hc
  have hb := checkBlock_checked C.check
  have hH : b.nHeight = W.length := by
    rw [B.height, ← heightOf_eq B.index, hx.height h.tree]
  have O := checkOverwrite_overwritten h (hH ▸ C.overwrite)
  have hL₁ : n₁.ledger = n.ledger := by rw [O.same]; rfl
  obtain ⟨-, hF, U⟩ := h.undoable.connectBlock h.tree B (hx.pprev_ne_none B h.chainW.ne_nil) hc
  have hL := hF.ledger
  have B₁ : n₁.ledger.Stored env x p b := hL₁.symm ▸ B
  have hx₁ : n₁.ledger.Chain (x :: W) := hL₁.symm ▸ hx
  have h₁ := O.working
  obtain ⟨hL', hi, he⟩ := written_eq B₁ hb h₁.sound hn'
  refine ⟨rfl, ⟨⟨?_, ?_, ?_, ?_, ?_, ?_, ?_, U.undo, ?_⟩, ?_, ?_, ?_, hF, ?_⟩⟩
  · rw [hL]; exact h.tree
  · rw [hL', hi]; exact sound_connected B₁ hb h₁.sound
  · rw [hL]; exact h.chainA
  · rw [hL]; exact hx
  · exact hF.vec.trans h.vec
  · exact hF.height.trans h.best
  · exact fun h' hh' => U.solid h' (by simp at hh' ⊢; tauto)
  · intro u
    obtain ⟨r, hf⟩ := h₁.follows u
    rw [he, hL']
    split_ifs with hu
    · obtain ⟨r', hf', -⟩ := follows_connect (A := A) h₁.tree hx₁ hu hf
      exact ⟨r', hf'⟩
    · rw [history_cons_of_not (by simpa using hu)]
      exact ⟨r, hf⟩
  · intro ht htb u r hf
    have ht₁ := O.tidy ht
    rw [he, hL'] at hf ⊢
    split_ifs at hf ⊢ with hu
    · obtain ⟨r₁, hf₁⟩ := h₁.follows u
      obtain ⟨r', hf', hrest⟩ := follows_connect (A := A) h₁.tree hx₁ hu hf₁
      rw [hf.unique hf']
      refine hrest (ht₁ u r₁ hf₁) fun hR => ?_
      rw [hL₁] at hu hR ⊢
      exact O.tidyFor h hx htb hu hR
    · rw [history_cons_of_not (by simpa using hu)] at hf ⊢
      exact ht₁ u r hf
  · intro u hu
    rw [he, hL₁, hu, if_neg (by simp)]
    rcases O.rows u with hr | ⟨⟨tx, htx, rfl⟩, -⟩
    · exact hr
    · rw [← B.registrations_eq] at htx
      rw [registers_of_mem htx] at hu
      cases hu
  · intro u k hk hkx
    have hn₁ : n₁.entries env u k = n.entries env u k := by
      rcases O.rows u with hr | ⟨-, -, hr⟩
      · rw [hr]
      · rw [hr, eraseLatest, Function.update_of_ne hk]
    rw [he, ← hn₁]
    split_ifs
    · exact connect_of_key_ne hk (by rw [hL₁]; exact hkx)
    · rfl
  · rw [B.registrations_eq]
    exact O.allowed rfl

end

end Connect

/-! ### Disconnecting a block -/

lemma entries_restored (B : n.ledger.Stored env x p b) (hb : b.Checked)
    (S : n.ledger.Sound env n.txIndex) (u : Bytes) :
    n.ledger.entries env (n.disconnected b) u = if n.ledger.registers u x
      then disconnect n.ledger.ht (n.entries env u) x else n.entries env u := by
  cases hu : n.ledger.registers u x with
  | true => exact entries_disconnected B hb S hu
  | false => exact entries_disconnected_other B hu

def Node.disconnect (n : Node) (b : CBlock) : Node := { n with txIndex := n.disconnected b }

lemma Working.disconnect (h : Working env n A (x :: W)) (hW : W ≠ []) (hxA : x ∈ A)
    (B : n.ledger.Stored env x p b) (hb : b.Checked) : Working env (n.disconnect b) A W where
  tree := h.tree
  sound := sound_disconnected h.sound
  chainA := h.chainA
  chainW := h.chainW.of_cons hW
  vec := h.vec
  best := h.best
  solid := fun h' hh' => (h.solid h' (hh'.imp id (List.mem_cons_of_mem _))).mono rfl id
  undo := h.undo
  follows := by
    intro u
    have he : (n.disconnect b).entries env u = _ := entries_restored B hb h.sound u
    obtain ⟨r, hf⟩ := h.follows u
    rw [he]
    split_ifs with hu
    · obtain ⟨r', hf', -⟩ := follows_disconnect h.tree h.chainW h.chainA hxA hu hf
      exact ⟨r', hf'⟩
    · rw [history_cons_of_not (by simpa using hu)] at hf
      exact ⟨r, hf⟩

lemma Node.Tidy.disconnect (ht : n.Tidy env A (x :: W)) (h : Working env n A (x :: W))
    (hxA : x ∈ A) (B : n.ledger.Stored env x p b) (hb : b.Checked) :
    (n.disconnect b).Tidy env A W := by
  intro u r hf
  have he : (n.disconnect b).entries env u = _ := entries_restored B hb h.sound u
  rw [he] at hf ⊢
  split_ifs at hf ⊢ with hu
  · obtain ⟨r₁, hf₁⟩ := h.follows u
    obtain ⟨r', hf', hrest⟩ := follows_disconnect h.tree h.chainW h.chainA hxA hu hf₁
    rw [hf.unique hf']
    exact hrest (ht u r₁ hf₁)
  · have hR := history_cons_of_not (W := W) (L := n.ledger) (u := u) (by simpa using hu)
    rw [show (n.disconnect b).ledger = n.ledger from rfl, ← hR] at hf ⊢
    exact ht u r hf

/-- **Disconnecting a block** succeeds, and moves the view to its parent. -/
theorem Working.disconnectBlock (h : Working env n A (x :: W)) (hW : W ≠ [])
    (B : n.ledger.Stored env x p b) : n.SolidBlock env x b ∧
      disconnectBlock n (some x) x p b false = some (n.disconnect b, W.head?, .ok ()) := by
  have hparent := h.chainW.pprev_eq_head? B
  have hb := h.solid x (Or.inr List.mem_cons_self) p b B (h.chainW.pprev_ne_none B hW)
  obtain ⟨k, hk⟩ := Option.isSome_iff_exists.mp hb.undo
  refine ⟨hb, ?_⟩
  rw [disconnectBlock_ok rfl hk (h.undo x p b k B hk), hparent]
  rfl

end FreechCore
