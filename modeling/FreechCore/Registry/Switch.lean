import FreechCore.Registry.Fork

/-!
The switch from one chain to another. The abandoned branch can always be disconnected. If
the new branch can be connected, the vector, the best block and the index all follow the new
chain afterwards.
-/

namespace FreechCore

open BackLink List

variable {x t : ℕ} {v : List CTransaction}

/-- Between switches: the vector, the view, the best block and the index follow one chain. -/
structure Settled (env : Env) (n : Node) (A : List ℕ) : Prop where
  working : Working env n A A
  coins : n.coinsTip = A.head?
  best : n.pindexBest = A.head?

variable {env : Env} {n n' : Node} {A W : List ℕ} {p : CBlockIndex} {b : CBlock} {view : Option ℕ}

lemma Settled.congr (S : Settled env n A) (hs : n.SameChain n') : Settled env n' A :=
  ⟨S.working.congr hs, hs.coins.trans S.coins, hs.best.trans S.best⟩

/-! ### Reading blocks -/

section Read

variable {h : ℕ}

lemma readBlockFromDisk_of_stored (B : n.ledger.Stored env h p b)
    (hw : checkProofOfWork env (getPoWHash env b) b.nBits = true) :
    n.index h = some p ∧ n.readBlockFromDisk env h = some b := by
  have hp : n.index h = some p := B.index
  have hf : n.blockFiles p.blockPos = some b := B.file
  refine ⟨hp, ?_⟩
  simp [Node.readBlockFromDisk, hp, hf, hw, B.hash]

lemma stored_of_readBlockFromDisk (T : n.ledger.Tree env) (hp : n.index h = some p)
    (hb : n.readBlockFromDisk env h = some b) : n.ledger.Stored env h p b := by
  unfold Node.readBlockFromDisk at hb
  simp only [hp] at hb
  cases hf : n.blockFiles p.blockPos with
  | none => simp [hf] at hb
  | some c =>
    simp only [hf] at hb
    split_ifs at hb with hc
    obtain ⟨b', hb', -, hh, -⟩ := T.stored (show n.ledger.index h = some p from hp)
    have hbc : c = b := Option.some.inj hb
    have hb'c : b' = c := Option.some.inj (hb'.symm.trans hf)
    subst hbc
    subst hb'c
    exact ⟨hp, hf, hc.2, hh⟩

end Read

/-! ### Disconnecting a branch -/

variable {dis up : List ℕ} {fuel : ℕ} {n₁ : Node} {fIBD : Bool} {w : List CTransaction}

/-- The newest entry of a name once all blocks of a chain that register it are disconnected:
what its first registration left under its height, or else that registration itself. -/
def Node.under (n : Node) (env : Env) (A : List ℕ) (u : Bytes) : Option ℕ :=
  match (n.ledger.history u A).getLast? with
  | none => n.entries env u (-1)
  | some z => (n.entries env u (n.ledger.ht z - 1)).or (some z)

/-- What disconnecting the branch `dis` from `dis ++ W` leads to. -/
structure Unwound (env : Env) (A W dis : List ℕ) (n n' : Node) : Prop where
  working : Working env n' A W
  tidy : n.Tidy env A (dis ++ W) → n'.Tidy env A W
  same : n' = { n with txIndex := n'.txIndex }
  keys : ∀ u k, k ≠ -1 → n'.entries env u k = n.entries env u k
  newest : ∀ u, n.ledger.history u W = [] → n'.entries env u (-1) = n.under env (dis ++ W) u
  rows : ∀ u, (∀ x ∈ dis, n.ledger.registers u x = true →
    n.entries env u (n.ledger.ht x - 1) = none) → n'.entries env u = n.entries env u

lemma Unwound.ledger (U : Unwound env A W dis n n') : n'.ledger = n.ledger := by rw [U.same]; rfl

lemma Unwound.frame (U : Unwound env A W dis n n') : n.Frame n' := by
  rw [U.same]
  exact .txIndex n _

lemma Unwound.refl (h : Working env n A W) : Unwound env A W [] n n where
  working := h
  tidy := id
  same := rfl
  keys := fun _ _ _ => rfl
  newest := by
    intro u hu
    simp [Node.under, hu]
  rows := fun _ _ => rfl

lemma under_disconnect (h : Working env n A (x :: W)) (B : n.ledger.Stored env x p b)
    (hb : b.Checked) (u : Bytes) : (n.disconnect b).under env W u = n.under env (x :: W) u := by
  have he : (n.disconnect b).entries env u = _ := entries_restored B hb h.sound u
  have hL : (n.disconnect b).ledger = n.ledger := rfl
  unfold Node.under
  rw [he, hL]
  by_cases hu : n.ledger.registers u x = true
  · rw [if_pos hu, Ledger.history_cons_of_registers hu]
    cases hR : n.ledger.history u W with
    | nil =>
      have hx := h.entry_head (Ledger.history_cons_of_registers hu)
      simp only [List.getLast?_nil, List.getLast?_singleton, BackLink.disconnect]
      cases n.entries env u (n.ledger.ht x - 1) with
      | some y => simp
      | none => simpa using hx
    | cons y R =>
      rw [List.getLast?_cons_cons]
      obtain ⟨z, hz⟩ : ∃ z, (y :: R).getLast? = some z := ⟨_, List.getLast?_cons⟩
      have hzW := Ledger.mem_history.mp (hR ▸ mem_of_getLast? hz)
      obtain ⟨q, hq⟩ := h.chainW.index_eq (mem_cons_of_mem x hzW.1)
      have := h.tree.height_pos hq hzW.2
      rw [hz]
      simp only
      rw [disconnect_of_ne (by omega)]
  · rw [if_neg hu, Ledger.history_cons_of_not (by simpa using hu)]

lemma Unwound.cons (h : Working env n A (x :: (dis ++ W))) (hxA : x ∈ A)
    (B : n.ledger.Stored env x p b) (hb : b.Checked) (U : Unwound env A W dis (n.disconnect b) n') :
    Unwound env A W (x :: dis) n n' where
  working := U.working
  tidy := fun ht => U.tidy (ht.disconnect h hxA B hb)
  same := by rw [U.same]; rfl
  keys := by
    intro u k hk
    have he : (n.disconnect b).entries env u = _ := entries_restored B hb h.sound u
    rw [U.keys u k hk, he]
    split_ifs
    · exact disconnect_of_ne hk
    · rfl
  newest := by
    intro u hu
    rw [U.newest u hu, under_disconnect h B hb, cons_append]
  rows := by
    intro u hu
    have he : (n.disconnect b).entries env u = n.entries env u := by
      rw [show (n.disconnect b).entries env u = _ from entries_restored B hb h.sound u]
      split_ifs with hux
      · have hnone := hu x (by simp) hux
        simp [BackLink.disconnect, hnone]
      · rfl
    rw [U.rows u, he]
    intro y hy hyu
    rw [he]
    exact hu y (mem_cons_of_mem _ hy) hyu

lemma disconnectAll_ok (h : Working env n A (dis ++ W)) (hW : W ≠ []) (hdis : ∀ x ∈ dis, x ∈ A) :
    ∃ n' v, disconnectAll env n (dis ++ W).head? dis = some (n', W.head?, .ok v) ∧
      Unwound env A W dis n n' := by
  induction dis generalizing n with
  | nil => exact ⟨n, [], rfl, .refl h⟩
  | cons x dis ih =>
    rw [cons_append] at h
    have hne : dis ++ W ≠ [] := by simp [hW]
    obtain ⟨p, hp⟩ := h.chainW.index_eq (mem_cons_self)
    obtain ⟨b, B⟩ := h.tree.stored_block hp
    obtain ⟨hb, hd⟩ := h.disconnectBlock hne B
    obtain ⟨hi, hr⟩ := readBlockFromDisk_of_stored B hb.work
    have hxA := hdis x (by simp)
    have h' := h.disconnect hne hxA B hb.checked
    obtain ⟨n', v, hall, hU⟩ := ih h' fun y hy => hdis y (mem_cons_of_mem _ hy)
    refine ⟨n', (b.vtx.filter fun tx =>
      !tx.isSpamMessage && decide (getTotalBlocksEstimate env < p.nHeight)) ++ v, ?_,
      hU.cons h hxA B hb.checked⟩
    simp only [cons_append, List.head?_cons, disconnectAll, hi, hr, hd, hall]

/-! ### Connecting a branch -/

section Join

variable {now : ℤ} {view' : Option ℕ}

/-- No block of a branch, lowest first, finds a stale key when the branch is connected on top
of `W`. A key that counts for a block is not touched before the block is connected. -/
def Node.TidyBranch (n : Node) (env : Env) (A W up : List ℕ) : Prop :=
  ∀ lo x hi, up = lo ++ x :: hi → n.TidyBlock env A (lo.reverse ++ W) x

/-- What connecting the blocks `up`, lowest first, on top of `W` leads to. -/
structure Joined (env : Env) (A W up : List ℕ) (n n' : Node) : Prop where
  working : Working env n' A (up.reverse ++ W)
  tidy : n.Tidy env A W → n.TidyBranch env A W up → n'.Tidy env A (up.reverse ++ W)
  rows : ∀ u, (∀ x ∈ up, n.ledger.registers u x = false) → n'.entries env u = n.entries env u
  keys : ∀ u k, k ≠ -1 → (∀ x ∈ up, k ≠ n.ledger.ht x - 1) →
    n'.entries env u k = n.entries env u k
  frame : n.Frame n'
  allowed : ∀ lo x hi, up = lo ++ x :: hi → ∀ tx ∈ n.ledger.registrations x, ∀ y R,
    n.ledger.history tx.getUsername (lo.reverse ++ W) = y :: R → y ∈ A →
      ∃ old, n.ledger.registration y tx.getUsername = some old ∧ Allowed env old tx

lemma Joined.refl (h : Working env n A W) : Joined env A W [] n n where
  working := h
  tidy := fun ht _ => ht
  rows := fun _ _ => rfl
  keys := fun _ _ _ _ => rfl
  frame := .refl n
  allowed := fun lo x hi he => by simp at he

lemma Node.TidyBranch.tail (ht : n.TidyBranch env A W (x :: up)) (hL : n₁.ledger = n.ledger)
    (hrows : ∀ u, n.ledger.registers u x = false → n₁.entries env u = n.entries env u) :
    n₁.TidyBranch env A (x :: W) up := by
  intro lo z hi he u hu hR hy
  have hz := ht (x :: lo) z hi (by rw [he]; rfl) u
  rw [hL] at hu hR hy ⊢
  have hR' : n.ledger.history u ((x :: lo).reverse ++ W) = [] := by simpa using hR
  rw [hrows u (Ledger.not_registers_of_history_nil hR (by simp))] at hy ⊢
  exact hz hu hR' hy

lemma Joined.cons (C : Connected env A W x n n₁) (J : Joined env A (x :: W) up n₁ n') :
    Joined env A W (x :: up) n n' where
  working := by simpa using J.working
  tidy := by
    intro ht hup
    have := J.tidy (C.tidy ht (hup [] x up rfl)) (hup.tail C.frame.ledger C.rows)
    simpa using this
  rows := by
    intro u hu
    have hup : ∀ z ∈ up, n₁.ledger.registers u z = false := by
      rw [C.frame.ledger]
      exact fun z hz => hu z (mem_cons_of_mem _ hz)
    rw [J.rows u hup, C.rows u (hu x (by simp))]
  keys := by
    intro u k hk hku
    rw [J.keys u k hk (by rw [C.frame.ledger]; exact fun z hz => hku z (mem_cons_of_mem _ hz)),
      C.keys u k hk (hku x (by simp))]
  frame := C.frame.trans J.frame
  allowed := by
    intro lo z hi he tx htx y R hR hy
    cases lo with
    | nil =>
      rw [nil_append, List.cons.injEq] at he
      rw [← he.1] at htx
      exact C.allowed tx htx y R hR hy
    | cons z' lo =>
      rw [cons_append, List.cons.injEq] at he
      obtain ⟨rfl, he⟩ := he
      have hJ := J.allowed lo z hi he tx
      rw [C.frame.ledger] at hJ
      exact hJ htx y R (by simpa using hR) hy

lemma connectAll_cons_ok (hc : connectAll env fuel now n view (x :: up) = some (n', view', .ok v)) :
    ∃ p b n₁ view₁ v₁, n.index x = some p ∧ n.readBlockFromDisk env x = some b ∧
      connectBlock env fuel now n view x p b false = some (n₁, view₁, .ok ()) ∧
      connectAll env fuel now n₁ view₁ up = some (n', view', .ok v₁) := by
  unfold connectAll at hc
  split at hc
  · rename_i p b hp hb
    split at hc
    · cases hc
    · cases hc
    · rename_i n₁ view₁ hcb
      split at hc
      · rename_i v₁ hall
        cases hc
        exact ⟨p, b, n₁, view₁, v₁, hp, hb, hcb, hall⟩
      · rename_i hno
        exact absurd hc (hno n' view' v)
  · cases hc

/-- The first block of a branch that is given up: it cannot be read, it is refused, or a later one
is given up. -/
lemma connectAll_cons_error {bad : ℕ} {q : CBlockIndex} {f : Failure} (hq : n.index x = some q)
    (hc : connectAll env fuel now n view (x :: up) = some (n', view', .error (bad, f))) :
    (n.readBlockFromDisk env x = none ∧ n' = n ∧ bad = x ∧
        f = .error ["Failed to read block"]) ∨
      ∃ b, n.readBlockFromDisk env x = some b ∧
        ((bad = x ∧ connectBlock env fuel now n view x q b false = some (n', view', .error f)) ∨
          ∃ n₁ view₁, connectBlock env fuel now n view x q b false = some (n₁, view₁, .ok ()) ∧
            connectAll env fuel now n₁ view₁ up = some (n', view', .error (bad, f))) := by
  unfold connectAll at hc
  cases hb : n.readBlockFromDisk env x with
  | none =>
    simp only [hq, hb, Option.some.injEq, Prod.mk.injEq, Except.error.injEq] at hc
    obtain ⟨rfl, -, rfl, rfl⟩ := hc
    exact Or.inl ⟨rfl, rfl, rfl, rfl⟩
  | some b =>
    simp only [hq, hb] at hc
    refine Or.inr ⟨b, rfl, ?_⟩
    split at hc
    · cases hc
    · rename_i hcb
      cases hc
      exact Or.inl ⟨rfl, hcb⟩
    · rename_i n₁ view₁ hcb
      refine Or.inr ⟨n₁, view₁, hcb, ?_⟩
      split at hc
      · cases hc
      · exact hc

lemma connectAll_ok (h : Working env n A W) (hup : n.ledger.Chain (up.reverse ++ W))
    (hc : connectAll env fuel now n W.head? up = some (n', view', .ok v)) :
    view' = (up.reverse ++ W).head? ∧ Joined env A W up n n' := by
  induction up generalizing n W v with
  | nil =>
    obtain ⟨rfl, rfl, -⟩ := hc
    exact ⟨rfl, Joined.refl h⟩
  | cons x up ih =>
    have hx : n.ledger.Chain (x :: W) := hup.of_up
    obtain ⟨p, b, n₁, view₁, v₁, hp, hb, hcb, hall⟩ := connectAll_cons_ok hc
    obtain ⟨rfl, C⟩ := h.connectBlock (stored_of_readBlockFromDisk h.tree hp hb) hx hcb
    have hup₁ : n₁.ledger.Chain (up.reverse ++ x :: W) := by
      rw [C.frame.ledger]
      simpa using hup
    obtain ⟨hv, J⟩ := ih C.working hup₁ hall
    exact ⟨by simpa using hv, Joined.cons C J⟩

end Join

/-! ### The new best block takes effect -/

section Effect

variable {D con F : List ℕ}

lemma mempoolAccept_eq {tx : CTransaction} {r : Bool}
    (h : mempoolAccept env fuel n tx = some (n', r)) : n' = { n with mapTx := n'.mapTx } := by
  unfold mempoolAccept at h
  split_ifs at h
  · cases h; rfl
  · split at h
    · cases h
    · cases h; rfl
    · split at h
      · cases h
      · cases h; rfl
      · cases h; rfl

lemma resurrect_eq {vtx : List CTransaction} (h : resurrect env fuel n vtx = some n') :
    n' = { n with mapTx := n'.mapTx } := by
  induction vtx generalizing n with
  | nil => cases h; rfl
  | cons tx vtx ih =>
    unfold resurrect at h
    split at h
    · cases h
    · rename_i n₁ r hacc
      rw [ih h, mempoolAccept_eq hacc]

lemma foldl_mempoolRemove_eq (vtx : List CTransaction) (n : Node) :
    vtx.foldl (mempoolRemove env) n =
      { n with mapTx := (vtx.foldl (mempoolRemove env) n).mapTx } := by
  induction vtx generalizing n with
  | nil => rfl
  | cons tx vtx ih =>
    rw [foldl_cons, ih]
    unfold mempoolRemove
    split_ifs <;> rfl

lemma foldl_set (T : n.ledger.Tree env) (hup : n.ledger.Chain (up.reverse ++ W))
    {lo hi : List (Option ℕ)} (hlo : lo.length = W.length) (hhi : hi.length = up.length) :
    up.foldl (fun v h => v.set (n.heightOf h) (some h)) (lo ++ hi) = lo ++ up.map some := by
  induction up generalizing W lo hi with
  | nil =>
    rw [length_nil, length_eq_zero_iff] at hhi
    simp [hhi]
  | cons x up ih =>
    have hx : n.ledger.Chain (x :: W) := hup.of_up
    have hxh : n.heightOf x = lo.length := (hx.height T).trans hlo.symm
    cases hi with
    | nil => simp at hhi
    | cons m hi =>
      have hset : (lo ++ m :: hi).set (n.heightOf x) (some x) = (lo ++ [some x]) ++ hi := by
        simp [hxh]
      rw [foldl_cons, hset, ih (W := x :: W) (by simpa using hup) (by simp [hlo])
        (by simpa using hhi)]
      simp

lemma registerBestChain_vec (T : n.ledger.Tree env)
    (hvec : n.vBlockIndexByHeight = (dis ++ F).reverse.map some) (hD : n.ledger.Chain (con ++ F))
    (ht : (con ++ F).head? = some t) (hlen : dis.length ≤ con.length) :
    (n.registerBestChain t con.reverse).vBlockIndexByHeight = (con ++ F).reverse.map some := by
  obtain ⟨m, hm⟩ : ∃ m, con ++ F = t :: m := List.head?_eq_some_iff.mp ht
  have hth : n.heightOf t + 1 = con.length + F.length := by
    have h1 : n.heightOf t = m.length := (hm ▸ hD).height T
    have h2 := congrArg List.length hm
    simp only [length_append, length_cons] at h2
    omega
  have hsplit : resize (n.heightOf t + 1) n.vBlockIndexByHeight = F.reverse.map some ++
      (dis.reverse.map some ++ List.replicate (con.length - dis.length) none) := by
    unfold resize
    rw [hvec, hth, take_of_length_le (by simp; omega)]
    simp only [reverse_append, map_append, append_assoc, length_append,
      length_map, length_reverse]
    congr 3
    omega
  unfold Node.registerBestChain
  simp only [hsplit]
  rw [foldl_set T (W := F) (by simpa using hD) (by simp) (by simp; omega)]
  simp

lemma Node.Tidy.settle (ht : n.Tidy env A D) : n.Tidy env D D := by
  intro u r hf
  obtain ⟨h1, h2, -⟩ := ht u r hf
  exact ⟨h1, h2, fun x hx hR hxD => absurd hxD (Ledger.not_mem_of_history_nil hR (h1 x hx).1)⟩

lemma Working.settle (h : Working env n A D) (hL : n'.ledger = n.ledger)
    (hi : n'.txIndex = n.txIndex) (hu : n'.undo = n.undo)
    (hv : n'.vBlockIndexByHeight = D.reverse.map some)
    (hb : n'.nBestHeight = (D.length : ℤ) - 1) : Working env n' D D := by
  have he : n'.entries env = n.entries env := by unfold Node.entries; rw [hL, hi]
  refine ⟨?_, ?_, ?_, ?_, hv, hb, ?_, ?_, ?_⟩
  · rw [hL]; exact h.tree
  · rw [hL, hi]; exact h.sound
  · rw [hL]; exact h.chainW
  · rw [hL]; exact h.chainW
  · exact fun x hx => (h.solid x (Or.inr (by simpa using hx))).mono hL (by rw [hu]; exact id)
  · rw [hL, hu]; exact h.undo
  · rw [hL, he]; exact h.follows

lemma switchTo_eq {vConnect : List ℕ} (hs : switchTo env fuel fIBD n view t vConnect v w = some n') :
    n' = { n.registerBestChain t vConnect with
      coinsTip := view
      coinsDB := n'.coinsDB
      mapTx := n'.mapTx
      pindexBest := some t
      nBestHeight := n.heightOf t } := by
  unfold switchTo at hs
  dsimp only at hs
  split at hs
  · cases hs
  · rename_i n₁ hres
    rw [foldl_mempoolRemove_eq, resurrect_eq hres, Option.some.injEq] at hs
    rw [← hs]
    rfl

lemma switchTo_settled (h : Working env n (dis ++ F) (con ++ F)) (ht : (con ++ F).head? = some t)
    (hlen : dis.length ≤ con.length)
    (hs : switchTo env fuel fIBD n (con ++ F).head? t con.reverse v w = some n') :
    Settled env n' (con ++ F) ∧
      (n.Tidy env (dis ++ F) (con ++ F) → n'.Tidy env (con ++ F) (con ++ F)) := by
  have he := switchTo_eq hs
  have hvec := registerBestChain_vec h.tree h.vec h.chainW ht hlen
  have hL : n'.ledger = n.ledger := by rw [he]; rfl
  have hi : n'.txIndex = n.txIndex := by rw [he]; rfl
  have hth : n'.nBestHeight = ((con ++ F).length : ℤ) - 1 := by
    obtain ⟨m, hm⟩ : ∃ m, con ++ F = t :: m := List.head?_eq_some_iff.mp ht
    have h1 : n.heightOf t = m.length := (hm ▸ h.chainW).height h.tree
    rw [he, hm]
    simp [h1]
  refine ⟨⟨h.settle hL hi (by rw [he]; rfl) (by rw [he]; exact hvec) hth, by rw [he],
    by rw [he, ht]⟩, fun htidy => ?_⟩
  have := htidy.settle
  unfold Node.Tidy Node.entries at this ⊢
  rw [hL, hi]
  exact this

end Effect

end FreechCore
