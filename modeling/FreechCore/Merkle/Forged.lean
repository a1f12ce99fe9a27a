import FreechCore.Merkle.Decode

/-!
What a partial tree from the network proves. The sender also chooses the number of transactions,
and with it the height at which the walk takes a hash for that of a transaction. If it is chosen
too low, inner nodes of the Merkle tree pass for transactions.
-/

namespace FreechCore

open Merkle ByteBits List

namespace CPartialMerkleTree

section

variable {env : Env} {t : CPartialMerkleTree} {h pos k : ℕ} {s : Extraction} {m : List ℕ}

section Walk

/-! ### Walks that end well -/

lemma fBad_mono (hs : s.fBad = true) : (traverseAndExtract env t h pos s).2.fBad = true := by
  have huse : ∀ (m : Bool) (s : Extraction), s.fBad = true → (useHash t m s).2.fBad = true := by
    intro m s hs
    unfold useHash
    split
    · rfl
    · exact hs
  induction h generalizing pos s with
  | zero =>
    rw [traverseAndExtract]
    split
    · rfl
    · exact huse _ _ hs
  | succ h ih =>
    rw [traverseAndExtract]
    split
    · rfl
    · exact huse _ _ hs
    · split_ifs
      · exact ih (ih hs)
      · exact ih hs

lemma useHash_ok {m : Bool} (hok : (useHash t m s).2.fBad = false) :
    (useHash t m s).2.vMatch = if m then s.vMatch ++ [(useHash t m s).1] else s.vMatch := by
  unfold useHash at hok ⊢
  split at hok
  · cases hok
  · rfl

/-- **A node of a walk that ends well**: it is a leaf of the walk, or its hash is combined from
the nodes below it. -/
lemma traverseAndExtract_ok (hok : (traverseAndExtract env t (h + 1) pos s).2.fBad = false) :
    (traverseAndExtract env t (h + 1) pos s).2.vMatch = s.vMatch ∨
    ∃ (l r : ℕ × Extraction) (s₁ : Extraction), s₁.vMatch = s.vMatch ∧
      l = traverseAndExtract env t h (pos * 2) s₁ ∧ l.2.fBad = false ∧
      (r = l ∨ r = traverseAndExtract env t h (pos * 2 + 1) l.2) ∧
      traverseAndExtract env t (h + 1) pos s = (env.hashPair l.1 r.1, r.2) := by
  rw [traverseAndExtract] at hok ⊢
  split at hok
  · cases hok
  · exact Or.inl (by simpa using useHash_ok hok)
  · refine Or.inr ⟨_, _, { s with nBitsUsed := s.nBitsUsed + 1 }, rfl, rfl, ?_, ?_, rfl⟩
    · split_ifs at hok with hright
      · by_contra hbad
        rw [Bool.not_eq_false] at hbad
        rw [fBad_mono hbad] at hok
        cases hok
      · exact hok
    · split_ifs
      · exact Or.inr rfl
      · exact Or.inl rfl

/-! ### What such walks match -/

variable {l : List ℕ} (hpair : Function.Injective2 env.hashPair)

include hpair

lemma mem_levels_of_hashPair {x y : ℕ} (hmem : env.hashPair x y ∈ levels env.hashPair (h + 1) l) :
    x ∈ levels env.hashPair h l ∧ y ∈ levels env.hashPair h l := by
  rw [levels_succ] at hmem
  obtain ⟨a, ha, b, hb, he⟩ := mem_level hmem
  obtain ⟨rfl, rfl⟩ := hpair he
  exact ⟨ha, hb⟩

/-- **At the right height**, only leaves of the Merkle tree match. -/
lemma matched_mem (hok : (traverseAndExtract env t h pos s).2.fBad = false)
    (hv : (traverseAndExtract env t h pos s).1 ∈ levels env.hashPair h l) :
    ∀ x ∈ (traverseAndExtract env t h pos s).2.vMatch, x ∈ s.vMatch ∨ x ∈ l := by
  induction h generalizing pos s with
  | zero =>
    rw [traverseAndExtract] at hok hv ⊢
    cases hbit : t.vBits[s.nBitsUsed]? with
    | none =>
      rw [hbit] at hok
      cases hok
    | some bit =>
      rw [hbit] at hok hv
      rw [useHash_ok hok]
      intro x hx
      cases bit with
      | false => exact Or.inl hx
      | true =>
        rcases mem_append.mp hx with hx | hx
        · exact Or.inl hx
        · exact Or.inr (mem_singleton.mp hx ▸ hv)
  | succ h ih =>
    rcases traverseAndExtract_ok hok with hm | ⟨a, b, s₁, hs₁, ha, haok, hb, he⟩
    · rw [hm]
      exact fun x hx => Or.inl hx
    · rw [he] at hok hv ⊢
      obtain ⟨hva, hvb⟩ := mem_levels_of_hashPair hpair hv
      have hleft : ∀ x ∈ a.2.vMatch, x ∈ s.vMatch ∨ x ∈ l := by
        rw [ha] at haok hva ⊢
        rw [← hs₁]
        exact ih haok hva
      rcases hb with rfl | rfl
      · exact hleft
      · intro x hx
        rcases ih hok hvb x hx with hx | hx
        · exact hleft x hx
        · exact Or.inr hx

/-- **Higher up** nothing matches: the walk cannot go below a leaf of the Merkle tree. -/
lemma matched_above {j d : ℕ} (hdisj : ∀ x ∈ l, ∀ y z, x ≠ env.hashPair y z)
    (hok : (traverseAndExtract env t (j + d + 1) pos s).2.fBad = false)
    (hv : (traverseAndExtract env t (j + d + 1) pos s).1 ∈ levels env.hashPair j l) :
    (traverseAndExtract env t (j + d + 1) pos s).2.vMatch = s.vMatch := by
  induction j generalizing pos s with
  | zero =>
    rcases traverseAndExtract_ok hok with hm | ⟨a, b, s₁, -, -, -, -, he⟩
    · exact hm
    · rw [he] at hv
      exact absurd rfl (hdisj _ hv a.1 b.1)
  | succ j ih =>
    have hj : j + 1 + d = j + d + 1 := by omega
    rw [hj] at hok hv ⊢
    rcases traverseAndExtract_ok hok with hm | ⟨a, b, s₁, hs₁, ha, haok, hb, he⟩
    · exact hm
    · rw [he] at hok hv ⊢
      obtain ⟨hva, hvb⟩ := mem_levels_of_hashPair hpair hv
      have hleft : a.2.vMatch = s.vMatch := by
        rw [ha] at haok hva ⊢
        rw [← hs₁]
        exact ih haok hva
      rcases hb with rfl | rfl
      · exact hleft
      · exact (ih hok hvb).trans hleft

end Walk

/-! ### A path on the left -/

/-- The bits of a tree in which the first leaf matches. -/
def leftBits : ℕ → List Bool
  | 0 => [true]
  | h + 1 => true :: (leftBits h ++ [false])

/-- The first leaf, and its neighbours on the way up. -/
def leftHashes (env : Env) (m : List ℕ) : ℕ → List ℕ
  | 0 => [m.getD 0 0]
  | h + 1 => leftHashes env m h ++ [(levels env.hashPair h m).getD 1 0]

lemma length_leftBits (h : ℕ) : (leftBits h).length = 2 * h + 1 := by
  induction h with
  | zero => rfl
  | succ h ih =>
    rw [leftBits, length_cons, length_append, ih, length_singleton]
    omega

lemma length_leftHashes (m : List ℕ) (h : ℕ) : (leftHashes env m h).length = h + 1 := by
  induction h with
  | zero => rfl
  | succ h ih => rw [leftHashes, length_append, ih, length_singleton]

lemma traverseAndExtract_false {x : ℕ} (hbit : t.vBits[s.nBitsUsed]? = some false)
    (hhash : t.vHash[s.nHashUsed]? = some x) : traverseAndExtract env t h pos s =
      (x, { s with nBitsUsed := s.nBitsUsed + 1, nHashUsed := s.nHashUsed + 1 }) := by
  cases h <;> simp [traverseAndExtract, hbit, useHash, hhash]

lemma traverseAndExtract_left (hh : h ≤ Nat.clog 2 t.nTransactions)
    (hw : h ≤ Nat.clog 2 m.length) {bits : List Bool} {hashes : List ℕ}
    (hbits : t.vBits.drop s.nBitsUsed = leftBits h ++ bits)
    (hhash : t.vHash.drop s.nHashUsed = leftHashes env m h ++ hashes) :
    traverseAndExtract env t h 0 s = ((levels env.hashPair h m).getD 0 0,
      { s with
        nBitsUsed := s.nBitsUsed + (leftBits h).length
        nHashUsed := s.nHashUsed + (leftHashes env m h).length
        vMatch := s.vMatch ++ [m.getD 0 0] }) := by
  induction h generalizing s bits hashes with
  | zero =>
    obtain ⟨hb, -⟩ := next_of_drop hbits
    obtain ⟨hx, -⟩ := next_of_drop hhash
    simp [traverseAndExtract, hb, useHash, hx, leftBits, leftHashes]
  | succ h ih =>
    rw [leftBits, cons_append, append_assoc] at hbits
    rw [leftHashes, append_assoc] at hhash
    obtain ⟨hb, hbits⟩ := next_of_drop hbits
    have hbits' := congrArg (List.drop (leftBits h).length) hbits
    have hhash' := congrArg (List.drop (leftHashes env m h).length) hhash
    rw [drop_drop, drop_left] at hbits' hhash'
    have hright : 0 * 2 + 1 < calcTreeWidth t.nTransactions h := by
      have := one_lt_width_iff.mpr (Nat.lt_of_succ_le hh)
      exact this
    rw [traverseAndExtract, hb]
    dsimp only
    rw [if_pos hright, Nat.zero_mul, ih (s := { s with nBitsUsed := s.nBitsUsed + 1 })
      (Nat.le_of_succ_le hh) (Nat.le_of_succ_le hw) hbits hhash,
      traverseAndExtract_false (next_of_drop hbits').1 (next_of_drop hhash').1]
    have hlen : 1 < (levels env.hashPair h m).length := by
      rw [length_levels]
      exact one_lt_width_iff.mpr (Nat.lt_of_succ_le hw)
    have hnode : (levels env.hashPair (h + 1) m).getD 0 0 =
        env.hashPair ((levels env.hashPair h m).getD 0 0) ((levels env.hashPair h m).getD 1 0) := by
      rw [levels_succ, List.getD, getElem?_level]
      simp [List.getD, hlen, Nat.zero_lt_of_lt hlen]
    rw [hnode, leftBits, leftHashes]
    simp only [length_cons, length_append, length_nil, Prod.mk.injEq,
      Extraction.mk.injEq, and_true, true_and]
    omega

/-- A message of this kind that claims `k` transactions. -/
def leftWire (env : Env) (m : List ℕ) (k : ℕ) : Wire :=
  ⟨k, leftHashes env m (treeHeight k), pack (leftBits (treeHeight k))⟩

lemma extractMatches_leftWire (hpos : 0 < k) (hsmall : k ≤ maxBlockSize / 60)
    (hw : treeHeight k ≤ Nat.clog 2 m.length) :
    ((leftWire env m k).unserialize.extractMatches env).2 =
      ((levels env.hashPair (treeHeight k) m).getD 0 0, [m.getD 0 0]) := by
  have hbits : (leftWire env m k).unserialize.vBits = leftBits (treeHeight k) ++
      List.replicate (((leftBits (treeHeight k)).length + 7) / 8 * 8 -
        (leftBits (treeHeight k)).length) false :=
    unpack_pack _
  have hhash : (leftWire env m k).unserialize.vHash = leftHashes env m (treeHeight k) ++ [] :=
    (append_nil _).symm
  have hwalk := traverseAndExtract_left (t := (leftWire env m k).unserialize)
    (s := ⟨0, 0, [], false⟩) (treeHeight_eq k).le hw hbits hhash
  have hclog : treeHeight k + 1 ≤ k := by
    have h1 : k - 1 < 2 ^ (k - 1) := Nat.lt_two_pow_self
    have h2 : Nat.clog 2 k ≤ k - 1 := Nat.clog_le_of_le_pow (by omega)
    rw [treeHeight_eq]
    omega
  have hlenb : (leftWire env m k).unserialize.vBits.length =
      (2 * treeHeight k + 1 + 7) / 8 * 8 := by
    rw [hbits, length_append, length_replicate, length_leftBits]
    omega
  have hlenh : (leftWire env m k).unserialize.vHash.length = treeHeight k + 1 := length_leftHashes m _
  have hn : (leftWire env m k).unserialize.nTransactions = k := rfl
  have hbad : (leftWire env m k).unserialize.fBad = false := rfl
  unfold extractMatches
  rw [hn, hbad, hwalk, hlenb, hlenh]
  dsimp only
  rw [length_leftBits, length_leftHashes, Nat.zero_add, Nat.zero_add]
  rw [if_neg (by omega), if_neg (by omega), if_neg (by omega), if_neg (by omega), if_neg (by decide),
    if_neg (by omega), if_neg (by omega)]
  rfl

/-! ### Messages -/

variable {b : CBlock}

/-- Every message that claims `k` transactions and gives the Merkle root of a block matches only
transactions of the block. -/
def Genuine (env : Env) (b : CBlock) (k : ℕ) : Prop :=
  ∀ w : Wire, w.nTransactions = k →
    (w.unserialize.extractMatches env).2.1 = buildMerkleTree env b →
      ∀ x ∈ (w.unserialize.extractMatches env).2.2, x ∈ b.vtx.map env.hashTx

lemma extractMatches_ne_zero (h : (t.extractMatches env).2.1 ≠ 0) :
    0 < t.nTransactions ∧ t.nTransactions ≤ maxBlockSize / 60 ∧
    (traverseAndExtract env t (treeHeight t.nTransactions) 0 ⟨0, 0, [], t.fBad⟩).2.fBad = false ∧
    (t.extractMatches env).2.1 =
      (traverseAndExtract env t (treeHeight t.nTransactions) 0 ⟨0, 0, [], t.fBad⟩).1 ∧
    (t.extractMatches env).2.2 =
      (traverseAndExtract env t (treeHeight t.nTransactions) 0 ⟨0, 0, [], t.fBad⟩).2.vMatch := by
  unfold extractMatches at h ⊢
  dsimp only at h ⊢
  split_ifs at h ⊢ with h1 h2 h3 h4 h5 h6 h7
  all_goals first | exact absurd rfl h | skip
  exact ⟨Nat.pos_of_ne_zero h1, not_lt.mp h2, by simpa using h5, rfl, rfl⟩

lemma vtx_ne_nil (hroot : buildMerkleTree env b ≠ 0) : b.vtx ≠ [] := by
  intro hnil
  apply hroot
  rw [buildMerkleTree, hnil]
  rfl

lemma mem_levels_of_root (hroot : buildMerkleTree env b ≠ 0) : buildMerkleTree env b ∈
    levels env.hashPair (treeHeight b.vtx.length) (b.vtx.map env.hashTx) := by
  rw [treeHeight_eq, levels_buildMerkleTree (vtx_ne_nil hroot)]
  exact mem_singleton_self _

section

variable (hpair : Function.Injective2 env.hashPair) (hroot : buildMerkleTree env b ≠ 0)

include hpair hroot

/-- **A tree as high as the block's** proves what it says. -/
lemma genuine_of_height (hk : treeHeight k = treeHeight b.vtx.length) :
    Genuine env b k := by
  rintro w rfl hw x hx
  obtain ⟨-, -, hok, hv, hm⟩ := extractMatches_ne_zero (hw ▸ hroot)
  have hmem := mem_levels_of_root hroot
  rw [← hw, hv, ← hk] at hmem
  rw [hm] at hx
  exact (matched_mem hpair hok hmem x hx).resolve_left not_mem_nil

variable (hdisj : ∀ tx ∈ b.vtx, ∀ x y, env.hashTx tx ≠ env.hashPair x y)

include hdisj

lemma genuine_of_le (hk : treeHeight b.vtx.length ≤ treeHeight k) : Genuine env b k := by
  rcases hk.eq_or_lt with heq | hk
  · exact genuine_of_height hpair hroot heq.symm
  rintro w rfl hw x hx
  obtain ⟨-, -, hok, hv, hm⟩ := extractMatches_ne_zero (hw ▸ hroot)
  have hmem := mem_levels_of_root hroot
  rw [← hw, hv] at hmem
  obtain ⟨d, hd⟩ := Nat.exists_eq_add_of_lt hk
  have hleaf : ∀ x ∈ b.vtx.map env.hashTx, ∀ y z, x ≠ env.hashPair y z := by
    intro x hx
    obtain ⟨tx, htx, rfl⟩ := mem_map.mp hx
    exact hdisj tx htx
  have hn : w.unserialize.nTransactions = w.nTransactions := rfl
  rw [hm, hn, hd] at hx
  rw [hn, hd] at hok hmem
  rw [matched_above hpair hleaf hok hmem] at hx
  exact absurd hx not_mem_nil

/-- **A lower tree** matches inner nodes only. -/
lemma matches_nil_of_lower {w : Wire}
    (hw : (w.unserialize.extractMatches env).2.1 = buildMerkleTree env b)
    (hk : treeHeight w.nTransactions < treeHeight b.vtx.length)
    (hall : ∀ x ∈ (w.unserialize.extractMatches env).2.2, x ∈ b.vtx.map env.hashTx) :
    (w.unserialize.extractMatches env).2.2 = [] := by
  obtain ⟨-, -, hok, hv, hm⟩ := extractMatches_ne_zero (hw ▸ hroot)
  obtain ⟨j, hj⟩ := Nat.exists_eq_add_of_lt hk
  have hmem := mem_levels_of_root hroot
  rw [← hw, hv, hj, Nat.add_assoc, levels_add] at hmem
  refine eq_nil_iff_forall_not_mem.mpr fun x hx => ?_
  have hinner := (matched_mem hpair hok hmem x (hm ▸ hx)).resolve_left not_mem_nil
  rw [levels_succ] at hinner
  obtain ⟨y, -, z, -, he⟩ := mem_level hinner
  obtain ⟨tx, htx, rfl⟩ := mem_map.mp (hall x hx)
  exact hdisj tx htx y z he

/-- **A lower tree** lets an inner node pass for a transaction. -/
lemma exists_forged (hpos : 0 < k) (hsmall : k ≤ maxBlockSize / 60)
    (hk : treeHeight k < treeHeight b.vtx.length) : ¬Genuine env b k := by
  intro hgen
  have hlow := hk
  rw [treeHeight_eq b.vtx.length] at hk
  obtain ⟨j, hj⟩ := Nat.exists_eq_add_of_lt hk
  -- the leaves of the lower tree are inner nodes of the block's
  obtain ⟨m, hm⟩ : ∃ m, m = levels env.hashPair (j + 1) (b.vtx.map env.hashTx) := ⟨_, rfl⟩
  have hlevels : ∀ i, levels env.hashPair i m =
      levels env.hashPair (i + (j + 1)) (b.vtx.map env.hashTx) := fun i => hm ▸ levels_add.symm
  have hwidth : ∀ i, width m.length i = width b.vtx.length (i + (j + 1)) := by
    intro i
    rw [← length_levels (f := env.hashPair) m, hlevels, length_levels, length_map]
  have hlen : 0 < m.length := by
    rw [← width_zero m.length, hwidth, lt_width_iff, Nat.zero_mul]
    exact length_pos_iff.mpr (vtx_ne_nil hroot)
  have hw : treeHeight k ≤ Nat.clog 2 m.length := by
    by_contra hlt
    have h1 : 1 < width b.vtx.length (Nat.clog 2 m.length + (j + 1)) :=
      one_lt_width_iff.mpr (by omega)
    rw [← hwidth, width_clog hlen] at h1
    exact lt_irrefl _ h1
  have htop : (levels env.hashPair (treeHeight k) m).getD 0 0 = buildMerkleTree env b := by
    have hh : treeHeight k + (j + 1) = Nat.clog 2 b.vtx.length := by omega
    rw [hlevels, hh, levels_buildMerkleTree (vtx_ne_nil hroot)]
    rfl
  have hext : ((leftWire env m k).unserialize.extractMatches env).2 =
      (buildMerkleTree env b, [m.getD 0 0]) := by
    rw [extractMatches_leftWire hpos hsmall hw, htop]
  have hwroot : ((leftWire env m k).unserialize.extractMatches env).2.1 = buildMerkleTree env b := by
    rw [hext]
  have hnil := matches_nil_of_lower hpair hroot hdisj hwroot hlow (hgen _ rfl hwroot)
  rw [hext] at hnil
  cases hnil

end

/-- **When a partial tree proves what it says.** If the message claims a number of transactions
that gives a tree as high as the block's, then only transactions of the block match. If no
transaction is hashed like an inner node, this holds exactly if the tree is at least as high, or
the number is refused; and for one message, exactly if its tree is at least as high, or nothing
matches. -/
theorem genuine_iff (hpair : Function.Injective2 env.hashPair) (hroot : buildMerkleTree env b ≠ 0) :
    (treeHeight k = treeHeight b.vtx.length → Genuine env b k) ∧
    ((∀ tx ∈ b.vtx, ∀ x y, env.hashTx tx ≠ env.hashPair x y) →
      (Genuine env b k ↔
        k = 0 ∨ maxBlockSize / 60 < k ∨ treeHeight b.vtx.length ≤ treeHeight k) ∧
      ∀ w : Wire, (w.unserialize.extractMatches env).2.1 = buildMerkleTree env b →
        ((∀ x ∈ (w.unserialize.extractMatches env).2.2, x ∈ b.vtx.map env.hashTx) ↔
          (w.unserialize.extractMatches env).2.2 = [] ∨
            treeHeight b.vtx.length ≤ treeHeight w.nTransactions)) := by
  refine ⟨genuine_of_height hpair hroot, fun hdisj => ⟨⟨fun hgen => ?_, ?_⟩, fun w hw => ?_⟩⟩
  · by_contra hno
    simp only [not_or, not_lt, not_le] at hno
    exact exists_forged hpair hroot hdisj (Nat.pos_of_ne_zero hno.1) hno.2.1 hno.2.2 hgen
  · rintro (rfl | hmany | hle)
    · intro w hk hw
      obtain ⟨hpos, -⟩ := extractMatches_ne_zero (hw ▸ hroot)
      exact absurd hk hpos.ne'
    · rintro w rfl hw
      obtain ⟨-, hsmall, -⟩ := extractMatches_ne_zero (hw ▸ hroot)
      exact absurd hsmall (not_le.mpr hmany)
    · exact genuine_of_le hpair hroot hdisj hle
  · rw [or_iff_not_imp_right, not_le]
    refine ⟨fun hall hlow => matches_nil_of_lower hpair hroot hdisj hw hlow hall, fun h => ?_⟩
    rcases lt_or_ge (treeHeight w.nTransactions) (treeHeight b.vtx.length) with hlow | hle
    · simp [h hlow]
    · exact genuine_of_le hpair hroot hdisj hle w rfl hw

end

open Toy in
/-- A message that claims as many transactions as the block has. -/
theorem genuine_three :
    Genuine treeEnv (treeBlock 1 [register alice key1, register (ascii "b") key2]) 3 := by
  exact (genuine_iff treeEnv_hashPair_injective (by decide +kernel)).1 rfl

open Toy in
/-- For a block of two transactions, a message claims one transaction and gives the Merkle root
for its hash. -/
theorem not_genuine_one :
    let b := treeBlock 1 [register alice key1]
    let w : Wire := ⟨1, [buildMerkleTree treeEnv b], [1]⟩
    (w.unserialize.extractMatches treeEnv).2 =
        (buildMerkleTree treeEnv b, [buildMerkleTree treeEnv b]) ∧
      buildMerkleTree treeEnv b ∉ b.vtx.map treeEnv.hashTx ∧ ¬Genuine treeEnv b 1 := by
  refine ⟨?ext, ?no, fun hgen => ?_⟩
  · decide +kernel
  · decide +kernel
  have hext := ?ext
  exact ?no (hgen _ rfl (by rw [hext]) _ (mem_singleton_self _))

end CPartialMerkleTree

end FreechCore
