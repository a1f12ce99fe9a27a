import FreechCore.Merkle.Commit
import FreechCore.Merkle.PartialTree
import FreechCore.Net.FilterSafe

/-!
Filtered blocks are decoded. The walk that extracts visits the nodes that the walk that builds
has visited, in the same order; at each node it finds the bits and hashes written there. Only the
limit on the number of transactions stands in the way: it is computed from a size that
transactions need not have.
-/

namespace FreechCore

open Merkle ByteBits List

section

variable {h pos : ℕ} {env : Env} {vTxid : List ℕ} {vMatch : List Bool} {t : CPartialMerkleTree}

namespace CPartialMerkleTree

lemma next_of_drop {α : Type*} {l rest : List α} {x : α} {k : ℕ} (h : l.drop k = x :: rest) :
    l[k]? = some x ∧ l.drop (k + 1) = rest := by
  refine ⟨by rw [← head?_drop, h, head?_cons], ?_⟩
  rw [← drop_drop, h, drop_one, tail_cons]

/-! ### Heights -/

lemma treeHeightFrom_eq {n fuel : ℕ} (hle : h ≤ Nat.clog 2 n) (hf : Nat.clog 2 n ≤ h + fuel) :
    treeHeightFrom n fuel h = Nat.clog 2 n := by
  induction fuel generalizing h with
  | zero => exact le_antisymm hle hf
  | succ fuel ih =>
    have hw : 1 < calcTreeWidth n h ↔ h < Nat.clog 2 n := one_lt_width_iff
    rw [treeHeightFrom]
    split_ifs with hlt
    · exact ih (hw.mp hlt) (by omega)
    · exact le_antisymm hle (not_lt.mp fun h => hlt (hw.mpr h))

lemma treeHeight_eq (n : ℕ) : treeHeight n = Nat.clog 2 n := by
  refine treeHeightFrom_eq (Nat.zero_le _) ?_
  rw [Nat.zero_add]
  exact Nat.clog_le_of_le_pow Nat.lt_two_pow_self.le

/-! ### Nodes -/

section Build

lemma calcHash_eq (hpos : pos < width vTxid.length h) :
    (levels env.hashPair h vTxid)[pos]? = some (calcHash env vTxid vTxid.length h pos) := by
  induction h generalizing pos with
  | zero =>
    rw [width_zero] at hpos
    simp [calcHash, hpos]
  | succ h ih =>
    have hleft : pos * 2 < width vTxid.length h := by
      rw [width_succ] at hpos
      omega
    rw [levels_succ, getElem?_level, Nat.mul_comm 2 pos, ih hleft, Option.map_some, calcHash]
    have hw : calcTreeWidth vTxid.length h = width vTxid.length h := rfl
    split_ifs with hright
    · rw [ih hright, Option.getD_some]
    · have hnone : (levels env.hashPair h vTxid)[pos * 2 + 1]? = none := by
        rw [List.getElem?_eq_none_iff, length_levels]
        omega
      rw [hnone, Option.getD_none]

/-- The transactions under a node, and whether they match. -/
def under (vTxid : List ℕ) (vMatch : List Bool) (h pos : ℕ) : List (ℕ × Bool) :=
  ((vTxid.zip vMatch).drop (pos * 2 ^ h)).take (2 ^ h)

def matchedUnder (vTxid : List ℕ) (vMatch : List Bool) (h pos : ℕ) : List ℕ :=
  ((under vTxid vMatch h pos).filter Prod.snd).map Prod.fst

lemma under_succ : under vTxid vMatch (h + 1) pos =
    under vTxid vMatch h (pos * 2) ++ under vTxid vMatch h (pos * 2 + 1) := by
  have h1 : pos * 2 ^ (h + 1) = pos * 2 * 2 ^ h := by
    rw [Nat.pow_succ, Nat.mul_comm (2 ^ h), Nat.mul_assoc]
  have h2 : (pos * 2 + 1) * 2 ^ h = pos * 2 * 2 ^ h + 2 ^ h := by
    rw [Nat.add_mul, Nat.one_mul]
  have h3 : 2 ^ (h + 1) = 2 ^ h + 2 ^ h := by
    rw [Nat.pow_succ, Nat.mul_two]
  rw [under, under, under, h1, h2, h3, take_add, drop_drop]

lemma matchedUnder_succ : matchedUnder vTxid vMatch (h + 1) pos =
    matchedUnder vTxid vMatch h (pos * 2) ++ matchedUnder vTxid vMatch h (pos * 2 + 1) := by
  rw [matchedUnder, under_succ, filter_append, map_append]
  rfl

variable (hlen : vMatch.length = vTxid.length)

include hlen

lemma under_eq_nil (hpos : ¬pos < width vTxid.length h) : under vTxid vMatch h pos = [] := by
  rw [lt_width_iff, not_lt] at hpos
  rw [under, drop_eq_nil_of_le (by simpa [hlen] using hpos), take_nil]

lemma under_ne_nil (hpos : pos < width vTxid.length h) : under vTxid vMatch h pos ≠ [] := by
  rw [lt_width_iff] at hpos
  have : 0 < 2 ^ h := Nat.two_pow_pos h
  rw [← length_pos_iff, under, length_take, length_drop, length_zip, hlen]
  omega

lemma parentOfMatch_eq : parentOfMatch vMatch vTxid.length h pos =
    (under vTxid vMatch h pos).any Prod.snd := by
  have hmap : (vTxid.zip vMatch).map Prod.snd = vMatch := map_snd_zip hlen.le
  have hget : ∀ (p : ℕ) (x : Bool), vMatch[p]? = some x ↔ ∃ t, (vTxid.zip vMatch)[p]? = some (t, x) := by
    nth_rewrite 1 [← hmap]
    simp
  rw [Bool.eq_iff_iff, parentOfMatch, any_eq_true, any_eq_true]
  constructor
  · rintro ⟨p, hp, hm⟩
    rw [mem_range'_1] at hp
    rw [Bool.and_eq_true, decide_eq_true_eq] at hm
    have hp' : vMatch[p]? = some true := by
      have hlt : p < vMatch.length := hlen ▸ hm.1
      simpa [getD, hlt] using hm.2
    obtain ⟨t, ht⟩ := (hget p true).mp hp'
    obtain ⟨i, rfl⟩ := Nat.exists_eq_add_of_le hp.1
    refine ⟨(t, true), mem_of_getElem? (i := i) ?_, rfl⟩
    rw [under, List.getElem?_take, if_pos (by omega), List.getElem?_drop, ht]
  · rintro ⟨⟨t, x⟩, he, rfl⟩
    obtain ⟨i, hi⟩ := mem_iff_getElem?.mp he
    rw [under, List.getElem?_take] at hi
    split_ifs at hi with hlt
    rw [List.getElem?_drop] at hi
    have hm := (hget _ _).mpr ⟨t, hi⟩
    have hb := (List.getElem?_eq_some_iff.mp hm).1
    refine ⟨pos * 2 ^ h + i, ?_, ?_⟩
    · rw [mem_range'_1]
      omega
    · rw [Bool.and_eq_true, decide_eq_true_eq]
      exact ⟨hlen ▸ hb, by rw [getD, hm, Option.getD_some]⟩

lemma matchedUnder_eq_nil (hp : parentOfMatch vMatch vTxid.length h pos = false) :
    matchedUnder vTxid vMatch h pos = [] := by
  rw [parentOfMatch_eq hlen, any_eq_false] at hp
  rw [matchedUnder, filter_eq_nil_iff.mpr hp, map_nil]

lemma matchedUnder_zero (E : Env) (hpos : pos < vTxid.length) : matchedUnder vTxid vMatch 0 pos =
      if parentOfMatch vMatch vTxid.length 0 pos then [calcHash E vTxid vTxid.length 0 pos]
      else [] := by
  have hpos' : pos < vMatch.length := hlen ▸ hpos
  have hunder : under vTxid vMatch 0 pos = [(vTxid[pos], vMatch[pos])] := by
    rw [under, Nat.pow_zero, Nat.mul_one, drop_eq_getElem_cons (by simpa using ⟨hpos, hpos'⟩)]
    simp
  rw [parentOfMatch_eq hlen, matchedUnder, hunder]
  cases vMatch[pos] <;> simp [calcHash, hpos]

end Build

/-! ### What is written -/

section Walk

variable (env : Env) (vTxid : List ℕ) (vMatch : List Bool)

def bitsUnder : ℕ → ℕ → List Bool
  | 0, pos => [parentOfMatch vMatch vTxid.length 0 pos]
  | height + 1, pos =>
    if parentOfMatch vMatch vTxid.length (height + 1) pos = false then [false]
    else true :: (bitsUnder height (pos * 2) ++
      if pos * 2 + 1 < calcTreeWidth vTxid.length height then bitsUnder height (pos * 2 + 1) else [])

def hashesUnder : ℕ → ℕ → List ℕ
  | 0, pos => [calcHash env vTxid vTxid.length 0 pos]
  | height + 1, pos =>
    if parentOfMatch vMatch vTxid.length (height + 1) pos = false then
      [calcHash env vTxid vTxid.length (height + 1) pos]
    else hashesUnder height (pos * 2) ++
      if pos * 2 + 1 < calcTreeWidth vTxid.length height then hashesUnder height (pos * 2 + 1) else []

variable {env vTxid vMatch}

lemma traverseAndBuild_eq (ht : t.nTransactions = vTxid.length) :
    traverseAndBuild env vTxid vMatch h pos t =
      { t with
        vBits := t.vBits ++ bitsUnder vTxid vMatch h pos
        vHash := t.vHash ++ hashesUnder env vTxid vMatch h pos } := by
  induction h generalizing pos t with
  | zero => simp [traverseAndBuild, bitsUnder, hashesUnder, ht]
  | succ h ih =>
    rw [traverseAndBuild, bitsUnder, hashesUnder, ht]
    cases hp : parentOfMatch vMatch vTxid.length (h + 1) pos with
    | false => simp
    | true =>
      simp only [Bool.true_eq_false, if_false]
      rw [ih rfl]
      split_ifs with hright
      · rw [ih rfl]
        simp
      · simp

variable (hlen : vMatch.length = vTxid.length)

include hlen

lemma length_hashesUnder_le (env : Env) (hpos : pos < width vTxid.length h) :
    (hashesUnder env vTxid vMatch h pos).length ≤ (under vTxid vMatch h pos).length ∧
      (hashesUnder env vTxid vMatch h pos).length ≤ (bitsUnder vTxid vMatch h pos).length := by
  induction h generalizing pos with
  | zero =>
    have := length_pos_iff.mpr (under_ne_nil hlen hpos)
    simp only [hashesUnder, bitsUnder, length_singleton]
    omega
  | succ h ih =>
    have hpos' := length_pos_iff.mpr (under_ne_nil hlen hpos)
    have hleft : pos * 2 < width vTxid.length h := by
      rw [width_succ] at hpos
      omega
    obtain ⟨h1, h2⟩ := ih hleft
    rw [hashesUnder, bitsUnder]
    split_ifs with hp hright
    · simp only [length_singleton]
      omega
    · obtain ⟨h3, h4⟩ := ih hright
      simp only [under_succ, length_append, length_cons]
      omega
    · simp only [under_succ, length_append, length_cons, length_nil]
      omega

lemma traverseAndExtract_eq (ht : t.nTransactions = vTxid.length) (hpos : pos < width vTxid.length h)
    {s : Extraction} {bits : List Bool} {hashes : List ℕ}
    (hbits : t.vBits.drop s.nBitsUsed = bitsUnder vTxid vMatch h pos ++ bits)
    (hhash : t.vHash.drop s.nHashUsed = hashesUnder env vTxid vMatch h pos ++ hashes) :
    traverseAndExtract env t h pos s = (calcHash env vTxid vTxid.length h pos,
      { s with
        nBitsUsed := s.nBitsUsed + (bitsUnder vTxid vMatch h pos).length
        nHashUsed := s.nHashUsed + (hashesUnder env vTxid vMatch h pos).length
        vMatch := s.vMatch ++ matchedUnder vTxid vMatch h pos }) := by
  induction h generalizing pos s bits hashes with
  | zero =>
    obtain ⟨hb, -⟩ := next_of_drop hbits
    obtain ⟨hh, -⟩ := next_of_drop hhash
    rw [width_zero] at hpos
    rw [traverseAndExtract, hb]
    dsimp only
    rw [useHash, hh, matchedUnder_zero hlen env hpos]
    cases parentOfMatch vMatch vTxid.length 0 pos <;> simp [bitsUnder, hashesUnder]
  | succ h ih =>
    have hleft : pos * 2 < width vTxid.length h := by
      rw [width_succ] at hpos
      omega
    rw [bitsUnder] at hbits ⊢
    rw [hashesUnder] at hhash ⊢
    cases hp : parentOfMatch vMatch vTxid.length (h + 1) pos with
    | false =>
      simp only [hp, if_true] at hbits hhash ⊢
      obtain ⟨hb, -⟩ := next_of_drop hbits
      obtain ⟨hh, -⟩ := next_of_drop hhash
      simp [traverseAndExtract, hb, useHash, hh, matchedUnder_eq_nil hlen hp]
    | true =>
      simp only [hp, Bool.true_eq_false, if_false, cons_append, append_assoc] at hbits hhash ⊢
      obtain ⟨hb, hbits⟩ := next_of_drop hbits
      rw [traverseAndExtract, hb]
      dsimp only
      rw [ih (s := { s with nBitsUsed := s.nBitsUsed + 1 }) hleft hbits hhash, ht,
        matchedUnder_succ, calcHash]
      have hbits' := congrArg (drop (bitsUnder vTxid vMatch h (pos * 2)).length) hbits
      have hhash' := congrArg (drop (hashesUnder env vTxid vMatch h (pos * 2)).length) hhash
      rw [drop_drop, drop_left] at hbits' hhash'
      split_ifs with hright
      · rw [if_pos hright] at hbits' hhash'
        rw [ih hright hbits' hhash']
        simp only [length_cons, length_append, append_assoc, Prod.mk.injEq,
          Extraction.mk.injEq, and_true, true_and]
        omega
      · have hnone : matchedUnder vTxid vMatch h (pos * 2 + 1) = [] := by
          rw [matchedUnder, under_eq_nil hlen hright]
          rfl
        simp only [hnone, append_nil, length_cons, Prod.mk.injEq, Extraction.mk.injEq,
          and_true, true_and]
        omega

end Walk

/-! ### The whole tree -/

lemma ofMatches_eq : ofMatches env vTxid vMatch =
    ⟨vTxid.length, bitsUnder vTxid vMatch (Nat.clog 2 vTxid.length) 0,
      hashesUnder env vTxid vMatch (Nat.clog 2 vTxid.length) 0, false⟩ := by
  rw [ofMatches, traverseAndBuild_eq rfl, treeHeight_eq]
  rfl

lemma unserialize_serialize : (ofMatches env vTxid vMatch).serialize.unserialize =
      { ofMatches env vTxid vMatch with
        vBits := (ofMatches env vTxid vMatch).vBits ++
          replicate (((ofMatches env vTxid vMatch).vBits.length + 7) / 8 * 8 -
            (ofMatches env vTxid vMatch).vBits.length) false } := by
  rw [serialize, Wire.unserialize, unpack_pack, ofMatches_eq]

lemma extractMatches_tooMany (h : maxBlockSize / 60 < t.nTransactions) :
    extractMatches env t = (t, 0, []) := by
  unfold extractMatches
  split_ifs <;> rfl

lemma extractMatches_ofMatches (bits : List Bool) (hlen : vMatch.length = vTxid.length)
    (hne : vTxid ≠ []) (hsmall : vTxid.length ≤ maxBlockSize / 60) {t : CPartialMerkleTree}
    (ht : t = { ofMatches env vTxid vMatch with vBits := (ofMatches env vTxid vMatch).vBits ++ bits })
    (hfill : ((ofMatches env vTxid vMatch).vBits.length + 7) / 8 = (t.vBits.length + 7) / 8) :
    extractMatches env t = (t, calcHash env vTxid vTxid.length (Nat.clog 2 vTxid.length) 0,
      ((vTxid.zip vMatch).filter Prod.snd).map Prod.fst) := by
  have hpos : 0 < vTxid.length := length_pos_iff.mpr hne
  have hroot : 0 < width vTxid.length (Nat.clog 2 vTxid.length) := by
    rw [width_clog hpos]
    exact Nat.one_pos
  have hall : under vTxid vMatch (Nat.clog 2 vTxid.length) 0 = vTxid.zip vMatch := by
    rw [under, Nat.zero_mul, drop_zero, take_of_length_le]
    rw [length_zip, hlen, min_self]
    exact Nat.le_pow_clog Nat.one_lt_two _
  obtain ⟨h1, h2⟩ := length_hashesUnder_le hlen env hroot
  rw [hall, length_zip, hlen, min_self] at h1
  rw [ofMatches_eq] at ht hfill
  subst ht
  have hhash : (hashesUnder env vTxid vMatch (Nat.clog 2 vTxid.length) 0).drop 0 =
      hashesUnder env vTxid vMatch (Nat.clog 2 vTxid.length) 0 ++ [] := by
    rw [append_nil, drop_zero]
  have hwalk := traverseAndExtract_eq (t := ⟨vTxid.length,
      bitsUnder vTxid vMatch (Nat.clog 2 vTxid.length) 0 ++ bits,
      hashesUnder env vTxid vMatch (Nat.clog 2 vTxid.length) 0, false⟩) (s := ⟨0, 0, [], false⟩)
    hlen rfl hroot rfl hhash
  unfold extractMatches
  rw [treeHeight_eq, hwalk, matchedUnder, hall]
  simp only [Nat.zero_add, nil_append]
  rw [if_neg (by omega), if_neg (by omega), if_neg (by omega),
    if_neg (by rw [length_append]; omega), if_neg (by simp), if_neg (by simpa using hfill),
    if_neg (by simp)]

end CPartialMerkleTree

/-! ### Filtered blocks -/

open CPartialMerkleTree

section Filtered

variable {b : CBlock} {now : ℤ} {pow : Bool} {filter : CBloomFilter}

lemma length_matchAll {hashes : List Bytes} {f : CBloomFilter} {out : List Bool}
    (h : matchAll filter hashes = some (f, out)) : out.length = hashes.length := by
  induction hashes generalizing filter out with
  | nil =>
    cases h
    rfl
  | cons hash l ih =>
    rw [matchAll] at h
    split at h
    · cases h
    · obtain ⟨⟨f', out'⟩, hout, he⟩ := Option.map_eq_some_iff.mp h
      cases he
      rw [length_cons, length_cons, ih hout]

lemma contains_empty (hf : ¬filter.Usable) (vKey : Bytes) : filter.contains vKey = none := by
  rw [CBloomFilter.Usable, not_or, not_not] at hf
  obtain ⟨hnil, h0⟩ := hf
  have hpos : filter.nHashFuncs.toNat ≠ 0 := fun h => h0 (UInt32.toNat_inj.mp h)
  obtain ⟨k, hk⟩ := Nat.exists_eq_succ_of_ne_zero hpos
  simp [CBloomFilter.contains, CBloomFilter.isFull, hnil, hk, range_succ_eq_map,
    CBloomFilter.containsAll, CBloomFilter.hash]

lemma matchBlock_cases (filter : CBloomFilter) (hash : Bytes) (l : List Bytes) :
    (∃ out, matchBlock filter (hash :: l) = some (filter, true :: out) ∧ out.length = l.length ∧
      (filter.Usable ∨ l = [])) ∨
    (matchBlock filter (hash :: l) = none ∧ ¬(filter.Usable ∨ l = [])) := by
  by_cases hf : filter.Usable
  · obtain ⟨out, hout⟩ := matchAll_ok hf l
    exact Or.inl ⟨out, by simp [matchBlock, hout], length_matchAll hout, Or.inl hf⟩
  · cases l with
    | nil => exact Or.inl ⟨[], rfl, rfl, Or.inr rfl⟩
    | cons x l =>
      refine Or.inr ⟨?_, by simp [hf]⟩
      simp [matchBlock, matchAll, CBloomFilter.isRelevantAndUpdate, contains_empty hf]

lemma map_snd_matched (l : List (ℕ × Bool)) :
    ((l.zipIdx.filter fun e => e.1.2).map fun e => (e.2, e.1.1)).map Prod.snd =
      (l.filter Prod.snd).map Prod.fst := by
  have hfst : (l.zipIdx.filter fun e => e.1.2).map Prod.fst = l.filter Prod.snd := by
    conv_rhs => rw [← zipIdx_map_fst 0 l, filter_map]
    rfl
  rw [← hfst, map_map, map_map]
  rfl

/-- **When a filtered block can be decoded.** The partial tree of a block that passes the checks
gives back the Merkle root and the transactions that match, also after it was sent, exactly if the
block has at most 833 transactions, and the filter can be asked at all. -/
theorem merkleBlock_decoded_iff (hb : checkBlock env now pow true b = .ok ())
    (filter : CBloomFilter) :
    (∃ f m, cMerkleBlock env b filter = some (f, m) ∧
      (m.txn.extractMatches env).2 = (b.hashMerkleRoot, m.vMatchedTxn.map Prod.snd) ∧
      (m.txn.serialize.unserialize.extractMatches env).2 =
        (b.hashMerkleRoot, m.vMatchedTxn.map Prod.snd)) ↔
    b.vtx.length ≤ maxBlockSize / 60 ∧ (filter.Usable ∨ b.registrations = []) := by
  obtain ⟨hne, -, hroot⟩ := checkBlock_tree hb
  obtain ⟨tx, l, hv⟩ := exists_cons_of_ne_nil hne
  have hreg : (b.registrations.map env.hashTx).map uint256Bytes = [] ↔ b.registrations = [] := by
    simp
  have hv' : b.vtx = tx :: b.registrations := by rw [CBlock.registrations, hv, tail_cons]
  have hcases := matchBlock_cases filter (uint256Bytes (env.hashTx tx))
    ((b.registrations.map env.hashTx).map uint256Bytes)
  rw [hreg, ← map_cons, ← map_cons, ← hv'] at hcases
  rcases hcases with ⟨out, hm, hout, hus⟩ | ⟨hm, hus⟩
  · have hlen : (true :: out).length = (b.vtx.map env.hashTx).length := by
      rw [hv', length_cons, hout]
      simp
    have hne' : b.vtx.map env.hashTx ≠ [] := by simpa using hne
    -- the root of the partial tree is that of the block
    have hcalc : calcHash env (b.vtx.map env.hashTx)
        (b.vtx.map env.hashTx).length (Nat.clog 2 (b.vtx.map env.hashTx).length) 0 =
          b.hashMerkleRoot := by
      have hwidth : 0 < width (b.vtx.map env.hashTx).length
          (Nat.clog 2 (b.vtx.map env.hashTx).length) := by
        rw [width_clog (length_pos_iff.mpr hne')]
        exact Nat.one_pos
      rw [← Option.some.injEq, ← calcHash_eq hwidth, length_map,
        levels_buildMerkleTree hne, hroot]
      rfl
    simp only [cMerkleBlock, hm, Option.map_some, Option.some.injEq, Prod.mk.injEq]
    rw [and_iff_left hus]
    constructor
    · rintro ⟨f, m, ⟨-, rfl⟩, hext, -⟩
      by_contra hlarge
      have hmany : maxBlockSize / 60 <
          (ofMatches env (b.vtx.map env.hashTx) (true :: out)).nTransactions := by
        rw [ofMatches_eq, length_map]
        exact not_le.mp hlarge
      rw [extractMatches_tooMany hmany, map_snd_matched, hv'] at hext
      simp at hext
    · intro hsmall
      rw [← length_map (f := env.hashTx)] at hsmall
      refine ⟨filter, _, ⟨rfl, rfl⟩, ?_, ?_⟩
      · rw [map_snd_matched, ← hcalc, extractMatches_ofMatches [] hlen hne' hsmall
          (by rw [append_nil]) rfl]
      · rw [map_snd_matched, ← hcalc, extractMatches_ofMatches _ hlen hne' hsmall
          unserialize_serialize ?_]
        rw [unserialize_serialize]
        simp only [length_append, length_replicate]
        omega
  · rw [cMerkleBlock, hm]
    simp [hus]

end Filtered

end

open Toy in
/-- A block of three transactions, for a filter that matches none of the registrations. -/
theorem merkleBlock_decoded_small : ∃ f m,
    cMerkleBlock treeEnv (treeBlock 1 [register alice key1, register (ascii "b") key2]) smallFilter =
      some (f, m) ∧ m.vMatchedTxn.length = 1 ∧
      (m.txn.serialize.unserialize.extractMatches treeEnv).2 =
        ((treeBlock 1 [register alice key1, register (ascii "b") key2]).hashMerkleRoot,
          m.vMatchedTxn.map Prod.snd) := by
  have hb : checkBlock treeEnv 10 true true
      (treeBlock 1 [register alice key1, register (ascii "b") key2]) = .ok () := by decide +kernel
  have hone : (cMerkleBlock treeEnv (treeBlock 1 [register alice key1, register (ascii "b") key2])
      smallFilter).map (fun r => r.2.vMatchedTxn.length) = some 1 := by decide +kernel
  obtain ⟨f, m, hm, -, hsent⟩ := (merkleBlock_decoded_iff hb smallFilter).mpr
    ⟨by decide, Or.inl (Or.inl (by decide))⟩
  rw [hm] at hone
  exact ⟨f, m, hm, Option.some.inj hone, hsent⟩

namespace Toy

/-- The small instance with an easier proof of work for transactions. -/
def crowdEnv : Env := { treeEnv with txBits := 0x207fffff }

def threeLetters (i : ℕ) : Bytes :=
  [UInt8.ofNat (97 + i / 676 % 26), UInt8.ofNat (97 + i / 26 % 26), UInt8.ofNat (97 + i % 26)]

def numberOf : Bytes → ℕ
  | [a, b, c] => (a.toNat - 97) * 676 + (b.toNat - 97) * 26 + (c.toNat - 97)
  | _ => 0

def crowd : List CTransaction := (range 833).map fun i => register (threeLetters i) key1

def crowdedBlock : CBlock := blockIn crowdEnv 1 1 1 spam crowd

lemma register_threeLetters (i : ℕ) :
    CScript.isSmallString (register (threeLetters i) key1).userName = true ∧
      (register (threeLetters i) key1).getUsername = threeLetters i := by
  constructor <;> rfl

lemma toNat_ofNat_letter {k : ℕ} (h : k < 26) : (UInt8.ofNat (97 + k)).toNat = 97 + k :=
  UInt8.toNat_ofNat_of_lt' (by change _ < 256; omega)

lemma numberOf_crowd (i : ℕ) (hi : i < 833) :
    numberOf (register (threeLetters i) key1).getUsername = i := by
  rw [(register_threeLetters i).2, threeLetters, numberOf, toNat_ofNat_letter (Nat.mod_lt _ (by decide)),
    toNat_ofNat_letter (Nat.mod_lt _ (by decide)), toNat_ofNat_letter (Nat.mod_lt _ (by decide))]
  omega

lemma code_threeLetters_le (i : ℕ) : code (threeLetters i) ≤ code (ascii "zzz") := by
  have hz : code (ascii "zzz") = 1 + 122 + 256 * (1 + 122 + 256 * (1 + 122)) := by decide
  rw [hz, threeLetters, code, code, code, code, toNat_ofNat_letter (Nat.mod_lt _ (by decide)),
    toNat_ofNat_letter (Nat.mod_lt _ (by decide)), toNat_ofNat_letter (Nat.mod_lt _ (by decide))]
  omega

lemma hashTx_threeLetters_le (i : ℕ) : crowdEnv.hashTx (register (threeLetters i) key1) ≤
    crowdEnv.hashTx (register (ascii "zzz") key1) := by
  have hmono : ∀ a {b c : ℕ}, b ≤ c → Nat.pair a b ≤ Nat.pair a c := fun a b c h =>
    (StrictMono.monotone fun _ _ h => Nat.pair_lt_pair_right a h) h
  have hmono' : ∀ {a b : ℕ} c, a ≤ b → Nat.pair a c ≤ Nat.pair b c := fun {a b} c h =>
    (StrictMono.monotone fun _ _ h => Nat.pair_lt_pair_left c h : Monotone (Nat.pair · c)) h
  have hcode : code (push (threeLetters i)) ≤ code (push (ascii "zzz")) :=
    Nat.add_le_add_left (Nat.mul_le_mul_left _ (code_threeLetters_le i)) _
  have htx : codeTx (register (threeLetters i) key1) ≤ codeTx (register (ascii "zzz") key1) :=
    hmono _ (hmono _ (hmono' _ hcode))
  exact Nat.add_le_add_right (Nat.mul_le_mul_left 2 htx) 1

lemma checkTransaction_crowd (i : ℕ) :
    checkTransaction crowdEnv (register (threeLetters i) key1) = .ok () ∧
      CScript.isSmallString (register (threeLetters i) key1).userName = true := by
  obtain ⟨hsmall, hname⟩ := register_threeLetters i
  have hpow : checkProofOfWork crowdEnv (crowdEnv.hashTx (register (ascii "zzz") key1))
      crowdEnv.txBits = true := by decide +kernel
  have hchar : ∀ k < 26, checkUsernameChar (UInt8.ofNat (97 + k)) = .ok () := by decide +kernel
  have hspam : (register (threeLetters i) key1).isSpamMessage = false := rfl
  refine ⟨?_, hsmall⟩
  simp only [checkTransaction, checkRegistration, checkUsername, hspam, hsmall, check_bind_eq_ok,
    ensure_eq_ok, reporting_eq_ok, checkAll_eq_ok, Bool.false_eq_true, if_false, false_or]
  refine ⟨⟨cons_ne_nil _ _, cons_ne_nil _ _, trivial, ?_, ?_, ?_⟩, ?_, ?_⟩
  · exact Nat.succ_ne_zero _
  · exact ⟨cons_ne_nil _ _, (by decide : 3 ≤ 16)⟩
  · intro c hc
    rw [show CScript.extractSmallString _ = threeLetters i from hname] at hc
    simp only [threeLetters, mem_cons, not_mem_nil, or_false] at hc
    rcases hc with rfl | rfl | rfl <;> exact hchar _ (Nat.mod_lt _ (by decide))
  · exact (by decide : (register (ascii "zzz") key1).serializeSize ≤ maxTxSize)
  · rw [checkProofOfWork, decide_eq_true_iff] at hpow ⊢
    exact ⟨hpow.1, hpow.2.1, le_trans (Int.ofNat_le.mpr (hashTx_threeLetters_le i)) hpow.2.2⟩

lemma nodup_crowd {α : Type} {g : CTransaction → α}
    (hg : ∀ tx ∈ crowd, ∀ tx' ∈ crowd, g tx = g tx' → tx.getUsername = tx'.getUsername) :
    (crowd.map g).Nodup := by
  rw [crowd, map_map]
  refine nodup_range.map_on fun i hi j hj hij => ?_
  rw [mem_range] at hi hj
  have hname := hg _ (mem_map_of_mem (mem_range.mpr hi)) _
    (mem_map_of_mem (mem_range.mpr hj)) hij
  rw [← numberOf_crowd i hi, hname, numberOf_crowd j hj]

lemma checkBlock_crowdedBlock : checkBlock crowdEnv 10 true true crowdedBlock = .ok () := by
  have hsize : crowdedBlock.serializeSize ≤ maxBlockSize := by decide +kernel
  have hspam : checkTransaction crowdEnv spam = .ok () := by decide +kernel
  have hvtx : crowdedBlock.vtx = spam :: crowd := by simp only [crowdedBlock, blockIn]
  have hreg : crowdedBlock.registrations = crowd := by rw [CBlock.registrations, hvtx, tail_cons]
  have hroot : crowdedBlock.hashMerkleRoot = buildMerkleTree crowdEnv crowdedBlock := by
    simp only [crowdedBlock, blockIn, buildMerkleTree]
  have hall : ∀ tx ∈ crowd, checkTransaction crowdEnv tx = .ok () ∧
      CScript.isSmallString tx.userName = true ∧ tx.isSpamMessage = false := by
    intro tx htx
    obtain ⟨i, hi, rfl⟩ := mem_map.mp htx
    obtain ⟨hcheck, hname⟩ := checkTransaction_crowd i
    exact ⟨hcheck, hname, rfl⟩
  simp only [checkBlock, check_bind_eq_ok, ensure_eq_ok, reporting_eq_ok, checkAll_eq_ok, hreg, hvtx]
  refine ⟨⟨cons_ne_nil _ _, ?_, hsize⟩, fun _ => by decide +kernel, by decide +kernel,
    ⟨spam, rfl, rfl⟩, fun tx htx => (hall tx htx).2.2, ?_, ?_, ?_, fun _ => hroot⟩
  · simp [crowd, maxBlockSize]
  · exact forall_mem_cons.mpr ⟨hspam, fun tx htx => (hall tx htx).1⟩
  · have hinj : Function.Injective crowdEnv.hashTx := treeEnv_hashTx_injective
    refine nodup_cons.mpr ⟨fun hmem => ?_, nodup_crowd fun tx _ tx' _ h => hinj h ▸ rfl⟩
    obtain ⟨tx, htx, he⟩ := mem_map.mp hmem
    have := (hall tx htx).2.2
    rw [hinj he] at this
    cases this
  · refine nodup_crowd fun tx htx tx' htx' h => ?_
    rw [CTransaction.getUsernameHash, CTransaction.getUsernameHash, if_pos (hall tx htx).2.1,
      if_pos (hall tx' htx').2.1] at h
    exact code_injective (Nat.succ_injective h)

end Toy

open CPartialMerkleTree Toy in
/-- A block with 834 transactions passes the checks, but its partial tree is refused. -/
theorem merkleBlock_not_decoded : checkBlock crowdEnv 10 true true crowdedBlock = .ok () ∧
    ∃ f m, cMerkleBlock crowdEnv crowdedBlock smallFilter = some (f, m) ∧
      (m.txn.extractMatches crowdEnv).2 = (0, []) ∧ m.vMatchedTxn.map Prod.snd ≠ [] := by
  refine ⟨checkBlock_crowdedBlock, ?_⟩
  have hvtx : crowdedBlock.vtx = spam :: crowd := by simp only [crowdedBlock, blockIn]
  obtain ⟨out, hm, -⟩ | ⟨-, hus⟩ := matchBlock_cases smallFilter
    (uint256Bytes (crowdEnv.hashTx spam)) ((crowd.map crowdEnv.hashTx).map uint256Bytes)
  · refine ⟨smallFilter, _, by rw [cMerkleBlock, hvtx, map_cons, map_cons, hm]; rfl, ?_, ?_⟩
    · rw [extractMatches_tooMany]
      rw [ofMatches_eq]
      simp [crowd, maxBlockSize]
    · simp
  · exact absurd (Or.inl (Or.inl (by decide))) hus

end FreechCore
