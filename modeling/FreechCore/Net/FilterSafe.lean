import FreechCore.Core.ToyEnv
import FreechCore.Net.Bloom

/-!
Which filters a peer may load without harm. A filter with data serves every sequence of
requests and never forgets what was added to it; one without data is fine only if it has no
hash functions either, yet the size check lets it pass.
-/

namespace FreechCore

namespace CBloomFilter

variable {f g : CBloomFilter} {vKey x : Bytes}

lemma Extends.contains_of_not_full (hfg : f.Extends g) (hfull : f.isFull = false)
    (h : f.contains x = some true) : g.contains x = some true := by
  unfold contains at h ⊢
  rw [hfull] at h
  split_ifs
  · rfl
  · refine containsAll_of_forall fun i hi => ?_
    rw [hfg.funcs] at hi
    obtain ⟨nIndex, hidx, hset⟩ := Option.bind_eq_some_iff.mp (forall_of_containsAll h i hi)
    rw [hfg.hash_eq, hidx]
    exact hfg.bits nIndex hset

lemma insert_ok (hf : f.Usable) (vKey : Bytes) :
    ∃ g, f.insert vKey = some g ∧ g.Usable ∧ g.contains vKey = some true ∧
      ∀ x, f.contains x = some true → g.contains x = some true := by
  unfold insert
  cases hfull : f.isFull with
  | true => exact ⟨f, by simp, hf, by simp [contains, hfull], fun _ => id⟩
  | false =>
    rcases hf with hne | h0
    · obtain ⟨g, hg, hfg, hbits⟩ := foldlM_insertStep hne vKey (List.range f.nHashFuncs.toNat)
      refine ⟨g, by simpa using hg, hfg.usable (Or.inl hne), ?_,
        fun x => hfg.contains_of_not_full hfull⟩
      unfold contains
      split_ifs
      · rfl
      · rw [hfg.funcs]
        exact containsAll_of_forall hbits
    · exact ⟨f, by simp [h0], Or.inr h0, by simp [contains, h0, containsAll], fun _ => id⟩

lemma contains_ok (hf : f.Usable) (vKey : Bytes) : ∃ b, f.contains vKey = some b := by
  unfold contains
  split_ifs
  · exact ⟨true, rfl⟩
  · rcases hf with hne | h0
    · generalize List.range f.nHashFuncs.toNat = l
      induction l with
      | nil => exact ⟨true, rfl⟩
      | cons i l ih =>
        obtain ⟨nIndex, hlt, hhash⟩ := hash_lt hne i vKey
        obtain ⟨b, hb⟩ := ByteBits.testBit_isSome hlt
        cases b with
        | false => exact ⟨false, by simp [containsAll, hhash, hb]⟩
        | true => simpa [containsAll, hhash, hb] using ih
    · exact ⟨true, by simp [h0, containsAll]⟩

lemma insert_empty (hnil : f.vData = []) (h0 : f.nHashFuncs ≠ 0) (vKey : Bytes) :
    f.insert vKey = none := by
  have hpos : f.nHashFuncs.toNat ≠ 0 := fun h => h0 (UInt32.toNat_inj.mp h)
  obtain ⟨n, hn⟩ := Nat.exists_eq_succ_of_ne_zero hpos
  simp [insert, isFull, hnil, hn, List.range_succ_eq_map, List.foldlM_cons, insertStep, hash]

end CBloomFilter

section Serve

variable {f : CBloomFilter} {p : Peer}

lemma matchAll_ok (hf : f.Usable) (hashes : List Bytes) :
    ∃ out, matchAll f hashes = some (f, out) := by
  induction hashes with
  | nil => exact ⟨[], rfl⟩
  | cons hash l ih =>
    obtain ⟨out, hout⟩ := ih
    obtain ⟨b, hb⟩ := CBloomFilter.contains_ok hf hash
    exact ⟨b :: out, by simp [matchAll, CBloomFilter.isRelevantAndUpdate, hb, hout]⟩

lemma matchBlock_ok (hf : f.Usable) (vtx : List Bytes) :
    ∃ out, matchBlock f vtx = some (f, out) := by
  cases vtx with
  | nil => exact ⟨[], rfl⟩
  | cons hash l =>
    obtain ⟨out, hout⟩ := matchAll_ok hf l
    exact ⟨true :: out, by simp [matchBlock, hout]⟩

lemma serve_ok (hp : p.pfilter = some f) (hf : f.Usable) (op : FilterOp) :
    ∃ p' out g, serve p op = some (p', out) ∧ p'.pfilter = some g ∧ g.Usable ∧
      (∀ x, f.contains x = some true → g.contains x = some true) ∧
      ∀ x ∈ added [op], g.contains x = some true := by
  cases op with
  | filteradd vData =>
    by_cases hsize : maxScriptElementSize < vData.length
    · exact ⟨p.misbehaving 100, [], f, by simp [serve, hsize], hp, hf, fun _ => id,
        by simp [added, hsize]⟩
    · obtain ⟨g, hg, hu, hself, hmono⟩ := CBloomFilter.insert_ok hf vData
      exact ⟨{ p with pfilter := some g }, [], g, by simp [serve, hsize, hp, hg], rfl, hu, hmono,
        by simp [added, hsize, hself]⟩
  | mempool vtxid =>
    obtain ⟨out, hout⟩ := matchAll_ok hf vtxid
    exact ⟨{ p with pfilter := some f }, out, f, by simp [serve, Peer.matches, hp, hout], rfl, hf,
      fun _ => id, by simp [added]⟩
  | getdata vtx =>
    obtain ⟨out, hout⟩ := matchBlock_ok hf vtx
    exact ⟨{ p with pfilter := some f }, out, f, by simp [serve, Peer.matches, hp, hout], rfl, hf,
      fun _ => id, by simp [added]⟩
  | relay txhash =>
    cases hrel : p.fRelayTxes with
    | false =>
      exact ⟨p, [], f, by simp [serve, hrel], hp, hf, fun _ => id, by simp [added]⟩
    | true =>
      obtain ⟨out, hout⟩ := matchAll_ok hf [txhash]
      exact ⟨{ p with pfilter := some f }, out, f, by simp [serve, hrel, Peer.matches, hp, hout], rfl,
        hf, fun _ => id, by simp [added]⟩

lemma added_cons (op : FilterOp) (l : List FilterOp) : added (op :: l) = added [op] ++ added l := by
  cases op with
  | filteradd vData => by_cases h : maxScriptElementSize < vData.length <;> simp [added, h]
  | _ => rfl

lemma serveAll_ok (hp : p.pfilter = some f) (hf : f.Usable) (ops : List FilterOp) :
    ∃ p' g, serveAll p ops = some p' ∧ p'.pfilter = some g ∧
      (∀ x, f.contains x = some true → g.contains x = some true) ∧
      ∀ x ∈ added ops, g.contains x = some true := by
  induction ops generalizing p f with
  | nil => exact ⟨p, f, rfl, hp, fun _ => id, by simp [added]⟩
  | cons op l ih =>
    obtain ⟨p₁, out, f₁, hserve, hp₁, hf₁, hkeep, hadd⟩ := serve_ok hp hf op
    obtain ⟨p', g, hall, hp', hkeep', hadd'⟩ := ih hp₁ hf₁
    refine ⟨p', g, by simp [serveAll, hserve, hall], hp', fun x hx => hkeep' x (hkeep x hx), ?_⟩
    intro x hx
    rw [added_cons, List.mem_append] at hx
    exact hx.elim (fun h => hkeep' x (hadd x h)) (hadd' x)

/-- **Loaded filters.** Every sequence of requests is served without a division by zero or an
access outside the data, and the filter contains all that was added to it, exactly if the
loaded filter has data or no hash functions. -/
theorem filterload_safe_iff (hsize : f.isWithinSizeConstraints = true) :
    (∀ ops, ∃ p' g, serveAll (filterload p f) ops = some p' ∧ p'.pfilter = some g ∧
        ∀ x ∈ added ops, g.contains x = some true) ↔ f.Usable := by
  have hp : (filterload p f).pfilter = some f := by simp [filterload, hsize]
  constructor
  · intro h
    by_contra hno
    simp only [CBloomFilter.Usable, not_or, not_not] at hno
    obtain ⟨p', g, hserve, -⟩ := h [.filteradd []]
    simp [serveAll, serve, hp, CBloomFilter.insert_empty hno.1 hno.2, maxScriptElementSize]
      at hserve
  · intro hf ops
    obtain ⟨p', g, hall, hp', -, hadd⟩ := serveAll_ok hp hf ops
    exact ⟨p', g, hall, hp', hadd⟩

end Serve

namespace Toy

def peer : Peer := ⟨none, false, 0⟩

def smallFilter : CBloomFilter := ⟨[0, 0], 3, 5, 0⟩

def emptyFilter : CBloomFilter := ⟨[], 1, 0, 0⟩

end Toy

open Toy in
/-- A filter that a key is added to. -/
theorem filterload_small : smallFilter.isWithinSizeConstraints = true ∧
    ∃ p' g, serveAll (filterload peer smallFilter) [.filteradd alice] = some p' ∧
      p'.pfilter = some g ∧ g.contains alice = some true := by
  have hsize : smallFilter.isWithinSizeConstraints = true := by decide
  obtain ⟨p', g, h, hp, hall⟩ :=
    (filterload_safe_iff (p := peer) hsize).mpr (Or.inl (by decide)) [.filteradd alice]
  exact ⟨hsize, p', g, h, hp, hall alice (by decide)⟩

open Toy in
/-- A filter without data passes the size check and brings the node down. -/
theorem filterload_empty : emptyFilter.isWithinSizeConstraints = true ∧
    serveAll (filterload peer emptyFilter) [.filteradd alice] = none := by
  decide

end FreechCore
