import Mathlib.Data.Finset.Card
import FreechCore.Core.Utf8
import FreechCore.Lib.StdMap

/-!
Trending hashtags. The table of votes is turned round into a map from votes to hashtags and read
from its end, so of several hashtags with the same votes only one is left. This shows as soon as the
answer reaches one of those that are lost.
-/

namespace FreechCore

open StdMap List

variable {ν : Type*} [LinearOrder ν]

def sortedHashtags (seenHashtags : StdMap Bytes ν) : StdMap ν Bytes :=
  seenHashtags.entries.foldl (fun m item => m.insert item.2 item.1) .empty

def gettrendinghashtags (seenHashtags : StdMap Bytes ν) (count : ℕ) : List Bytes :=
  ((sortedHashtags seenHashtags).entries.reverse.take count).map Prod.snd

/-- As many hashtags of the table as asked for, those with the most votes first. -/
structure Trending (seenHashtags : StdMap Bytes ν) (count : ℕ) (ret : List Bytes) : Prop where
  length : ret.length = min count seenHashtags.size
  nodup : ret.Nodup
  mem : ∀ a ∈ ret, seenHashtags.contains a = true
  order : ret.Pairwise fun a b => ∀ v w, seenHashtags.find? a = some v →
    seenHashtags.find? b = some w → w ≤ v
  top : ∀ a ∈ ret, ∀ b ∉ ret, ∀ v w, seenHashtags.find? a = some v →
    seenHashtags.find? b = some w → w ≤ v

section Sorted

variable {t : StdMap Bytes ν} {a b : Bytes} {v : ν}

lemma foldl_swap {l : List (Bytes × ν)} {m : StdMap ν Bytes} (v : ν) :
    (∃ a, (a, v) ∈ l ∧ (l.foldl (fun m item => m.insert item.2 item.1) m).find? v = some a) ∨
      (∀ a, (a, v) ∉ l) ∧
        (l.foldl (fun m item => m.insert item.2 item.1) m).find? v = m.find? v := by
  induction l generalizing m with
  | nil => exact Or.inr ⟨by simp, rfl⟩
  | cons x l ih =>
    rcases ih (m := m.insert x.2 x.1) with ⟨a, ha, hfind⟩ | ⟨hno, hfind⟩
    · exact Or.inl ⟨a, mem_cons_of_mem _ ha, hfind⟩
    · rw [find?_insert] at hfind
      split_ifs at hfind with hv
      · exact Or.inl ⟨x.1, by simp [hv], hfind⟩
      · refine Or.inr ⟨fun a ha => ?_, hfind⟩
        rcases mem_cons.mp ha with rfl | ha
        · exact hv rfl
        · exact hno a ha

/-- The map, read from its end. -/
abbrev ranked (t : StdMap Bytes ν) : List (ν × Bytes) := (sortedHashtags t).entries.reverse

lemma mem_ranked {c : Bytes} : (v, c) ∈ ranked t ↔ (sortedHashtags t).find? v = some c :=
  mem_reverse.trans mem_entries_iff

lemma find?_of_mem_ranked {e : ν × Bytes} (h : e ∈ ranked t) : t.find? e.2 = some e.1 := by
  have hfind : (sortedHashtags t).find? e.1 = some e.2 := mem_ranked.mp h
  rcases foldl_swap e.1 with ⟨a, ha, heq⟩ | ⟨-, heq⟩
  · rw [sortedHashtags, heq] at hfind
    cases hfind
    exact mem_entries_iff.mp ha
  · rw [sortedHashtags, heq] at hfind
    cases hfind

lemma exists_mem_ranked (h : t.find? a = some v) : ∃ b, (v, b) ∈ ranked t := by
  rcases foldl_swap v with ⟨b, -, heq⟩ | ⟨hno, -⟩
  · exact ⟨b, mem_ranked.mpr heq⟩
  · exact absurd (mem_entries_iff.mpr h) (hno a)

lemma find?_of_mem_take {e : ν × Bytes} {count : ℕ} (h : e ∈ (ranked t).take count) :
    t.find? e.2 = some e.1 :=
  find?_of_mem_ranked (mem_of_mem_take h)

lemma pairwise_ranked : (ranked t).Pairwise fun x y => y.1 < x.1 :=
  pairwise_reverse.mpr (sortedHashtags t).sorted

lemma gettrendinghashtags_order (count : ℕ) : (gettrendinghashtags t count).Pairwise
    fun a b => ∃ v w, t.find? a = some v ∧ t.find? b = some w ∧ w < v := by
  refine pairwise_map.mpr ((pairwise_ranked.sublist (take_sublist _ _)).imp_of_mem ?_)
  intro x y hx hy hlt
  exact ⟨x.1, y.1, find?_of_mem_take hx, find?_of_mem_take hy, hlt⟩

lemma gettrendinghashtags_nodup (count : ℕ) : (gettrendinghashtags t count).Nodup := by
  refine (gettrendinghashtags_order count).imp ?_
  rintro a b ⟨v, w, ha, hb, hlt⟩ rfl
  rw [ha, Option.some.injEq] at hb
  exact hlt.ne' hb

lemma gettrendinghashtags_subset (count : ℕ) : gettrendinghashtags t count ⊆ t.keys := by
  intro a ha
  obtain ⟨x, hx, rfl⟩ := mem_map.mp ha
  rw [mem_keys_iff, find?_of_mem_take hx]
  rfl

/-- The votes above `v`. -/
def votesAbove (t : StdMap Bytes ν) (v : ν) : Finset ν :=
  (t.entries.map Prod.snd).toFinset.filter (v < ·)

/-- Read from the end, the map has its entry for a vote behind one for each vote above it. -/
lemma split_ranked (h : t.find? a = some v) : ∃ above c below,
    ranked t = above ++ (v, c) :: below ∧ t.find? c = some v ∧
      above.length = (votesAbove t v).card ∧ (∀ x ∈ above, v < x.1) ∧ ∀ x ∈ below, x.1 < v := by
  obtain ⟨c, hc⟩ := exists_mem_ranked h
  obtain ⟨above, below, hsplit⟩ := append_of_mem hc
  have hpair := pairwise_ranked (t := t)
  rw [hsplit, pairwise_append, pairwise_cons] at hpair
  obtain ⟨habove, ⟨hbelow, -⟩, hless⟩ := hpair
  have hgreater : ∀ x ∈ above, v < x.1 := fun x hx => hless x hx _ mem_cons_self
  refine ⟨above, c, below, hsplit, find?_of_mem_ranked hc, ?_, hgreater, hbelow⟩
  have hset : votesAbove t v = (above.map Prod.fst).toFinset := by
    ext w
    simp only [votesAbove, Finset.mem_filter, List.mem_toFinset, mem_map, Prod.exists,
      exists_eq_right, exists_and_right]
    constructor
    · rintro ⟨⟨b, hb⟩, hw⟩
      obtain ⟨d, hd⟩ := exists_mem_ranked (mem_entries_iff.mp hb)
      rw [hsplit] at hd
      refine ⟨d, (mem_append.mp hd).resolve_right fun hin => ?_⟩
      rcases mem_cons.mp hin with heq | hin
      · exact hw.ne' (congrArg Prod.fst heq)
      · exact hw.not_gt (hbelow _ hin)
    · rintro ⟨d, hd⟩
      have hmem : (w, d) ∈ ranked t := hsplit ▸ mem_append_left _ hd
      exact ⟨⟨d, mem_entries_iff.mpr (find?_of_mem_ranked hmem)⟩, hgreater _ hd⟩
  rw [hset, List.toFinset_card_of_nodup, length_map]
  exact pairwise_map.mpr (habove.imp fun hlt => hlt.ne')

lemma not_mem_of_tie {c d : Bytes} (count : ℕ) (hc : (v, c) ∈ ranked t) (hne : d ≠ c)
    (hd : t.find? d = some v) : d ∉ gettrendinghashtags t count := by
  intro hin
  obtain ⟨x, hx, rfl⟩ := mem_map.mp hin
  cases (find?_of_mem_take hx).symm.trans hd
  exact hne (Option.some.inj ((mem_ranked.mp (mem_of_mem_take hx)).symm.trans (mem_ranked.mp hc)))

/-- What is left out has no more votes than the answer, which is then full, if the answer does not go
beyond a tie. -/
lemma le_of_left_out {count : ℕ} (hb : b ∉ gettrendinghashtags t count) (hv : t.find? b = some v)
    (htie : ∀ c, t.find? c = some v → c ≠ b → count ≤ 1 + (votesAbove t v).card) :
    count ≤ (ranked t).length ∧ ∀ x ∈ (ranked t).take count, v ≤ x.1 := by
  obtain ⟨above, c, below, hsplit, hc, hlen, hgreater, -⟩ := split_ranked hv
  have hcount : count ≤ above.length + 1 := by
    by_cases hcb : c = b
    · by_contra hlt
      obtain ⟨k, rfl⟩ : ∃ k, count = above.length + (k + 1) :=
        ⟨count - above.length - 1, by omega⟩
      refine hb (mem_map.mpr ⟨(v, c), ?_, hcb⟩)
      rw [← ranked, hsplit, take_length_add_append]
      simp
    · have := htie c hc hcb
      omega
  rw [hsplit, append_cons]
  refine ⟨by simp; omega, fun x hx => ?_⟩
  rw [take_append_of_le_length (by simpa using hcount)] at hx
  rcases mem_append.mp (mem_of_mem_take hx) with hx | hx
  · exact (hgreater x hx).le
  · rw [mem_singleton.mp hx]

end Sorted

/-- **Trending hashtags.** The answer is right exactly if it does not go beyond a tie: whatever vote
two hashtags share, at most one more is asked for than there are votes above it. -/
theorem trending_iff (t : StdMap Bytes ν) (count : ℕ) :
    Trending t count (gettrendinghashtags t count) ↔
      ∀ a b v, t.find? a = some v → t.find? b = some v → a ≠ b →
        count ≤ 1 + (votesAbove t v).card := by
  have hnodup := gettrendinghashtags_nodup (t := t) count
  have hsub := gettrendinghashtags_subset (t := t) count
  have hlength : (gettrendinghashtags t count).length = min count (ranked t).length := by
    rw [gettrendinghashtags, length_map, length_take]
  have hsize := length_keys t ▸ (subperm_of_subset hnodup hsub).length_le
  constructor
  · intro h a b v ha hb hne
    by_contra hlt
    obtain ⟨above, c, below, hsplit, hc, hlen, -, hless⟩ := split_ranked ha
    -- one of the two is left out
    obtain ⟨d, hd, hdv⟩ : ∃ d, d ≠ c ∧ t.find? d = some v := by
      by_cases hac : a = c
      · exact ⟨b, fun hbc => hne (hac.trans hbc.symm), hb⟩
      · exact ⟨a, hac, ha⟩
    have hout := not_mem_of_tie count (hsplit ▸ by simp) hd hdv
    cases below with
    | nil =>
      have hmore := (subperm_of_subset (nodup_cons.mpr ⟨hout, hnodup⟩)
        (cons_subset.mpr ⟨by simp [mem_keys_iff, hdv], hsub⟩)).length_le
      have hmin := h.length
      rw [length_cons, length_keys] at hmore
      rw [hsplit, length_append, length_singleton] at hlength
      omega
    | cons y below =>
      have hy : y ∈ (ranked t).take count := by
        obtain ⟨k, rfl⟩ : ∃ k, count = above.length + (k + 2) :=
          ⟨count - above.length - 2, by omega⟩
        rw [hsplit, take_length_add_append]
        simp
      exact absurd (h.top y.2 (mem_map_of_mem hy) d hout y.1 v (find?_of_mem_take hy) hdv)
        (not_le.mpr (hless y mem_cons_self))
  · intro htie
    have hleft := fun b w (hb : b ∉ gettrendinghashtags t count) (hw : t.find? b = some w) =>
      le_of_left_out hb hw fun c hc => htie c b w hc hw
    refine ⟨?_, hnodup, fun a ha => mem_keys_iff.mp (hsub ha), ?_, fun a ha b hb v w hv hw => ?_⟩
    · by_cases hall : t.keys ⊆ gettrendinghashtags t count
      · have := (subperm_of_subset t.nodup_keys hall).length_le
        rw [length_keys] at this
        omega
      · obtain ⟨b, hb, hno⟩ : ∃ b ∈ t.keys, b ∉ gettrendinghashtags t count := by
          simpa [List.subset_def] using hall
        obtain ⟨w, hw⟩ := Option.isSome_iff_exists.mp (mem_keys_iff.mp hb)
        have := (hleft b w hno hw).1
        omega
    · refine (gettrendinghashtags_order count).imp ?_
      rintro a b ⟨v, w, ha, hb, hlt⟩ v' w' ha' hb'
      cases ha.symm.trans ha'
      cases hb.symm.trans hb'
      exact hlt.le
    · obtain ⟨x, hx, rfl⟩ := mem_map.mp ha
      cases (find?_of_mem_take hx).symm.trans hv
      exact (hleft b w hb hw).2 x hx

def Toy.tiedVotes : StdMap Bytes ℕ := (StdMap.empty.insert (ascii "a") 1).insert (ascii "b") 1

open Toy in
/-- Of two hashtags with one vote each, only one is in the answer. -/
theorem not_trending_tie : gettrendinghashtags tiedVotes 2 = [ascii "b"] ∧
    ¬ Trending tiedVotes 2 (gettrendinghashtags tiedVotes 2) := by
  have h : gettrendinghashtags tiedVotes 2 = [ascii "b"] := by decide +kernel
  refine ⟨h, fun htrend => ?_⟩
  have hlen := htrend.length
  exact absurd hlen (by decide +kernel)

end FreechCore
