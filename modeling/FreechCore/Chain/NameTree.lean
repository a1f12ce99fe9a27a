import Mathlib.Data.Finset.Card
import FreechCore.Core.Validation
import FreechCore.Lib.StdMap

/-!
Completing names. The beginnings of all names are kept as keys of a table, each with the
characters that may follow; a dot marks the end of a name. Names are collected depth first, until
there are enough of them.
-/

namespace FreechCore

open List

/-- The characters that follow the beginnings of names. -/
abbrev PartialNameTree := StdMap Bytes Bytes

/-- The mark for the end of a name. -/
def endOfName : UInt8 := 46

def addCharToPartialNameTree (t : PartialNameTree) (partialName : Bytes) (ch : UInt8) :
    PartialNameTree :=
  match t.find? partialName with
  | some nextChars => if ch ∈ nextChars then t else t.insert partialName (nextChars ++ [ch])
  | none => t.insert partialName [ch]

/-- The answer `none` stands for an exception: the empty name has no first character. -/
def addNameToPartialNameTree (t : PartialNameTree) (name : Bytes) : Option PartialNameTree :=
  if name = [] then none
  else
    let t := (List.range (name.length - 1)).foldl (fun t i =>
      addCharToPartialNameTree t (name.take (i + 1)) (name.getD (i + 1) 0)) t
    some (addCharToPartialNameTree t name endOfName)

def addNames : PartialNameTree → List Bytes → Option PartialNameTree
  | t, [] => some t
  | t, name :: l => (addNameToPartialNameTree t name).bind (addNames · l)

/-- Collect names, `fuel` levels deep; the answer `none` means that the levels ran out. -/
def getNamesFromPartial (t : PartialNameTree) (count : ℕ) :
    ℕ → Bytes → Finset Bytes → Option (Finset Bytes)
  | 0, _, _ => none
  | fuel + 1, partialName, names =>
    ((t.find? partialName).getD []).foldlM (fun names ch =>
      if names.card < count then
        if ch = endOfName then some (insert partialName names)
        else getNamesFromPartial t count fuel (partialName ++ [ch]) names
      else some names) names

/-! ### What the tree holds -/

variable {t : PartialNameTree} {name p : Bytes} {N : List Bytes} {count : ℕ}

section Holds

variable {p' : Bytes} {ch ch' : UInt8}

def nextChars (t : PartialNameTree) (p : Bytes) : Bytes := (t.find? p).getD []

lemma mem_nextChars_addChar : ch' ∈ nextChars (addCharToPartialNameTree t p ch) p' ↔
    ch' ∈ nextChars t p' ∨ (p' = p ∧ ch' = ch) := by
  unfold addCharToPartialNameTree nextChars
  cases hp : t.find? p with
  | none =>
    by_cases h : p' = p
    · simp [h, hp]
    · simp [h]
  | some l =>
    dsimp only
    by_cases hc : ch ∈ l
    · rw [if_pos hc]
      constructor
      · exact Or.inl
      · rintro (h | ⟨rfl, rfl⟩)
        · exact h
        · rwa [hp, Option.getD_some]
    · rw [if_neg hc, StdMap.find?_insert]
      by_cases h : p' = p
      · simp [h, hp]
      · simp [h]

/-- The tree holds the names of a list: a character follows a beginning if it does so in a name,
and the mark follows the names. -/
def NamesHeld (t : PartialNameTree) (N : List Bytes) : Prop :=
  ∀ p ch, ch ∈ nextChars t p ↔
    p ≠ [] ∧ ((ch = endOfName ∧ p ∈ N) ∨ ∃ n ∈ N, p ++ [ch] <+: n)

lemma exists_take_iff : (∃ i < name.length - 1, p = name.take (i + 1) ∧ ch = name.getD (i + 1) 0) ↔
    p ≠ [] ∧ p ++ [ch] <+: name := by
  constructor
  · rintro ⟨i, hi, rfl, rfl⟩
    have hlt : i + 1 < name.length := by omega
    refine ⟨by simp; rintro rfl; simp at hlt, ?_⟩
    rw [getD_eq_getElem?_getD, List.getElem?_eq_getElem hlt, Option.getD_some,
      take_append_getElem hlt]
    exact List.take_prefix _ _
  · rintro ⟨hne, r, rfl⟩
    have hpos := length_pos_iff.mpr hne
    refine ⟨p.length - 1, by simp; omega, ?_, ?_⟩
    · rw [Nat.sub_add_cancel hpos]
      simp
    · rw [Nat.sub_add_cancel hpos]
      simp [List.getD]

lemma NamesHeld.add (h : NamesHeld t N) (hne : name ≠ []) :
    ∃ t', addNameToPartialNameTree t name = some t' ∧ NamesHeld t' (N ++ [name]) := by
  have hfold : ∀ (l : List ℕ) (t : PartialNameTree) (p : Bytes) (ch : UInt8),
      ch ∈ nextChars (l.foldl (fun t i =>
        addCharToPartialNameTree t (name.take (i + 1)) (name.getD (i + 1) 0)) t) p ↔
      ch ∈ nextChars t p ∨ ∃ i ∈ l, p = name.take (i + 1) ∧ ch = name.getD (i + 1) 0 := by
    intro l
    induction l with
    | nil => simp
    | cons i l ih =>
      intro t p ch
      rw [foldl_cons, ih, mem_nextChars_addChar]
      simp only [mem_cons, exists_eq_or_imp, or_assoc]
  refine ⟨_, if_neg hne, fun p ch => ?_⟩
  rw [mem_nextChars_addChar, hfold, h p ch]
  simp only [mem_range, exists_take_iff]
  constructor
  · rintro ((⟨hp, hN⟩ | ⟨hp, hpre⟩) | ⟨rfl, rfl⟩)
    · refine ⟨hp, hN.imp (fun h => ⟨h.1, mem_append_left _ h.2⟩) fun ⟨n, hn, h⟩ => ?_⟩
      exact ⟨n, mem_append_left _ hn, h⟩
    · exact ⟨hp, Or.inr ⟨name, by simp, hpre⟩⟩
    · exact ⟨hne, Or.inl ⟨rfl, by simp⟩⟩
  · rintro ⟨hp, ⟨rfl, hN⟩ | ⟨n, hn, hpre⟩⟩
    · rcases mem_append.mp hN with hN | hN
      · exact Or.inl (Or.inl ⟨hp, Or.inl ⟨rfl, hN⟩⟩)
      · exact Or.inr ⟨mem_singleton.mp hN, rfl⟩
    · rcases mem_append.mp hn with hn | hn
      · exact Or.inl (Or.inl ⟨hp, Or.inr ⟨n, hn, hpre⟩⟩)
      · exact Or.inl (Or.inr ⟨hp, mem_singleton.mp hn ▸ hpre⟩)

lemma NamesHeld.addAll {l : List Bytes} (h : NamesHeld t N) (hne : ∀ n ∈ l, n ≠ []) :
    ∃ t', addNames t l = some t' ∧ NamesHeld t' (N ++ l) := by
  induction l generalizing t N with
  | nil => exact ⟨t, rfl, by rwa [append_nil]⟩
  | cons name l ih =>
    obtain ⟨t₁, h₁, hN⟩ := h.add (hne name mem_cons_self)
    obtain ⟨t', h', hN'⟩ := ih hN fun n hn => hne n (mem_cons_of_mem _ hn)
    refine ⟨t', by rw [addNames, h₁, Option.bind_some, h'], ?_⟩
    rwa [append_assoc, singleton_append] at hN'

lemma namesHeld_empty : NamesHeld .empty [] := by
  intro p ch
  simp [nextChars]

end Holds

/-! ### Collecting up to a number of names -/

/-- From `names`, those that satisfy `S` were collected, at most up to `count` names in all; if
there is room left, then all were. -/
structure Gathered (count : ℕ) (S : Bytes → Prop) (names result : Finset Bytes) : Prop where
  subset : names ⊆ result
  sound : ∀ n ∈ result, n ∈ names ∨ S n
  card_le : result.card ≤ max count names.card
  complete : result.card < count → ∀ n, S n → n ∈ result

namespace Gathered

variable {S S' : Bytes → Prop} {names mid result : Finset Bytes}

lemma congr (h : Gathered count S names result) (hS : ∀ n, S n ↔ S' n) :
    Gathered count S' names result := by
  rwa [funext fun n => propext (hS n)] at h

lemma enough (h : count ≤ names.card) : Gathered count S names names :=
  ⟨subset_rfl, fun _ => Or.inl, le_max_right _ _, fun hlt => absurd hlt (by omega)⟩

lemma none : Gathered count (fun _ => False) names names :=
  ⟨subset_rfl, fun _ => Or.inl, le_max_right _ _, fun _ _ => False.elim⟩

lemma one (p : Bytes) (h : names.card < count) : Gathered count (· = p) names (insert p names) where
  subset := Finset.subset_insert _ _
  sound := fun n hn => (Finset.mem_insert.mp hn).symm
  card_le := by
    have := Finset.card_insert_le p names
    omega
  complete := by
    rintro - n rfl
    exact Finset.mem_insert_self _ _

lemma trans (h : Gathered count S names mid) (h' : Gathered count S' mid result) :
    Gathered count (fun n => S n ∨ S' n) names result where
  subset := h.subset.trans h'.subset
  sound := by
    intro n hn
    rcases h'.sound n hn with hm | hS
    · exact (h.sound n hm).imp_right Or.inl
    · exact Or.inr (Or.inr hS)
  card_le := by
    have h₁ := h.card_le
    have h₂ := h'.card_le
    omega
  complete := by
    rintro hlt n (hS | hS)
    · exact h'.subset (h.complete ((Finset.card_le_card h'.subset).trans_lt hlt) n hS)
    · exact h'.complete hlt n hS

lemma foldlM {α : Type*} {f : Finset Bytes → α → Option (Finset Bytes)} {S : α → Bytes → Prop}
    (l : List α) (hf : ∀ a ∈ l, ∀ names, ∃ r, f names a = some r ∧ Gathered count (S a) names r)
    (names : Finset Bytes) : ∃ r, l.foldlM f names = some r ∧
      Gathered count (fun n => ∃ a ∈ l, S a n) names r := by
  induction l generalizing names with
  | nil => exact ⟨names, rfl, none.congr (by simp)⟩
  | cons a l ih =>
    obtain ⟨mid, hm, hmid⟩ := hf a mem_cons_self names
    obtain ⟨r, hr, hres⟩ := ih (fun b hb => hf b (mem_cons_of_mem _ hb)) mid
    refine ⟨r, ?_, (hmid.trans hres).congr (by simp)⟩
    rw [foldlM_cons, hm]
    exact hr

lemma exact {M : Finset Bytes} (h : Gathered count (· ∈ M) ∅ result) :
    result ⊆ M ∧ (M.card ≤ count → result = M) ∧ (count < M.card → result.card = count) := by
  have hsub : result ⊆ M := fun n hn => (h.sound n hn).resolve_left (Finset.notMem_empty n)
  have hle : result.card ≤ count := by simpa using h.card_le
  refine ⟨hsub, fun hM => ?_, fun hM => ?_⟩
  · rcases hle.lt_or_eq with hlt | heq
    · exact hsub.antisymm (h.complete hlt)
    · exact Finset.eq_of_subset_of_card_le hsub (heq ▸ hM)
  · by_contra hne
    have := Finset.card_le_card (h.complete (lt_of_le_of_ne hle hne))
    omega

end Gathered

/-- The names that a character after `p` leads to. -/
def LeadsTo (N : List Bytes) (p : Bytes) (ch : UInt8) (n : Bytes) : Prop :=
  n ∈ N ∧ if ch = endOfName then n = p else p ++ [ch] <+: n

section

variable (h : NamesHeld t N) (hdot : ∀ n ∈ N, endOfName ∉ n)

include h hdot

lemma NamesHeld.exists_leadsTo (hp : p ≠ []) (n : Bytes) :
    (∃ ch ∈ nextChars t p, LeadsTo N p ch n) ↔ n ∈ N ∧ p <+: n := by
  constructor
  · rintro ⟨ch, -, hn, hch⟩
    refine ⟨hn, ?_⟩
    by_cases he : ch = endOfName
    · rw [if_pos he] at hch
      rw [hch]
    · rw [if_neg he] at hch
      exact (prefix_append p [ch]).trans hch
  · rintro ⟨hn, r, rfl⟩
    cases r with
    | nil =>
      rw [append_nil] at hn
      exact ⟨endOfName, (h p _).mpr ⟨hp, Or.inl ⟨rfl, hn⟩⟩, by simpa [LeadsTo] using hn⟩
    | cons ch r =>
      have hne : ch ≠ endOfName := by
        rintro rfl
        exact hdot _ hn (by simp)
      have hpre : p ++ [ch] <+: p ++ ch :: r := ⟨r, by simp⟩
      exact ⟨ch, (h p ch).mpr ⟨hp, Or.inr ⟨_, hn, hpre⟩⟩, hn, by rwa [if_neg hne]⟩

lemma NamesHeld.gathered_level {fuel : ℕ} (hp : p ≠ [])
    (hnext : ∀ ch ∈ nextChars t p, ch ≠ endOfName → ∀ names,
      ∃ r, getNamesFromPartial t count fuel (p ++ [ch]) names = some r ∧
        Gathered count (fun n => n ∈ N ∧ p ++ [ch] <+: n) names r) (names : Finset Bytes) :
    ∃ r, getNamesFromPartial t count (fuel + 1) p names = some r ∧
      Gathered count (fun n => n ∈ N ∧ p <+: n) names r := by
  have hstep : ∀ ch ∈ nextChars t p, ∀ names : Finset Bytes, ∃ r,
      (if names.card < count then
        if ch = endOfName then some (insert p names)
        else getNamesFromPartial t count fuel (p ++ [ch]) names
      else some names) = some r ∧ Gathered count (LeadsTo N p ch) names r := by
    intro ch hch names
    by_cases hlt : names.card < count
    · rw [if_pos hlt]
      by_cases he : ch = endOfName
      · -- a name without dots goes on with a dot only at its end
        have hpN : p ∈ N := by
          rcases ((h p ch).mp hch).2 with h' | ⟨n, hn, hpre⟩
          · exact h'.2
          · exact absurd (hpre.subset (by simp [he])) (hdot n hn)
        rw [if_pos he]
        refine ⟨_, rfl, (Gathered.one p hlt).congr fun n => ?_⟩
        simp only [LeadsTo, if_pos he]
        exact ⟨fun hn => ⟨hn ▸ hpN, hn⟩, fun hn => hn.2⟩
      · rw [if_neg he]
        obtain ⟨r, hr, hres⟩ := hnext ch hch he names
        exact ⟨r, hr, hres.congr fun n => by simp only [LeadsTo, if_neg he]⟩
    · rw [if_neg hlt]
      exact ⟨names, rfl, .enough (by omega)⟩
  obtain ⟨r, hr, hres⟩ := Gathered.foldlM _ hstep names
  exact ⟨r, hr, hres.congr (h.exists_leadsTo hdot hp)⟩

/-- The traversal, by induction on the levels: as many as the longest name has characters more
than the beginning are enough. -/
lemma NamesHeld.gathered (count fuel : ℕ) :
    ∀ (p : Bytes) (names : Finset Bytes), p ≠ [] → (∀ n ∈ N, n.length ≤ p.length + fuel) →
      ∃ r, getNamesFromPartial t count (fuel + 1) p names = some r ∧
        Gathered count (fun n => n ∈ N ∧ p <+: n) names r := by
  induction fuel with
  | zero =>
    intro p names hp hlen
    refine h.gathered_level hdot hp (fun ch hch he => ?_) names
    obtain ⟨h', -⟩ | ⟨n, hn, hpre⟩ := ((h p ch).mp hch).2
    · exact absurd h' he
    · have h₁ := hpre.length_le
      have h₂ := hlen n hn
      simp only [length_append, length_singleton] at h₁
      omega
  | succ fuel ih =>
    intro p names hp hlen
    refine h.gathered_level hdot hp (fun ch hch he names => ?_) names
    refine ih _ _ (by simp) fun n hn => ?_
    have := hlen n hn
    rw [length_append, length_singleton]
    omega

end

/-! ### Completion of user names -/

lemma checkUsername_ok (h : checkUsername name = .ok ()) :
    name ≠ [] ∧ name.length ≤ 16 ∧ endOfName ∉ name := by
  simp only [checkUsername, check_bind_eq_ok, ensure_eq_ok, checkAll_eq_ok] at h
  refine ⟨h.1.1, h.1.2, fun hmem => ?_⟩
  have := h.2 _ hmem
  revert this
  decide

lemma addNames_gathered (l : List Bytes) (hl : ∀ name ∈ l, checkUsername name = .ok ()) :
    ∃ t, addNames .empty l = some t ∧ NamesHeld t l ∧
      ∀ (count fuel : ℕ) (p : Bytes) (names : Finset Bytes), fuel > 16 →
        ∃ r, getNamesFromPartial t count fuel p names = some r ∧
          Gathered count (fun n => p ≠ [] ∧ n ∈ l ∧ p <+: n) names r := by
  obtain ⟨t, ht, hheld⟩ := namesHeld_empty.addAll (l := l)
    fun n hn => (checkUsername_ok (hl n hn)).1
  rw [nil_append] at hheld
  refine ⟨t, ht, hheld, fun count fuel p names hfuel => ?_⟩
  obtain ⟨fuel, rfl⟩ : ∃ k, fuel = k + 1 := ⟨fuel - 1, by omega⟩
  by_cases hp : p = []
  · have hnone : nextChars t p = [] := eq_nil_iff_forall_not_mem.mpr fun ch hch =>
      ((hheld p ch).mp hch).1 hp
    refine ⟨names, ?_, Gathered.none.congr (by simp [hp])⟩
    rw [getNamesFromPartial, ← nextChars, hnone]
    rfl
  · obtain ⟨r, hr, hres⟩ := hheld.gathered (fun n hn => (checkUsername_ok (hl n hn)).2.2) count
      fuel p names hp fun n hn => by
        have := (checkUsername_ok (hl n hn)).2.1
        omega
    exact ⟨r, hr, hres.congr (by simp [hp])⟩

/-- **Completion is exact.** Whatever user names were added, and for every beginning and every
number, the traversal ends, with names that were added and begin so: all of them if there are no
more than asked for, and otherwise as many as were asked for. -/
theorem getNamesFromPartial_exact (l : List Bytes) (hl : ∀ name ∈ l, checkUsername name = .ok ())
    (p : Bytes) (hp : p ≠ []) (count : ℕ) :
    ∃ t, addNames .empty l = some t ∧ ∀ fuel > 16, ∃ names,
      getNamesFromPartial t count fuel p ∅ = some names ∧
        (∀ n ∈ names, n ∈ l ∧ p <+: n) ∧
        ((l.toFinset.filter (p <+: ·)).card ≤ count → names = l.toFinset.filter (p <+: ·)) ∧
        (count < (l.toFinset.filter (p <+: ·)).card → names.card = count) := by
  obtain ⟨t, ht, -, hgathered⟩ := addNames_gathered l hl
  refine ⟨t, ht, fun fuel hfuel => ?_⟩
  obtain ⟨names, hn, hres⟩ := hgathered count fuel p ∅ hfuel
  have hfilter : Gathered count (· ∈ l.toFinset.filter (p <+: ·)) ∅ names :=
    hres.congr fun n => by simp [hp]
  obtain ⟨hsub, hexact⟩ := hfilter.exact
  exact ⟨names, hn, fun n hmem => by simpa using hsub hmem, hexact⟩

/-- Of three names two begin with `a`; asked for one, the answer has one of them. -/
theorem getNamesFromPartial_three :
    ∃ t, addNames .empty [[97], [97, 98], [98, 97]] = some t ∧ ∀ fuel > 16, ∃ names,
      getNamesFromPartial t 1 fuel [97] ∅ = some names ∧ names.card = 1 := by
  obtain ⟨t, ht, h⟩ := getNamesFromPartial_exact [[97], [97, 98], [98, 97]] (by decide) [97]
    (by decide) 1
  refine ⟨t, ht, fun fuel hfuel => ?_⟩
  obtain ⟨names, hn, -, -, hcard⟩ := h fuel hfuel
  exact ⟨names, hn, hcard (by decide)⟩

end FreechCore
