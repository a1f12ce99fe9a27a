import Mathlib.Data.List.Sublists

/-!
A stack that does not take a value that is on its top already. What is on the stack after a
sequence of values is the sequence without its repetitions in a row, so a value is there twice
exactly if it came back after another one.
-/

namespace FreechCore.Stutter

open List

variable {α : Type*} [DecidableEq α]

/-- Put a value on the stack, unless it is on top. -/
def push (l : List α) (a : α) : List α := if l.head? = some a then l else a :: l

def pushAll (as : List α) : List α := as.foldl push []

@[simp] lemma pushAll_nil : pushAll ([] : List α) = [] := rfl

@[simp] lemma pushAll_append_singleton (as : List α) (a : α) :
    pushAll (as ++ [a]) = push (pushAll as) a := by
  simp [pushAll, foldl_append]

lemma mem_push {l : List α} {a b : α} : b ∈ push l a ↔ b = a ∨ b ∈ l := by
  unfold push
  split_ifs with h
  · have ha : a ∈ l := mem_of_head? h
    constructor
    · exact Or.inr
    · rintro (rfl | hb)
      · exact ha
      · exact hb
  · exact mem_cons

lemma mem_pushAll {as : List α} {b : α} : b ∈ pushAll as ↔ b ∈ as := by
  induction as using List.reverseRecOn with
  | nil => rfl
  | append_singleton as a ih => simp [mem_push, ih, or_comm]

lemma head?_push (l : List α) (a : α) : (push l a).head? = some a := by
  unfold push
  split_ifs with h
  · exact h
  · rfl

lemma head?_pushAll (as : List α) : (pushAll as).head? = as.getLast? := by
  induction as using List.reverseRecOn with
  | nil => rfl
  | append_singleton as a ih => simp [head?_push]

/-- No value comes back after another one. -/
def NoReturn (as : List α) : Prop := ∀ a b, [a, b, a].Sublist as → a = b

omit [DecidableEq α] in
lemma concat_sublist_concat {l as : List α} {c d : α} :
    (l ++ [c]).Sublist (as ++ [d]) ↔ (l ++ [c]).Sublist as ∨ c = d ∧ l.Sublist as := by
  have hrev : ∀ l' : List α, l'.Sublist as ↔ l'.reverse.Sublist as.reverse := fun l' =>
    reverse_sublist.symm
  rw [hrev, hrev, ← reverse_sublist]
  simp only [reverse_append, reverse_cons, reverse_nil, nil_append,
    cons_append]
  constructor
  · intro h
    cases h with
    | cons _ h => exact Or.inl h
    | cons_cons _ h => exact Or.inr ⟨rfl, h⟩
  · rintro (h | ⟨rfl, h⟩)
    · exact h.cons _
    · exact h.cons_cons _

omit [DecidableEq α] in
lemma noReturn_concat {as : List α} {a : α} :
    NoReturn (as ++ [a]) ↔ NoReturn as ∧ ∀ b, [a, b].Sublist as → a = b := by
  have hsub : ∀ b c d : α, [b, c, d].Sublist (as ++ [a]) ↔
      [b, c, d].Sublist as ∨ d = a ∧ [b, c].Sublist as :=
    fun b c d => concat_sublist_concat (l := [b, c])
  constructor
  · intro h
    refine ⟨fun b c hbc => h b c ((hsub b c b).mpr (Or.inl hbc)), fun b hb => ?_⟩
    exact h a b ((hsub a b a).mpr (Or.inr ⟨rfl, hb⟩))
  · rintro ⟨h, ha⟩ b c hbc
    rcases (hsub b c b).mp hbc with hbc | ⟨rfl, hpair⟩
    · exact h b c hbc
    · exact ha c hpair

/-- **A value is on the stack twice exactly if it came back after another one.** -/
theorem nodup_pushAll_iff (as : List α) : (pushAll as).Nodup ↔ NoReturn as := by
  induction as using List.reverseRecOn with
  | nil => simp [NoReturn]
  | append_singleton as a ih =>
    rw [pushAll_append_singleton, noReturn_concat, ← ih]
    unfold push
    rw [head?_pushAll]
    split_ifs with hlast
    · refine ⟨fun hn => ⟨hn, fun b hb => ?_⟩, And.left⟩
      -- what stands between `a` and the end, which is `a` again, is `a`
      obtain ⟨init, rfl⟩ := List.getLast?_eq_some_iff.mp hlast
      rcases (concat_sublist_concat (l := [a])).mp hb with hb | ⟨rfl, -⟩
      · exact ih.mp hn a b (hb.append (List.Sublist.refl [a]))
      · rfl
    · rw [nodup_cons, mem_pushAll]
      constructor
      · rintro ⟨ha, hn⟩
        exact ⟨hn, fun b hb => absurd (hb.subset (by simp)) ha⟩
      · rintro ⟨hn, hpair⟩
        refine ⟨fun ha => ?_, hn⟩
        -- the last value is another one, and comes after `a`
        obtain ⟨b, hb⟩ : ∃ b, as.getLast? = some b :=
          ⟨_, List.getLast?_eq_some_getLast (ne_nil_of_mem ha)⟩
        obtain ⟨init, rfl⟩ := List.getLast?_eq_some_iff.mp hb
        have hne : a ≠ b := by
          rintro rfl
          exact hlast hb
        have hinit : a ∈ init := by
          rcases mem_append.mp ha with h | h
          · exact h
          · exact absurd (mem_singleton.mp h) hne
        exact hne (hpair b ((singleton_sublist.mpr hinit).append (List.Sublist.refl [b])))

/-! ### Stacks kept apart by a label -/

/-- The values under a label. -/
def under {β : Type*} (l : List (α × β)) (a : α) : List β := (l.filter (·.1 = a)).map Prod.snd

lemma nodup_iff_forall_under {β : Type*} {l : List (α × β)} : l.Nodup ↔ ∀ a, (under l a).Nodup := by
  induction l with
  | nil => simp [under]
  | cons x l ih =>
    obtain ⟨a, b⟩ := x
    have hmem : (a, b) ∈ l ↔ b ∈ under l a := by simp [under]
    have hself : under ((a, b) :: l) a = b :: under l a := by simp [under]
    have hother : ∀ a', a ≠ a' → under ((a, b) :: l) a' = under l a' := by
      intro a' ha
      simp [under, ha]
    rw [nodup_cons, ih, hmem]
    constructor
    · rintro ⟨hb, h⟩ a'
      by_cases ha : a = a'
      · rw [← ha, hself]
        exact nodup_cons.mpr ⟨hb, h a⟩
      · rw [hother a' ha]
        exact h a'
    · intro h
      have ha := h a
      rw [hself, nodup_cons] at ha
      refine ⟨ha.1, fun a' => ?_⟩
      by_cases haa : a = a'
      · rw [← haa]
        exact ha.2
      · rw [← hother a' haa]
        exact h a'

lemma noReturn_under_iff {β : Type*} {l : List (α × β)} :
    (∀ a, NoReturn (under l a)) ↔ ∀ a b b', [(a, b), (a, b'), (a, b)].Sublist l → b = b' := by
  unfold NoReturn under
  refine forall_congr' fun a => forall₂_congr fun b b' => imp_congr_left ?_
  constructor
  · intro h
    obtain ⟨l', hl', heq⟩ := sublist_map_iff.mp h
    have hlabel : l' = (l'.map Prod.snd).map (Prod.mk a) := by
      rw [map_map]
      nth_rewrite 1 [← map_id l']
      refine map_congr_left fun x hx => ?_
      have ha : x.1 = a := by simpa using (mem_filter.mp (hl'.subset hx)).2
      simp [← ha]
    rw [hlabel, ← heq] at hl'
    exact hl'.trans filter_sublist
  · intro h
    simpa using (h.filter (fun x => decide (x.1 = a))).map Prod.snd

end FreechCore.Stutter
