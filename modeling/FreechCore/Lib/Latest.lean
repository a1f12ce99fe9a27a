import Mathlib.Data.List.MinMax
import Mathlib.Data.List.Perm.Basic

/-!
A cell that keeps a value until one with a greater number comes, where the number of the new value
is cut before it is compared. Whether the greatest number is kept in the end, whatever the order in
which the values come, is decided by the greatest value alone.
-/

namespace FreechCore.Latest

open List

variable {α β : Type*} [LinearOrder β] (f : α → β) (c : β → β)

def step : Option α → α → Option α
  | none, y => some y
  | some x, y => if f x < c (f y) then some y else some x

/-- A value that is taken in place of what the cell holds. -/
def Fresh (s : Option α) (y : α) : Prop := ∀ x ∈ s, f x < c (f y)

variable {f c} {s : Option α} {l : List α}

lemma step_of_fresh {y : α} (h : Fresh f c s y) : step f c s y = some y := by
  cases s with
  | none => rfl
  | some x => exact if_pos (h x rfl)

lemma step_of_not_fresh {y : α} (h : ¬ Fresh f c s y) : step f c s y = s := by
  cases s with
  | none => exact absurd (fun x hx => by cases hx) h
  | some x => exact if_neg fun hlt => h (by rintro _ ⟨⟩; exact hlt)

lemma step_isSome (y : α) : (step f c s y).isSome := by
  by_cases hy : Fresh f c s y
  · rw [step_of_fresh hy, Option.isSome_some]
  · rw [step_of_not_fresh hy]
    cases s with
    | none => exact absurd (fun x hx => by cases hx) hy
    | some x => rfl

lemma foldl_isSome (h : s.isSome) : (l.foldl (step f c) s).isSome := by
  induction l generalizing s with
  | nil => exact h
  | cons y l ih => exact ih (step_isSome y)

lemma foldl_isSome_of_mem {y : α} (h : y ∈ l) : (l.foldl (step f c) s).isSome := by
  cases l with
  | nil => cases h
  | cons z l =>
    rw [foldl_cons]
    exact foldl_isSome (step_isSome z)

section

variable (hl : ∀ y ∈ l, c (f y) ≤ f y)

include hl

lemma foldl_cases :
    l.foldl (step f c) s = s ∨ ∃ z ∈ l, l.foldl (step f c) s = some z ∧ Fresh f c s z := by
  induction l generalizing s with
  | nil => exact Or.inl rfl
  | cons y l ih =>
    have ih' := ih (fun z hz => hl z (mem_cons_of_mem _ hz)) (s := step f c s y)
    rw [foldl_cons]
    by_cases hy : Fresh f c s y
    · rw [step_of_fresh hy] at ih' ⊢
      rcases ih' with h | ⟨z, hz, h, hfresh⟩
      · exact Or.inr ⟨y, mem_cons_self, h, hy⟩
      · refine Or.inr ⟨z, mem_cons_of_mem _ hz, h, fun x hx => ?_⟩
        exact (hy x hx).trans_le ((hl y mem_cons_self).trans (hfresh y rfl).le)
    · rw [step_of_not_fresh hy] at ih' ⊢
      rcases ih' with h | ⟨z, hz, h, hfresh⟩
      · exact Or.inl h
      · exact Or.inr ⟨z, mem_cons_of_mem _ hz, h, hfresh⟩

lemma le_foldl {x z : α} (hx : x ∈ s) (hz : z ∈ l.foldl (step f c) s) : f x ≤ f z := by
  rcases foldl_cases (s := s) hl with h | ⟨z', hz', h, hfresh⟩
  · rw [h] at hz
    rw [Option.mem_unique hx hz]
  · rw [h] at hz
    obtain rfl := Option.mem_some_iff.mp hz
    exact (hfresh x hx).le.trans (hl _ hz')

/-- If the cell ends up with the greatest number, and started below it, then a value with that
number is taken in place of what the cell started with. -/
lemma fresh_of_le_foldl {m : α} (hm : m ∈ l) (hmax : ∀ y ∈ l, f y ≤ f m) (hs : ∀ x ∈ s, f x < f m)
    (h : ∀ z ∈ l.foldl (step f c) s, f m ≤ f z) : Fresh f c s m := by
  obtain ⟨z, hz⟩ := Option.isSome_iff_exists.mp (foldl_isSome_of_mem (f := f) (c := c) (s := s) hm)
  rcases foldl_cases (s := s) hl with h' | ⟨z', hz', h', hfresh⟩
  · exact absurd (hs z (h' ▸ hz)) (not_lt.mpr (h z hz))
  · have heq : f z' = f m := le_antisymm (hmax z' hz') (h z' h')
    intro x hx
    rw [← heq]
    exact hfresh x hx

/-- The greatest number is kept if its value is taken in place of every smaller one that can be
there before it. -/
lemma le_foldl_of_beats {m : α} (hm : m ∈ l)
    (hfresh : Fresh f c s m) (hbeats : ∀ y ∈ l, Fresh f c s y → f y < f m → f y < c (f m)) :
    ∀ z ∈ l.foldl (step f c) s, f m ≤ f z := by
  intro z hz
  obtain ⟨l₁, l₂, rfl⟩ := append_of_mem hm
  rw [foldl_append, foldl_cons] at hz
  have hl₁ : ∀ y ∈ l₁, c (f y) ≤ f y := fun y hy => hl y (by simp [hy])
  have hl₂ : ∀ y ∈ l₂, c (f y) ≤ f y := fun y hy => hl y (by simp [hy])
  by_cases hcur : Fresh f c (l₁.foldl (step f c) s) m
  · rw [step_of_fresh hcur] at hz
    exact le_foldl hl₂ rfl hz
  · -- what is in the cell when `m` comes is not smaller
    rw [step_of_not_fresh hcur] at hz
    unfold Fresh at hcur
    push Not at hcur
    obtain ⟨x, hx, hnot⟩ := hcur
    refine le_trans ?_ (le_foldl hl₂ hx hz)
    by_contra hlt
    rw [not_le] at hlt
    rcases foldl_cases (s := s) hl₁ with h | ⟨x', hx', h, hfresh'⟩
    · exact absurd (hfresh x (h ▸ hx)) (not_lt.mpr hnot)
    · rw [h] at hx
      obtain rfl := Option.mem_some_iff.mp hx
      exact absurd (hbeats x' (by simp [hx']) hfresh' hlt) (not_lt.mpr hnot)

/-- **The greatest number is kept in every order** if and only if its value is taken in place of
every smaller one that can be there before it. -/
theorem forall_perm_iff :
    (∀ l' : List α, l'.Perm l → ∀ z ∈ l'.foldl (step f c) s, ∀ y ∈ l, f y ≤ f z) ↔
      ∀ m ∈ l, (∀ y ∈ l, f y ≤ f m) → (∀ x ∈ s, f x < f m) →
        Fresh f c s m ∧ ∀ y ∈ l, Fresh f c s y → f y < f m → f y < c (f m) := by
  constructor
  · intro h m hm hmax hs
    refine ⟨fresh_of_le_foldl hl hm hmax hs fun z hz => h l (.refl l) z hz m hm,
      fun y hy hfresh hlt => ?_⟩
    classical
    -- in the order in which `y` comes first it is taken
    have hperm := (perm_cons_erase hy).symm
    have hrun := h _ hperm
    rw [foldl_cons, step_of_fresh hfresh] at hrun
    have hsub : ∀ z ∈ l.erase y, z ∈ l := fun z hz => mem_of_mem_erase hz
    have hm' : m ∈ l.erase y := (mem_erase_of_ne fun hmy => by simp [hmy] at hlt).mpr hm
    have hfresh' : Fresh f c (some y) m := fresh_of_le_foldl (fun z hz => hl z (hsub z hz)) hm'
      (fun z hz => hmax z (hsub z hz)) (by rintro _ ⟨⟩; exact hlt) fun z hz => hrun z hz m hm
    exact hfresh' y rfl
  · intro h l' hperm z hz y hy
    have hl' : ∀ y ∈ l', c (f y) ≤ f y := fun y hy => hl y (hperm.mem_iff.mp hy)
    cases hm : l.argmax f with
    | none =>
      rw [argmax_eq_none.mp hm] at hy
      cases hy
    | some m =>
      have hmem := argmax_mem hm
      have hmax : ∀ y ∈ l, f y ≤ f m := fun y hy => not_lt.mp (not_lt_of_mem_argmax hy hm)
      refine (hmax y hy).trans ?_
      by_cases hs : ∀ x ∈ s, f x < f m
      · obtain ⟨hfresh, hbeats⟩ := h m hmem hmax hs
        exact le_foldl_of_beats hl' (hperm.mem_iff.mpr hmem) hfresh
          (fun y hy => hbeats y (hperm.mem_iff.mp hy)) z hz
      · push Not at hs
        obtain ⟨x, hx, hle⟩ := hs
        exact hle.trans (le_foldl hl' hx hz)

lemma foldl_eq_of_eq {l₁ l₂ : List α} (h₁ : l₁.Perm l)
    (h₂ : l₂.Perm l) (hmax : ∀ z ∈ l₁.foldl (step f c) s, ∀ y ∈ l, f y ≤ f z)
    (hstay : l₁.foldl (step f c) s = s) : l₂.foldl (step f c) s = s := by
  have hl₂ : ∀ y ∈ l₂, c (f y) ≤ f y := fun y hy => hl y (h₂.mem_iff.mp hy)
  rcases foldl_cases (s := s) hl₂ with h | ⟨z, hz, h, hfresh⟩
  · exact h
  · have hz' : z ∈ l := h₂.mem_iff.mp hz
    obtain ⟨x, hx⟩ := Option.isSome_iff_exists.mp
      (foldl_isSome_of_mem (f := f) (c := c) (s := s) (h₁.mem_iff.mpr hz'))
    have hle := hmax x hx z hz'
    exact absurd (hfresh x (hstay ▸ hx)) (not_lt.mpr ((hl z hz').trans hle))

lemma foldl_unique {l₁ l₂ : List α} (hinj : ∀ y ∈ l, ∀ z ∈ l, f y = f z → y = z)
    (hmax : ∀ l' : List α, l'.Perm l → ∀ z ∈ l'.foldl (step f c) s, ∀ y ∈ l, f y ≤ f z)
    (h₁ : l₁.Perm l) (h₂ : l₂.Perm l) : l₁.foldl (step f c) s = l₂.foldl (step f c) s := by
  have hl₁ : ∀ y ∈ l₁, c (f y) ≤ f y := fun y hy => hl y (h₁.mem_iff.mp hy)
  have hl₂ : ∀ y ∈ l₂, c (f y) ≤ f y := fun y hy => hl y (h₂.mem_iff.mp hy)
  rcases foldl_cases (s := s) hl₁ with h | ⟨z, hz, h, -⟩
  · rw [h, foldl_eq_of_eq hl h₁ h₂ (hmax l₁ h₁) h]
  rcases foldl_cases (s := s) hl₂ with h' | ⟨z', hz', h', -⟩
  · rw [h', foldl_eq_of_eq hl h₂ h₁ (hmax l₂ h₂) h']
  have hz : z ∈ l := h₁.mem_iff.mp hz
  have hz' : z' ∈ l := h₂.mem_iff.mp hz'
  rw [h, h', hinj z hz z' hz' (le_antisymm (hmax l₂ h₂ z' h' z hz) (hmax l₁ h₁ z h z' hz'))]

end

end FreechCore.Latest
