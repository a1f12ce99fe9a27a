import Mathlib.Data.List.Induction
import Mathlib.Data.Nat.Basic
import Mathlib.Data.Option.Basic

/-!
Loops that may run forever. A body either goes on with a new state or leaves with a
result; `doWhile` runs it for a number of rounds, and no answer means the rounds ran out.
-/

namespace FreechCore.Loop

open List

variable {σ ρ : Type*}
variable {s : σ} {r : ρ} {I : σ → Prop} {α : Type*}
variable {f : σ → α → σ}

/-- Run a loop body for at most `fuel` rounds. -/
def doWhile (body : σ → σ ⊕ ρ) : ℕ → σ → Option ρ
  | 0, _ => none
  | fuel + 1, s =>
    match body s with
    | .inl s' => doWhile body fuel s'
    | .inr r => some r

variable {body : σ → σ ⊕ ρ}

@[simp] lemma doWhile_zero (s : σ) : doWhile body 0 s = none := rfl

lemma doWhile_inl {s' : σ} (h : body s = .inl s') (fuel : ℕ) :
    doWhile body (fuel + 1) s = doWhile body fuel s' := by
  simp [doWhile, h]

lemma doWhile_inr (h : body s = .inr r) (fuel : ℕ) : doWhile body (fuel + 1) s = some r := by
  simp [doWhile, h]

lemma doWhile_mono {f g : ℕ} (hfg : f ≤ g) (h : doWhile body f s = some r) :
    doWhile body g s = some r := by
  induction f generalizing s g with
  | zero => simp at h
  | succ f ih =>
    obtain ⟨g, rfl⟩ : ∃ g', g = g' + 1 := ⟨g - 1, by omega⟩
    unfold doWhile at h ⊢
    split at h
    · exact ih (by omega) h
    · exact h

lemma doWhile_unique {r' : ρ} {f g : ℕ} (h : doWhile body f s = some r)
    (h' : doWhile body g s = some r') : r = r' := by
  have hr := doWhile_mono (Nat.le_max_left f g) h
  have hr' := doWhile_mono (Nat.le_max_right f g) h'
  exact Option.some.inj (hr.symm.trans hr')

/-- **Divergence**: from states in which every round goes on to such a state, the loop is never
left. -/
lemma doWhile_eq_none (hI : ∀ s, I s → ∃ s', body s = .inl s' ∧ I s') (fuel : ℕ) (hs : I s) :
    doWhile body fuel s = none := by
  induction fuel generalizing s with
  | zero => rfl
  | succ f ih =>
    obtain ⟨s', hb, hs'⟩ := hI s hs
    rw [doWhile_inl hb, ih hs']

lemma doWhile_stuck (h : body s = .inl s) (fuel : ℕ) : doWhile body fuel s = none := by
  refine doWhile_eq_none (I := (· = s)) ?_ fuel rfl
  rintro _ rfl
  exact ⟨_, h, rfl⟩

/-- **Termination**: a body that lowers a measure in every round leaves the loop. -/
lemma doWhile_returns {μ : σ → ℕ} (hμ : ∀ s s', body s = .inl s' → μ s' < μ s) {fuel : ℕ}
    (hs : μ s < fuel) : ∃ r, doWhile body fuel s = some r := by
  induction fuel generalizing s with
  | zero => omega
  | succ f ih =>
    cases h : body s with
    | inl s' =>
      rw [doWhile_inl h]
      have := hμ s s' h
      exact ih (by omega)
    | inr r => exact ⟨r, doWhile_inr h f⟩

/-- **Partial correctness**: what every round keeps, and what it gives when it leaves the loop. -/
lemma doWhile_spec {Q : ρ → Prop} (hkeep : ∀ s s', I s → body s = .inl s' → I s')
    (hleave : ∀ s r, I s → body s = .inr r → Q r) {fuel : ℕ} (hs : I s)
    (h : doWhile body fuel s = some r) : Q r := by
  induction fuel generalizing s with
  | zero => simp at h
  | succ f ih =>
    cases hb : body s with
    | inl s' =>
      rw [doWhile_inl hb] at h
      exact ih (hkeep s s' hs hb) h
    | inr r' =>
      rw [doWhile_inr hb] at h
      exact Option.some.inj h ▸ hleave s r' hs hb

/-- **Simulation**: a body that does what another one does, on other states and with other results,
gives its answers. -/
lemma doWhile_simulates {σ' τ : Type*} {body' : σ' → σ' ⊕ τ} {f : σ → σ'} {g : ρ → τ}
    (hkeep : ∀ s s', I s → body s = .inl s' → I s') (hb : ∀ s, I s → body' (f s) = (body s).map f g)
    (fuel : ℕ) (hs : I s) :
    doWhile body' fuel (f s) = (doWhile body fuel s).map g := by
  induction fuel generalizing s with
  | zero => rfl
  | succ k ih =>
    cases h : body s with
    | inl s' =>
      have h' : body' (f s) = .inl (f s') := by rw [hb s hs, h]; rfl
      rw [doWhile_inl h, doWhile_inl h', ih (hkeep s s' hs h)]
    | inr r =>
      have h' : body' (f s) = .inr (g r) := by rw [hb s hs, h]; rfl
      rw [doWhile_inr h, doWhile_inr h', Option.map_some]

lemma doWhile_map {τ : Type*} {body' : σ → σ ⊕ τ} (g : ρ → τ)
    (hb : ∀ s, body' s = (body s).map id g) (fuel : ℕ) (s : σ) :
    doWhile body' fuel s = (doWhile body fuel s).map g :=
  doWhile_simulates (f := id) (I := fun _ => True) (fun _ _ _ _ => trivial) (fun s _ => hb s) fuel
    trivial

/-- A fold whose steps change nothing or raise a measure changes nothing exactly if none of its
steps would. -/
lemma foldl_eq_self_iff {μ : σ → ℕ} (hμ : ∀ s a, f s a = s ∨ μ s < μ (f s a)) {l : List α} :
    l.foldl f s = s ↔ ∀ a ∈ l, f s a = s := by
  have hle : ∀ (l : List α) (s : σ), μ s ≤ μ (l.foldl f s) := by
    intro l
    induction l with
    | nil => exact fun s => le_rfl
    | cons a l ih =>
      intro s
      refine le_trans ?_ (ih (f s a))
      rcases hμ s a with h | h
      · rw [h]
      · exact Nat.le_of_lt h
  induction l with
  | nil => simp
  | cons a l ih =>
    rw [foldl_cons, forall_mem_cons]
    rcases hμ s a with h | h
    · rw [h]
      exact ⟨fun hs => ⟨rfl, ih.mp hs⟩, fun hs => ih.mpr hs.2⟩
    · refine iff_of_false (fun hs => ?_) fun hs => ?_
      · have := hle l (f s a)
        rw [hs] at this
        omega
      · rw [hs.1] at h
        exact lt_irrefl _ h

/-- **An invariant of a whole run.** If every step that meets a condition keeps the invariant, it
holds all along a run whose steps meet the condition. -/
lemma foldl_always {Q : σ → α → Prop} (hstep : ∀ s a, I s → Q s a → I (f s a)) (hs : I s)
    {l : List α} (h : ∀ l₁ a l₂, l = l₁ ++ a :: l₂ → Q (l₁.foldl f s) a) (l₁ : List α) :
    ∀ l₂, l = l₁ ++ l₂ → I (l₁.foldl f s) := by
  induction l₁ using List.reverseRecOn with
  | nil => exact fun _ _ => hs
  | append_singleton l₁ a ih =>
    intro l₂ hl
    rw [append_assoc, singleton_append] at hl
    rw [foldl_append]
    exact hstep _ a (ih _ hl) (h l₁ a l₂ hl)

/-- If a step keeps the invariant exactly when it meets a condition, then the invariant holds all
along a run exactly if all its steps meet the condition. -/
lemma foldl_always_iff {Q : σ → α → Prop} (hstep : ∀ s a, I s → (I (f s a) ↔ Q s a)) (hs : I s)
    (l : List α) :
    (∀ l₁ l₂, l = l₁ ++ l₂ → I (l₁.foldl f s)) ↔
      ∀ l₁ a l₂, l = l₁ ++ a :: l₂ → Q (l₁.foldl f s) a := by
  constructor
  · intro h l₁ a l₂ hl
    have h₁ := h l₁ _ hl
    have h₂ := h (l₁ ++ [a]) l₂ (by rw [hl, append_assoc, singleton_append])
    rw [foldl_append] at h₂
    exact (hstep _ a h₁).mp h₂
  · exact fun h => foldl_always (fun s a hI => (hstep s a hI).mpr) hs h

end FreechCore.Loop
