import FreechCore.Registry.Blocks

/-!
When the register of a name agrees with a chain: it lists the blocks of the chain that
register the name, newest first. Below them it rests on a residue of other branches. The
residue is harmless when it is the first registration of the name on its own chain and is
not the block above it: then it cannot lie on a chain together with that block.
-/

namespace FreechCore

open BackLink List Option

namespace Ledger

variable (L : Ledger)

/-- A block is the first on its chain to register a name. -/
def First (u : Bytes) (x : ℕ) : Prop :=
  L.registers u x = true ∧ ∃ l, L.Chain (x :: l) ∧ L.history u l = []

/-- The residue `r` of a register `e` that lists `R` does no harm, also to a reader who goes
by the chain `A`. -/
structure Rests (e : ℤ → Option ℕ) (u : Bytes) (A R : List ℕ) (r : Option ℕ) : Prop where
  first : ∀ x, r = some x → L.First u x
  ne_last : ∀ x, r = some x → R.getLast? ≠ some x
  bottom : ∀ x, r = some x → R = [] → x ∈ A → e (L.ht x - 1) = none

variable {L} {env : Env} {u : Bytes} {x : ℕ} {W A : List ℕ} {e : ℤ → Option ℕ} {r : Option ℕ}

@[simp] lemma history_nil : L.history u [] = [] := rfl

lemma history_cons_of_registers (hu : L.registers u x = true) :
    L.history u (x :: W) = x :: L.history u W :=
  filter_cons_of_pos hu

lemma history_cons_of_not (hu : L.registers u x = false) : L.history u (x :: W) = L.history u W :=
  filter_cons_of_neg (by simp [hu])

@[simp] lemma history_append (l l' : List ℕ) :
    L.history u (l ++ l') = L.history u l ++ L.history u l' :=
  filter_append ..

lemma mem_history : x ∈ L.history u W ↔ x ∈ W ∧ L.registers u x = true := mem_filter

lemma mem_of_history_cons {R : List ℕ} (hR : L.history u W = x :: R) :
    x ∈ W ∧ L.registers u x = true :=
  mem_history.mp (hR ▸ mem_cons_self)

lemma not_registers_of_history_nil (hW : L.history u W = []) (hx : x ∈ W) :
    L.registers u x = false := by
  simpa using filter_eq_nil_iff.mp hW x hx

lemma not_mem_of_history_nil (hW : L.history u W = []) (hx : L.registers u x = true) : x ∉ W :=
  fun hxW => filter_eq_nil_iff.mp hW x hxW hx

lemma history_right_nil {l l' : List ℕ} (h : L.history u (l ++ l') = []) : L.history u l' = [] := by
  rw [history_append, append_eq_nil_iff] at h
  exact h.2

section

variable (T : L.Tree env) {p : CBlockIndex} (hp : L.index x = some p)

include T hp

lemma Tree.registers_root (hq : p.pprev = none) : L.registers u x = false := by
  obtain ⟨b, hb, -, -, hg⟩ := T.stored hp
  have : L.registrations x = [] := by
    simp [registrations, block_eq hp, hb, hg hq]
  simp [registers, registration, this]

lemma Tree.height_pos (hu : L.registers u x = true) : 0 < L.ht x := by
  cases hq : p.pprev with
  | none => rw [T.registers_root hp hq] at hu; cases hu
  | some q =>
    obtain ⟨pq, -, hh⟩ := T.parent hp hq
    unfold ht
    rw [heightOf_eq hp, hh]
    omega

end

lemma Chain.descending (T : L.Tree env) (hW : L.Chain W) (u : Bytes) :
    Descending L.ht (L.history u W) := by
  refine ⟨?_, fun x hx => ?_⟩
  · refine ((hW.pairwise_lt T).filter _).imp fun {a b} hab => ?_
    unfold ht
    exact_mod_cast hab
  · obtain ⟨hxW, hu⟩ := mem_history.mp hx
    obtain ⟨p, hp⟩ := hW.index_eq hxW
    exact T.height_pos hp hu

lemma First.unique (hA : L.Chain A) {y : ℕ} (hx : L.First u x) (hy : L.First u y)
    (hxA : x ∈ A) (hyA : y ∈ A) : x = y := by
  obtain ⟨hxu, lx, hlx, hhx⟩ := hx
  obtain ⟨hyu, ly, hly, hhy⟩ := hy
  obtain ⟨a, l, rfl⟩ := append_of_mem hxA
  have hl : l = lx := (hA.of_append (l := a) (by simp)).unique hlx
  subst hl
  -- the other block lies on one side of the first
  rcases mem_append.mp hyA with hya | hyl
  · obtain ⟨a₁, a₂, rfl⟩ := append_of_mem hya
    rw [append_assoc] at hA
    have hA' : L.Chain (y :: (a₂ ++ x :: l)) := hA.of_append (by simp)
    rw [← hA'.unique hly] at hhy
    exact absurd (by simp) (not_mem_of_history_nil hhy hxu)
  · rcases mem_cons.mp hyl with rfl | hyl
    · rfl
    · exact absurd hyl (not_mem_of_history_nil hhx hyu)

lemma Chain.first_getLast (T : L.Tree env) (hW : L.Chain W)
    (hx : (L.history u W).getLast? = some x) : x ∈ W ∧ L.First u x := by
  have hmem := mem_history.mp (mem_of_getLast? hx)
  refine ⟨hmem.1, hmem.2, ?_⟩
  obtain ⟨a, l, rfl⟩ := append_of_mem hmem.1
  have hl : L.Chain (x :: l) := hW.of_append (by simp)
  refine ⟨l, hl, ?_⟩
  rw [history_append, history_cons_of_registers hmem.2] at hx
  cases hh : L.history u l with
  | nil => rfl
  | cons y R =>
    -- otherwise the last block would occur twice on its own chain
    have hlast : (y :: R).getLast? = some x := by
      rw [hh, List.getLast?_append_cons, List.getLast?_cons_cons] at hx
      exact hx
    have hxl : x ∈ l := (mem_history.mp (hh ▸ mem_of_getLast? hlast)).1
    exact absurd hxl (nodup_cons.mp (hl.nodup T)).1

/-! ### The register when blocks come and go -/

/-- **Withdrawing the tip**: the register of a name follows the shorter chain, and a
harmless residue stays harmless. -/
lemma follows_disconnect (T : L.Tree env) (hW : L.Chain (x :: W)) (hA : L.Chain A) (hxA : x ∈ A)
    (hu : L.registers u x = true) (hf : Follows L.ht e (-1) (L.history u (x :: W)) r) :
    ∃ r', Follows L.ht (disconnect L.ht e x) (-1) (L.history u W) r' ∧
      (L.Rests e u A (L.history u (x :: W)) r →
        L.Rests (disconnect L.ht e x) u A (L.history u W) r') := by
  have hd := hW.descending T u
  rw [history_cons_of_registers hu] at hf hd ⊢
  cases hR : L.history u W with
  | cons y R =>
    rw [hR] at hf hd
    refine ⟨r, hf.disconnect_cons hd, fun hr => ⟨hr.first, fun z hz => ?_, fun z _ hn => ?_⟩⟩
    · exact hr.ne_last z hz
    · cases hn
  | nil =>
    rw [hR] at hf
    have hfirst : L.First u x := ⟨hu, W, hW, hR⟩
    refine ⟨r.or (some x), hf.disconnect_single, fun hr => ⟨?_, by simp, ?_⟩⟩
    · intro z hz
      cases r with
      | none =>
        rw [none_or, some.injEq] at hz
        exact hz ▸ hfirst
      | some y =>
        rw [some_or, some.injEq] at hz
        exact hz ▸ hr.first y rfl
    · intro z hz _ hzA
      cases r with
      | none =>
        cases none_or.symm.trans hz
        have hnone : e (L.ht x - 1) = none := hf.2
        simp [disconnect, hnone]
      | some y =>
        -- a residue on the reader's chain would be the withdrawn block itself
        rw [some_or, some.injEq] at hz
        subst hz
        have hyx : y = x := (hr.first y rfl).unique hA hfirst hzA hxA
        exact absurd (by rw [hyx]; rfl) (hr.ne_last y rfl)

/-- A block finds no stale key under its height, unless there is an entry to save there. -/
def TidyFor (L : Ledger) (e : ℤ → Option ℕ) (x : ℕ) : Prop :=
  e (-1) = none ∨ e (-1) = some x → e (L.ht x - 1) = none

/-- **Recording a block**: the register of a name follows the longer chain. A harmless
residue stays harmless if the block finds no stale key. -/
lemma follows_connect (T : L.Tree env) (hW : L.Chain (x :: W)) (hu : L.registers u x = true)
    (hf : Follows L.ht e (-1) (L.history u W) r) :
    ∃ r', Follows L.ht (connect L.ht e x) (-1) (L.history u (x :: W)) r' ∧
      (L.Rests e u A (L.history u W) r → (L.history u W = [] → L.TidyFor e x) →
        L.Rests (connect L.ht e x) u A (L.history u (x :: W)) r') := by
  have hd := hW.descending T u
  rw [history_cons_of_registers hu] at hd ⊢
  cases hR : L.history u W with
  | cons y R =>
    rw [hR] at hf hd
    refine ⟨r, hf.connect_cons hd, fun hr _ => ⟨hr.first, fun z hz => ?_, fun z _ hn => ?_⟩⟩
    · exact hr.ne_last z hz
    · cases hn
  | nil =>
    rw [hR] at hf
    have hx0 : 0 < L.ht x := hd.2 x (by simp)
    have hnone : ∀ r', r' = none → L.Rests (connect L.ht e x) u A [x] r' := by
      rintro r' rfl
      exact ⟨fun _ hz => (by cases hz), fun _ hz => (by cases hz), fun _ hz => (by cases hz)⟩
    cases r with
    | none =>
      exact ⟨_, hf.connect_none hx0, fun _ ht => hnone _ (ht rfl (Or.inl hf))⟩
    | some y =>
      by_cases hyx : y = x
      · subst hyx
        exact ⟨_, hf.connect_self, fun _ ht => hnone _ (ht rfl (Or.inr hf))⟩
      · refine ⟨some y, hf.connect_residue hyx hx0, fun hr _ => ⟨hr.first, ?_, ?_⟩⟩
        · intro z hz hlast
          rw [List.getLast?_singleton, some.injEq] at hlast
          exact hyx ((some.inj hz).trans hlast.symm)
        · intro z _ hn
          cases hn

end Ledger

end FreechCore
