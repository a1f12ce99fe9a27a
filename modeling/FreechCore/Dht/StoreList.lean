import FreechCore.Dht.Storage
import FreechCore.Lib.Capped

/-!
The list of one target: what is in it after an item was put into it, for multiple and for single
resources. The scan runs from the last item to the first, and what it finds is stated here by the
parts of the list that it has gone over.
-/

namespace FreechCore

open List

variable {l₁ l₂ : List DhtStorageItem} {x : DhtStorageItem}

lemma exists_last_not (P : DhtStorageItem → Prop) (l : List DhtStorageItem) :
    (∀ x ∈ l, P x) ∨ ∃ l₁ x l₂, l = l₁ ++ x :: l₂ ∧ (∀ y ∈ l₂, P y) ∧ ¬ P x := by
  induction l using List.reverseRecOn with
  | nil => exact Or.inl (by simp)
  | append_singleton l a ih =>
    by_cases ha : P a
    · rcases ih with h | ⟨l₁, x, l₂, rfl, h, hx⟩
      · refine Or.inl fun x hx => ?_
        rcases mem_append.mp hx with hx | hx
        · exact h x hx
        · exact mem_singleton.mp hx ▸ ha
      · refine Or.inr ⟨l₁, x, l₂ ++ [a], by simp, fun y hy => ?_, hx⟩
        rcases mem_append.mp hy with hy | hy
        · exact h y hy
        · exact mem_singleton.mp hy ▸ ha
    · exact Or.inr ⟨l, a, [], rfl, by simp, ha⟩

/-- The scan goes over the items of the end that satisfy `P`, and the one before them. -/
lemma forall_scanned_iff {P Q : DhtStorageItem → Prop} (hPQ : ∀ y, P y → Q y)
    (h : ∀ y ∈ l₂, P y) (hx : ¬ P x) :
    (∀ k₁ z k₂, l₁ ++ x :: l₂ = k₁ ++ z :: k₂ → (∀ y ∈ k₂, P y) → Q z) ↔ Q x := by
  refine ⟨fun hall => hall l₁ x l₂ rfl h, fun hQ k₁ z k₂ heq hk => ?_⟩
  have hz : z ∈ x :: l₂ := by
    rcases append_eq_append_iff.mp heq with ⟨c, rfl, hc⟩ | ⟨c, rfl, hc⟩
    · rw [hc]
      simp
    · cases c with
      | nil =>
        rw [nil_append] at hc
        rw [← hc]
        simp
      | cons y c =>
        obtain ⟨rfl, rfl⟩ := cons_eq_cons.mp hc
        exact absurd (hk x (by simp)) hx
  rcases mem_cons.mp hz with rfl | hz
  · exact hQ
  · exact hPQ z (h z hz)

/-! ### Multiple resources -/

variable {item : DhtStorageItem} {seq height : Int32} {bufv : Bytes} {r₁ : List DhtStorageItem}

section Multi

variable {lsto : List DhtStorageItem}

/-- The value of an item is there, and another one. -/
def DhtStorageItem.Other (bufv : Bytes) (x : DhtStorageItem) : Prop :=
  ∃ v, x.bufv = some v ∧ v ≠ bufv

lemma DhtStorageItem.Other.ne_none (h : x.Other bufv) : x.bufv ≠ none := by
  obtain ⟨v, hv, -⟩ := h
  simp [hv]

variable (height) in
lemma insertPos_append (r₂ : List DhtStorageItem) (pos : ℕ) (h : ∀ x ∈ r₁, x.Other bufv) :
    ∃ pos', insertPos bufv height (r₁ ++ r₂) pos =
      insertPos bufv height r₂ pos' := by
  induction r₁ generalizing pos with
  | nil => exact ⟨pos, rfl⟩
  | cons old r₁ ih =>
    obtain ⟨v, hv, hne⟩ := h old mem_cons_self
    rw [cons_append, insertPos, hv]
    dsimp only
    rw [if_neg hne]
    exact ih _ fun x hx => h x (mem_cons_of_mem _ hx)

lemma insertPos_of_other {r : List DhtStorageItem} {pos : ℕ} (h : ∀ x ∈ r, x.Other bufv) :
    insertPos bufv height r pos =
      some (some ((r.reverse.findIdx? fun x => x.height ≤ height.toInt).getD pos)) := by
  induction r generalizing pos with
  | nil => rfl
  | cons old r ih =>
    obtain ⟨v, hv, hne⟩ := h old mem_cons_self
    rw [insertPos, hv]
    dsimp only
    rw [if_neg hne, ih fun x hx => h x (mem_cons_of_mem _ hx), reverse_cons, findIdx?_append]
    cases r.reverse.findIdx? fun x => x.height ≤ height.toInt with
    | some j => simp
    | none =>
      by_cases hle : old.height ≤ height.toInt
      · simp [hle]
      · simp [hle]

lemma storeInList_other (h : ∀ x ∈ lsto, x.Other bufv) :
    storeInList item true seq height bufv lsto = some (true,
      (orderedInsert (fun _ x => x.height ≤ height.toInt) item lsto).take maxEntriesPerMulti) := by
  have hpos : insertPos bufv height lsto.reverse lsto.length =
      some (some (lsto.findIdx fun x => x.height ≤ height.toInt)) := by
    rw [insertPos_of_other fun x hx => h x (mem_reverse.mp hx), reverse_reverse,
      findIdx_eq_getD_findIdx?]
  rw [storeInList, hpos, Capped.orderedInsert_eq_insertIdx]
  rfl

lemma storeInList_stops (h : ∀ y ∈ l₂, y.Other bufv) (hx : ¬ x.Other bufv) :
    storeInList item true seq height bufv (l₁ ++ x :: l₂) =
      x.bufv.map fun _ => (false, (l₁ ++ x :: l₂).take maxEntriesPerMulti) := by
  obtain ⟨pos, hpos⟩ := insertPos_append height (x :: l₁.reverse) (l₁ ++ x :: l₂).length
    fun y hy => h y (mem_reverse.mp hy)
  have hrev : (l₁ ++ x :: l₂).reverse = l₂.reverse ++ x :: l₁.reverse := by simp
  rw [storeInList, hrev, hpos, insertPos]
  cases hb : x.bufv with
  | none => rfl
  | some v =>
    have hv : v = bufv := not_not.mp fun hne => hx ⟨v, hb, hne⟩
    simp [hv]

end Multi

/-! ### Single resources -/

/-- The number of an item is there, and smaller. -/
def DhtStorageItem.Older (seq : Int32) (x : DhtStorageItem) : Prop :=
  ∃ n, x.seq = some n ∧ n < seq.toInt

lemma DhtStorageItem.Older.ne_none (h : x.Older seq) : x.seq ≠ none := by
  obtain ⟨n, hn, -⟩ := h
  simp [hn]

lemma replaceOlder_append {r₂ : List DhtStorageItem} (h : ∀ x ∈ r₁, x.Older seq) :
    replaceOlder item seq (r₁ ++ r₂) = (replaceOlder item seq r₂).map fun r =>
      (!r₁.isEmpty || r.1, replicate r₁.length item ++ r.2) := by
  induction r₁ with
  | nil => simp
  | cons old r₁ ih =>
    obtain ⟨n, hn, hlt⟩ := h old mem_cons_self
    rw [cons_append, replaceOlder, hn]
    dsimp only
    rw [if_pos hlt, ih fun x hx => h x (mem_cons_of_mem _ hx), Option.map_map]
    simp [Function.comp_def, replicate_succ]

variable (item height bufv) in
lemma storeInList_older (l₁ : List DhtStorageItem) (h : ∀ x ∈ l₂, x.Older seq)
    (hlast : ∀ x ∈ l₁.getLast?, ∃ n, x.seq = some n ∧ seq.toInt ≤ n) :
    storeInList item false seq height bufv (l₁ ++ l₂) =
      some (!l₂.isEmpty, (l₁ ++ replicate l₂.length item).take maxEntriesPerMulti) := by
  have hstop : replaceOlder item seq l₁.reverse = some (false, l₁.reverse) := by
    cases hl : l₁.reverse with
    | nil => rfl
    | cons x r =>
      obtain ⟨n, hn, hle⟩ := hlast x (by rw [getLast?_eq_head?_reverse, hl]; rfl)
      rw [replaceOlder, hn]
      exact if_neg (not_lt.mpr hle)
  rw [storeInList, reverse_append, replaceOlder_append fun x hx => h x (mem_reverse.mp hx), hstop]
  simp

lemma storeInList_noNumber (h : ∀ y ∈ l₂, y.Older seq) (hx : x.seq = none) :
    storeInList item false seq height bufv (l₁ ++ x :: l₂) = none := by
  have hrev : (l₁ ++ x :: l₂).reverse = l₂.reverse ++ x :: l₁.reverse := by simp
  rw [storeInList, hrev, replaceOlder_append fun y hy => h y (mem_reverse.mp hy), replaceOlder, hx]
  rfl

end FreechCore
