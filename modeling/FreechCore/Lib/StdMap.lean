import Mathlib.Algebra.BigOperators.Group.List.Basic
import Mathlib.Algebra.GroupWithZero.Nat
import Mathlib.Data.List.Lex
import Mathlib.Data.List.Sort

/-!
Finite maps kept as a list sorted by key, the way an ordered associative container keeps
them: iteration runs in the order of the keys, and a key occurs once.
-/

namespace FreechCore

open List Option

variable {α : Type*}

/-- A finite map: its entries, in strictly increasing order of their keys. -/
structure StdMap (κ ν : Type*) [LinearOrder κ] where
  entries : List (κ × ν)
  sorted : entries.Pairwise fun a b => a.1 < b.1

namespace StdMap

variable {κ ν : Type*} [LinearOrder κ]

/-! ### Sorted lists of entries -/

abbrev SortedKeys (l : List (κ × ν)) : Prop := l.Pairwise fun a b => a.1 < b.1

/-- Put a value under a key, keeping the order and replacing an older value. -/
def put (k : κ) (v : ν) : List (κ × ν) → List (κ × ν)
  | [] => [(k, v)]
  | e :: l =>
    if k < e.1 then (k, v) :: e :: l
    else if k = e.1 then (k, v) :: l
    else e :: put k v l

def look (k : κ) : List (κ × ν) → Option ν
  | [] => none
  | e :: l => if k = e.1 then some e.2 else look k l

lemma mem_put {k : κ} {v : ν} {l : List (κ × ν)} {e : κ × ν} (h : e ∈ put k v l) :
    e = (k, v) ∨ e ∈ l := by
  induction l with
  | nil => exact Or.inl (by simpa [put] using h)
  | cons a l ih =>
    unfold put at h
    split_ifs at h
    · simpa using h
    · rcases mem_cons.mp h with h | h
      · exact Or.inl h
      · exact Or.inr (mem_cons_of_mem _ h)
    · rcases mem_cons.mp h with h | h
      · exact Or.inr (by simp [h])
      · rcases ih h with h | h
        · exact Or.inl h
        · exact Or.inr (mem_cons_of_mem _ h)

lemma put_sorted (k : κ) (v : ν) {l : List (κ × ν)} (hl : SortedKeys l) :
    SortedKeys (put k v l) := by
  induction l with
  | nil => simp [put]
  | cons a l ih =>
    obtain ⟨ha, hl'⟩ := pairwise_cons.mp hl
    unfold put
    split_ifs with h1 h2
    · refine pairwise_cons.mpr ⟨?_, hl⟩
      intro b hb
      rcases mem_cons.mp hb with rfl | hb
      · exact h1
      · exact lt_trans h1 (ha b hb)
    · exact pairwise_cons.mpr ⟨fun b hb => h2 ▸ ha b hb, hl'⟩
    · refine pairwise_cons.mpr ⟨?_, ih hl'⟩
      intro b hb
      rcases mem_put hb with rfl | hb
      · exact lt_of_le_of_ne (not_lt.mp h1) (fun e => h2 e.symm)
      · exact ha b hb

lemma look_put (k k' : κ) (v : ν) (l : List (κ × ν)) :
    look k' (put k v l) = if k' = k then some v else look k' l := by
  induction l with
  | nil => simp [put, look]
  | cons a l ih =>
    unfold put
    split_ifs with h1 h2 h3 h4 h5
    · simp [look, h2]
    · simp [look, h2]
    · simp [look, h4]
    · subst h3; simp [look, h4]
    · subst h5; simp [look, h3, ih]
    · simp [look, ih, h5]

lemma look_eq_some_iff {k : κ} {v : ν} {l : List (κ × ν)}
    (hl : SortedKeys l) : look k l = some v ↔ (k, v) ∈ l := by
  induction l with
  | nil => simp [look]
  | cons a l ih =>
    obtain ⟨ha, hl'⟩ := pairwise_cons.mp hl
    obtain ⟨k', v'⟩ := a
    by_cases hk : k = k'
    · subst hk
      have hno : (k, v) ∉ l := fun hm => lt_irrefl _ (ha (k, v) hm)
      simp [look, hno, eq_comm]
    · simp [look, hk, ih hl']

/-! ### The map -/

def empty : StdMap κ ν := ⟨[], List.Pairwise.nil⟩

def find? (m : StdMap κ ν) (k : κ) : Option ν := look k m.entries

def contains (m : StdMap κ ν) (k : κ) : Bool := (m.find? k).isSome

/-- Assignment through a key: the value is added, or replaces the one there. -/
def insert (m : StdMap κ ν) (k : κ) (v : ν) : StdMap κ ν :=
  ⟨put k v m.entries, put_sorted k v m.sorted⟩

def erase (m : StdMap κ ν) (k : κ) : StdMap κ ν :=
  ⟨m.entries.filter fun e => e.1 ≠ k, m.sorted.filter _⟩

@[simp] lemma find?_empty (k : κ) : (empty : StdMap κ ν).find? k = none := rfl

@[simp] lemma find?_insert (m : StdMap κ ν) (k k' : κ) (v : ν) :
    (m.insert k v).find? k' = if k' = k then some v else m.find? k' :=
  look_put k k' v m.entries

lemma look_filter (k k' : κ) (l : List (κ × ν)) :
    look k' (l.filter fun e => e.1 ≠ k) = if k' = k then none else look k' l := by
  induction l with
  | nil => simp [look]
  | cons e l ih =>
    by_cases he : e.1 = k
    · rw [filter_cons_of_neg (by simp [he]), ih]
      by_cases hk : k' = k
      · rw [if_pos hk, if_pos hk]
      · have hne : k' ≠ e.1 := fun h => hk (h.trans he)
        rw [if_neg hk, if_neg hk, look, if_neg hne]
    · rw [filter_cons_of_pos (by simp [he]), look, ih]
      by_cases hk : k' = k
      · have hne : k' ≠ e.1 := fun h => he (h.symm.trans hk)
        rw [if_pos hk, if_pos hk, if_neg hne]
      · rw [if_neg hk, if_neg hk, look]

@[simp] lemma find?_erase (m : StdMap κ ν) (k k' : κ) :
    (m.erase k).find? k' = if k' = k then none else m.find? k' :=
  look_filter k k' m.entries

lemma mem_entries_iff {m : StdMap κ ν} {k : κ} {v : ν} : (k, v) ∈ m.entries ↔ m.find? k = some v :=
  (look_eq_some_iff m.sorted).symm

def keys (m : StdMap κ ν) : List κ := m.entries.map Prod.fst

lemma mem_keys_iff {m : StdMap κ ν} {k : κ} : k ∈ m.keys ↔ (m.find? k).isSome = true := by
  rw [isSome_iff_exists]
  constructor
  · intro h
    obtain ⟨⟨k', v⟩, he, rfl⟩ := mem_map.mp h
    exact ⟨v, mem_entries_iff.mp he⟩
  · rintro ⟨v, h⟩
    exact mem_map.mpr ⟨(k, v), mem_entries_iff.mpr h, rfl⟩

def size (m : StdMap κ ν) : ℕ := m.entries.length

lemma length_keys (m : StdMap κ ν) : m.keys.length = m.size := length_map _

lemma nodup_keys (m : StdMap κ ν) : m.keys.Nodup :=
  pairwise_map.mpr (m.sorted.imp fun h => h.ne)

@[simp] lemma contains_iff (m : StdMap κ ν) (k : κ) : m.contains k = true ↔ ∃ v, m.find? k = some v := by
  simp [contains, isSome_iff_exists]

lemma insert_eq_self_iff {m : StdMap κ ν} {k : κ} {v : ν} :
    m.insert k v = m ↔ m.find? k = some v := by
  constructor
  · intro h
    rw [← h, find?_insert, if_pos rfl]
  · intro h
    obtain ⟨l, hl⟩ := m
    have hmem : (k, v) ∈ l := (look_eq_some_iff hl).mp h
    simp only [insert, mk.injEq]
    clear h
    induction l with
    | nil => cases hmem
    | cons e l ih =>
      obtain ⟨he, hl'⟩ := pairwise_cons.mp hl
      unfold put
      rcases mem_cons.mp hmem with rfl | hmem
      · simp
      · have hlt := he _ hmem
        rw [if_neg (not_lt.mpr hlt.le), if_neg hlt.ne', ih hl' hmem]

/-! ### Maps with the same values -/

lemma nodup_of_sorted {l : List (κ × ν)} (hl : SortedKeys l) : l.Nodup :=
  hl.imp fun hlt heq => hlt.ne (congrArg Prod.fst heq)

lemma eq_of_look_eq {l l' : List (κ × ν)} (hl : SortedKeys l)
    (hl' : SortedKeys l') (h : ∀ k, look k l = look k l') : l = l' := by
  have hmem : ∀ x, x ∈ l ↔ x ∈ l' := by
    rintro ⟨k, v⟩
    rw [← look_eq_some_iff hl, ← look_eq_some_iff hl', h k]
  refine ((perm_ext_iff_of_nodup (nodup_of_sorted hl) (nodup_of_sorted hl')).mpr
    hmem).eq_of_pairwise ?_ hl hl'
  exact fun a b _ _ hab hba => absurd (lt_trans hab hba) (lt_irrefl _)

lemma ext_find? {m m' : StdMap κ ν} (h : ∀ k, m.find? k = m'.find? k) : m = m' := by
  obtain ⟨l, hl⟩ := m
  obtain ⟨l', hl'⟩ := m'
  rw [mk.injEq]
  exact eq_of_look_eq hl hl' h

lemma insert_insert (m : StdMap κ ν) (k : κ) (v w : ν) : (m.insert k v).insert k w = m.insert k w := by
  refine ext_find? fun k' => ?_
  simp only [find?_insert]
  split_ifs <;> rfl

lemma erase_eq_self {m : StdMap κ ν} {k : κ} (h : m.find? k = none) : m.erase k = m := by
  refine ext_find? fun k' => ?_
  rw [find?_erase]
  split_ifs with hk
  · rw [hk, h]
  · rfl

/-- The entry of a key and those of the others. -/
lemma entries_perm {m : StdMap κ ν} {k : κ} {v : ν} (h : m.find? k = some v) :
    m.entries.Perm ((k, v) :: (m.erase k).entries) := by
  refine (perm_ext_iff_of_nodup (nodup_of_sorted m.sorted) (nodup_cons.mpr
    ⟨by simp [mem_entries_iff], nodup_of_sorted (m.erase k).sorted⟩)).mpr ?_
  rintro ⟨k', v'⟩
  rw [mem_cons, mem_entries_iff, mem_entries_iff, find?_erase, Prod.mk.injEq]
  by_cases hk : k' = k
  · simp [hk, h, eq_comm]
  · simp [hk]

lemma insert_perm (m : StdMap κ ν) (k : κ) (v : ν) :
    (m.insert k v).entries.Perm ((k, v) :: (m.erase k).entries) := by
  have herase : (m.insert k v).erase k = m.erase k := by
    refine ext_find? fun k' => ?_
    simp only [find?_erase, find?_insert]
    split_ifs <;> rfl
  exact herase ▸ entries_perm (by simp)

lemma size_insert {m : StdMap κ ν} {k : κ} {v : ν} : (m.insert k v).size = (m.erase k).size + 1 :=
  (insert_perm m k v).length_eq

lemma size_erase {m : StdMap κ ν} {k : κ} {v : ν} (h : m.find? k = some v) :
    (m.erase k).size + 1 = m.size :=
  (entries_perm h).length_eq.symm

lemma size_le_size_insert (m : StdMap κ ν) (k : κ) (v : ν) : m.size ≤ (m.insert k v).size := by
  rw [size_insert]
  cases h : m.find? k with
  | none =>
    rw [erase_eq_self h]
    exact Nat.le_succ _
  | some w => exact (size_erase h).ge

lemma look_filter_of_sorted {l : List (κ × ν)} (hl : SortedKeys l)
    (p : κ × ν → Bool) (k : κ) : look k (l.filter p) = (look k l).filter fun v => p (k, v) := by
  refine ext fun v => ?_
  rw [look_eq_some_iff (hl.filter _), mem_filter, filter_eq_some_iff,
    look_eq_some_iff hl]

lemma look_foldl_put (f : α → ν) (k : κ) (l : List (κ × α)) (d : List (κ × ν)) (hl : SortedKeys l) :
    look k (l.foldl (fun d x => put x.1 (f x.2) d) d) = ((look k l).map f).or (look k d) := by
  induction l generalizing d with
  | nil => rfl
  | cons x l ih =>
    obtain ⟨hlt, hl⟩ := pairwise_cons.mp hl
    rw [foldl_cons, ih _ hl, look_put, look]
    by_cases hk : k = x.1
    · have hnone : look k l = none := by
        cases h : look k l with
        | none => rfl
        | some v => exact absurd (hlt _ ((look_eq_some_iff hl).mp h)) (by simp [hk])
      rw [hnone, if_pos hk, if_pos hk]
      rfl
    · rw [if_neg hk, if_neg hk]

lemma foldl_put_sorted (f : α → ν) (l : List (κ × α)) {d : List (κ × ν)} (hd : SortedKeys d) :
    SortedKeys (l.foldl (fun d x => put x.1 (f x.2) d) d) := by
  induction l generalizing d with
  | nil => exact hd
  | cons x l ih => exact ih (put_sorted _ _ hd)

lemma look_map (f : α → ν) (k : κ) (l : List (κ × α)) :
    look k (l.map fun x => (x.1, f x.2)) = (look k l).map f := by
  induction l with
  | nil => rfl
  | cons x l ih =>
    rw [map_cons, look, look]
    split_ifs
    · rfl
    · exact ih

lemma foldl_put_nil (f : α → ν) {l : List (κ × α)} (hl : SortedKeys l) :
    l.foldl (fun d x => put x.1 (f x.2) d) [] = l.map fun x => (x.1, f x.2) := by
  have hmap : SortedKeys (l.map fun x => (x.1, f x.2)) :=
    pairwise_map.mpr hl
  refine eq_of_look_eq (foldl_put_sorted f l List.Pairwise.nil) hmap fun k => ?_
  rw [look_foldl_put f k l [] hl, look_map]
  exact Option.or_none

lemma foldl_put_if (p : α → Prop) [DecidablePred p] (f : α → ν) {l : List (κ × α)}
    (hl : SortedKeys l) :
    l.foldl (fun d x => if p x.2 then put x.1 (f x.2) d else d) [] =
      (l.filter fun x => p x.2).map fun x => (x.1, f x.2) := by
  rw [← foldl_put_nil f (hl.filter _), foldl_filter]
  simp only [decide_eq_true_eq]

lemma find?_foldl_insert (f : α → ν) (k : κ) {l : List (κ × α)}
    (hl : SortedKeys l) (m : StdMap κ ν) :
    (l.foldl (fun m x => m.insert x.1 (f x.2)) m).find? k = ((look k l).map f).or (m.find? k) := by
  have hentries : ∀ (l : List (κ × α)) (m : StdMap κ ν),
      (l.foldl (fun m x => m.insert x.1 (f x.2)) m).entries =
        l.foldl (fun d x => put x.1 (f x.2) d) m.entries := by
    intro l
    induction l with
    | nil => exact fun _ => rfl
    | cons x l ih => exact fun m => ih _
  rw [find?, hentries, look_foldl_put f k l m.entries hl]
  rfl

lemma foldl_insert_entries (m : StdMap κ ν) :
    m.entries.foldl (fun m x => m.insert x.1 x.2) empty = m := by
  refine ext_find? fun k => ?_
  rw [find?_foldl_insert (fun v => v) k m.sorted, Option.map_id_fun', find?_empty, Option.or_none]
  rfl

lemma size_eq_zero_iff {m : StdMap κ ν} : m.size = 0 ↔ m = empty := by
  obtain ⟨l, hl⟩ := m
  simp [size, empty]

lemma foldl_insert_keys (s : StdMap κ Unit) :
    s.keys.foldl (fun s k => s.insert k ()) empty = s := by
  rw [keys, foldl_map]
  exact foldl_insert_entries s

/-! ### Changing a value in place -/

/-- Change the value under a key, if there is one. -/
def modify (k : κ) (f : ν → ν) (l : List (κ × ν)) : List (κ × ν) :=
  match look k l with
  | some v => put k (f v) l
  | none => l

lemma modify_sorted (k : κ) (f : ν → ν) {l : List (κ × ν)}
    (hl : SortedKeys l) : SortedKeys (modify k f l) := by
  rw [modify]
  split
  · exact put_sorted _ _ hl
  · exact hl

lemma look_modify (k k' : κ) (f : ν → ν) (l : List (κ × ν)) :
    look k' (modify k f l) = if k' = k then (look k' l).map f else look k' l := by
  rw [modify]
  split
  · rename_i v hv
    rw [look_put]
    by_cases hk : k' = k
    · rw [if_pos hk, if_pos hk, hk, hv, map_some]
    · rw [if_neg hk, if_neg hk]
  · rename_i hv
    split_ifs with hk
    · rw [hk, hv, map_none]
    · rfl

lemma modify_comm {k k' : κ} (hk : k ≠ k') (f g : ν → ν) {l : List (κ × ν)} (hl : SortedKeys l) :
    modify k f (modify k' g l) = modify k' g (modify k f l) := by
  refine eq_of_look_eq (modify_sorted _ _ (modify_sorted _ _ hl))
    (modify_sorted _ _ (modify_sorted _ _ hl)) fun key => ?_
  simp only [look_modify]
  split_ifs with h h'
  · exact absurd (h.symm.trans h') hk
  · rfl
  · rfl
  · rfl

lemma modify_modify (k : κ) (f g : ν → ν) {l : List (κ × ν)}
    (hl : SortedKeys l) : modify k f (modify k g l) = modify k (f ∘ g) l := by
  refine eq_of_look_eq (modify_sorted _ _ (modify_sorted _ _ hl)) (modify_sorted _ _ hl)
    fun key => ?_
  simp only [look_modify]
  split_ifs
  · rw [Option.map_map]
  · rfl

lemma modify_eq_self_iff {k : κ} {f : ν → ν} {l : List (κ × ν)} (hl : SortedKeys l) :
    modify k f l = l ↔ ∀ v, look k l = some v → f v = v := by
  constructor
  · intro h v hv
    have hlook := look_modify k k f l
    rw [h, if_pos rfl, hv, map_some] at hlook
    exact (some.inj hlook).symm
  · intro h
    refine eq_of_look_eq (modify_sorted _ _ hl) hl fun key => ?_
    rw [look_modify]
    split_ifs with hk
    · subst hk
      cases hv : look key l with
      | none => rfl
      | some v => rw [map_some, h v hv]
    · rfl

/-! ### The weight of a map -/

/-- The sum of a weight over the values. -/
def total (w : ν → ℕ) (m : StdMap κ ν) : ℕ := (m.entries.map fun e => w e.2).sum

lemma total_erase (w : ν → ℕ) (m : StdMap κ ν) (k : κ) :
    total w (m.erase k) + (m.find? k).elim 0 w = total w m := by
  cases h : m.find? k with
  | none => rw [erase_eq_self h, elim_none, add_zero]
  | some v =>
    rw [total, total, ((entries_perm h).map _).sum_eq, map_cons, sum_cons, add_comm]
    rfl

lemma total_insert (w : ν → ℕ) (m : StdMap κ ν) (k : κ) (v : ν) :
    total w (m.insert k v) + (m.find? k).elim 0 w = total w m + w v := by
  have hsum : total w (m.insert k v) = w v + total w (m.erase k) := by
    rw [total, ((insert_perm m k v).map _).sum_eq, map_cons, sum_cons, total]
  have herase := total_erase w m k
  omega

end StdMap

/-- A set as an ordered container keeps it. -/
abbrev StdSet (κ : Type*) [LinearOrder κ] := StdMap κ Unit

/-! ### Byte strings as keys -/

instance instLinearOrderUInt8 : LinearOrder UInt8 where
  le_refl := UInt8.le_refl
  le_trans _ _ _ := UInt8.le_trans
  le_antisymm _ _ := UInt8.le_antisymm
  le_total := UInt8.le_total
  lt_iff_le_not_ge a b := by
    rw [UInt8.not_le]
    exact ⟨fun h => ⟨UInt8.le_of_lt h, h⟩, And.right⟩
  toDecidableLE := inferInstance

end FreechCore
