import FreechCore.Lib.StdMap

/-!
A map that is to keep the entries with the highest values, with an index that lists them by value.
An entry that fills the map drives out the lowest one of the index, where it is not listed itself
yet. So the map never stays full, and one for a single entry finds nothing to drive out.
-/

namespace FreechCore

open StdMap

/-- The index holds keys for the iterators of the source. -/
structure LimitedMap (K V : Type*) [LinearOrder K] where
  map : StdMap K V
  rmap : List (V × K)
  nMaxSize : ℕ

namespace LimitedMap

variable {K V : Type*} [LinearOrder K] [LinearOrder V]

def fresh (nMaxSizeIn : ℕ) : LimitedMap K V := ⟨.empty, [], nMaxSizeIn⟩

/-- Into the index, behind equal values. -/
def rmapInsert (x : V × K) (rmap : List (V × K)) : List (V × K) :=
  rmap.orderedInsert (fun a b => a.1 < b.1) x

/-- No result means that `rmap.begin()` of an empty index was used. -/
def insert (m : LimitedMap K V) (k : K) (v : V) : Option (LimitedMap K V) :=
  if m.map.contains k then some m
  else
    let map := m.map.insert k v
    if m.nMaxSize ≠ 0 ∧ map.size = m.nMaxSize then
      match m.rmap with
      | [] => none
      | e :: rmap => some { m with map := map.erase e.2, rmap := rmapInsert (v, k) rmap }
    else some { m with map := map, rmap := rmapInsert (v, k) m.rmap }

/-- No result means a failed assertion. -/
def erase (m : LimitedMap K V) (k : K) : Option (LimitedMap K V) :=
  match m.map.find? k with
  | none => some m
  | some v =>
    if (v, k) ∈ m.rmap then some { m with map := m.map.erase k, rmap := m.rmap.erase (v, k) }
    else none

def update (m : LimitedMap K V) (k : K) (v : V) : Option (LimitedMap K V) :=
  match m.map.find? k with
  | none => some m
  | some w =>
    if (w, k) ∈ m.rmap then
      some { m with map := m.map.insert k v, rmap := rmapInsert (v, k) (m.rmap.erase (w, k)) }
    else none

inductive Act (K V : Type*)
  | insert (k : K) (v : V)
  | erase (k : K)
  | update (k : K) (v : V)

def perform (m : LimitedMap K V) : Act K V → Option (LimitedMap K V)
  | .insert k v => m.insert k v
  | .erase k => m.erase k
  | .update k v => m.update k v

def performAll : List (Act K V) → LimitedMap K V → Option (LimitedMap K V)
  | [], m => some m
  | a :: acts, m => (m.perform a).bind (performAll acts)

/-! ### The index -/

/-- The index lists the entries of the map. -/
def Indexes (rmap : List (V × K)) (map : StdMap K V) : Prop :=
  rmap.Perm (map.entries.map Prod.swap)

variable {map : StdMap K V} {rmap : List (V × K)} {m : LimitedMap K V} {k : K} {v : V} {N : ℕ}

omit [LinearOrder V] in
lemma Indexes.mem_iff (h : Indexes rmap map) : (v, k) ∈ rmap ↔ map.find? k = some v := by
  rw [List.Perm.mem_iff h, ← mem_entries_iff]
  simp

lemma Indexes.drop (h : Indexes rmap map) (hk : map.find? k = some v) :
    Indexes (rmap.erase (v, k)) (map.erase k) := by
  have hperm := List.Perm.erase (v, k) (h.trans ((entries_perm hk).map Prod.swap))
  rwa [List.map_cons, Prod.swap_prod_mk, List.erase_cons_head] at hperm

lemma Indexes.add (h : Indexes rmap (map.erase k)) (v : V) :
    Indexes (rmapInsert (v, k) rmap) (map.insert k v) :=
  (List.perm_orderedInsert _ _ _).trans
    ((h.cons _).trans ((map.insert_perm k v).map Prod.swap).symm)

lemma Indexes.add_new (h : Indexes rmap map) (hk : map.find? k = none) (v : V) :
    Indexes (rmapInsert (v, k) rmap) (map.insert k v) := by
  rw [← erase_eq_self hk] at h
  exact h.add v

/-! ### The runs -/

/-- What a map for more than one entry keeps. -/
structure Sound (N : ℕ) (m : LimitedMap K V) : Prop where
  limit : m.nMaxSize = N
  index : Indexes m.rmap m.map
  size : m.map.size < N

lemma insert_of_room (hk : m.map.find? k = none) (hroom : m.map.size + 1 ≠ m.nMaxSize) (v : V) :
    m.insert k v = some ⟨m.map.insert k v, rmapInsert (v, k) m.rmap, m.nMaxSize⟩ := by
  simp [insert, contains, hk, size_insert, erase_eq_self hk, hroom]

section

variable (h : Sound N m) (hN : 2 ≤ N)

include h hN

lemma Sound.insert (k : K) (v : V) :
    ∃ m', m.insert k v = some m' ∧ Sound N m' := by
  obtain ⟨rfl, hindex, hlt⟩ := h
  cases hk : m.map.find? k with
  | some w => exact ⟨m, by simp [LimitedMap.insert, contains, hk], rfl, hindex, hlt⟩
  | none =>
    have hsize : (m.map.insert k v).size = m.map.size + 1 := by
      rw [size_insert, erase_eq_self hk]
    by_cases hfull : m.map.size + 1 = m.nMaxSize
    · have hlen : m.rmap.length = m.map.size := hindex.length_eq.trans (List.length_map _)
      obtain ⟨⟨w, k'⟩, rest, hr⟩ := List.exists_cons_of_length_pos (l := m.rmap) (by omega)
      have hk' : m.map.find? k' = some w := hindex.mem_iff.mp (by simp [hr])
      have hne : k' ≠ k := fun he => by simp [he, hk] at hk'
      have hrest : Indexes rest (m.map.erase k') := by
        have hdrop := hindex.drop hk'
        rwa [hr, List.erase_cons_head] at hdrop
      have hmap : (m.map.insert k v).erase k' = (m.map.erase k').insert k v := by
        refine ext_find? fun x => ?_
        simp only [find?_insert, find?_erase]
        split_ifs with hx hx' <;> simp_all
      refine ⟨⟨(m.map.insert k v).erase k', rmapInsert (v, k) rest, m.nMaxSize⟩, ?_, rfl, ?_, ?_⟩
      · have h0 : m.nMaxSize ≠ 0 := by omega
        simp [LimitedMap.insert, contains, hk, hsize.trans hfull, h0, hr]
      · rw [hmap]
        exact hrest.add_new (by simp [hk]) v
      · have herase := size_erase (m := m.map.insert k v) (k := k') (v := w)
          (by simp [hne, hk'])
        dsimp only
        omega
    · refine ⟨_, insert_of_room hk hfull v, rfl, hindex.add_new hk v, ?_⟩
      dsimp only
      omega

lemma Sound.perform (a : Act K V) :
    ∃ m', m.perform a = some m' ∧ Sound N m' := by
  cases a with
  | insert k v => exact h.insert hN k v
  | erase k =>
    change ∃ m', m.erase k = some m' ∧ _
    unfold LimitedMap.erase
    cases hk : m.map.find? k with
    | none => exact ⟨m, rfl, h⟩
    | some v =>
      have hsize := size_erase hk
      refine ⟨_, if_pos (h.index.mem_iff.mpr hk), h.limit, h.index.drop hk, ?_⟩
      exact (Nat.lt_of_succ_le hsize.le).trans h.size
  | update k v =>
    change ∃ m', m.update k v = some m' ∧ _
    unfold LimitedMap.update
    cases hk : m.map.find? k with
    | none => exact ⟨m, rfl, h⟩
    | some w =>
      refine ⟨_, if_pos (h.index.mem_iff.mpr hk), h.limit, (h.index.drop hk).add v, ?_⟩
      exact (size_insert.trans (size_erase hk)).trans_lt h.size

lemma Sound.performAll (acts : List (Act K V)) :
    ∃ m', performAll acts m = some m' ∧ Sound N m' := by
  induction acts generalizing m with
  | nil => exact ⟨m, rfl, h⟩
  | cons a acts ih =>
    obtain ⟨m', hm, hs⟩ := h.perform hN a
    rw [LimitedMap.performAll, hm]
    exact ih hs

end

/-- A map for a single entry never gets one. -/
lemma performAll_one {acts : List (Act K V)} :
    performAll acts (fresh 1) = some m ↔ m = fresh 1 ∧ ∀ k v, Act.insert k v ∉ acts := by
  induction acts with
  | nil => simp [performAll, eq_comm]
  | cons a acts ih =>
    cases a with
    | insert k v => exact ⟨fun h => (by cases h), fun h => absurd List.mem_cons_self (h.2 k v)⟩
    | erase | update =>
      change performAll acts (fresh 1) = some m ↔ _
      simpa using ih

/-- The entries with the highest values, as many as there is room for. -/
structure KeepsHighest (N : ℕ) (l : List (K × V)) (map : StdMap K V) : Prop where
  size : map.size = min N l.length
  mem : ∀ k v, map.find? k = some v → (k, v) ∈ l
  highest : ∀ k v, map.find? k = some v → ∀ y ∈ l, map.find? y.1 = none → y.2 ≤ v

def insertAll (l : List (K × V)) : LimitedMap K V → Option (LimitedMap K V) :=
  performAll (l.map fun x => .insert x.1 x.2)

/-- With enough room, everything is kept. -/
lemma insertAll_of_room {l : List (K × V)} (hl : (l.map Prod.fst).Nodup)
    (hnew : ∀ x ∈ l, m.map.find? x.1 = none) (hroom : m.map.size + l.length < m.nMaxSize) :
    ∃ m', insertAll l m = some m' ∧ m'.map.entries.Perm (l ++ m.map.entries) := by
  induction l generalizing m with
  | nil => exact ⟨m, rfl, List.Perm.refl _⟩
  | cons x l ih =>
    obtain ⟨hx, hl⟩ := List.nodup_cons.mp hl
    have hk := hnew x List.mem_cons_self
    rw [List.length_cons] at hroom
    have hperm := m.map.insert_perm x.1 x.2
    rw [erase_eq_self hk] at hperm
    have hlen : (m.map.insert x.1 x.2).size = m.map.size + 1 := hperm.length_eq
    have hnew' : ∀ y ∈ l, (m.map.insert x.1 x.2).find? y.1 = none := by
      intro y hy
      rw [find?_insert, if_neg fun he : y.1 = x.1 => hx (he ▸ List.mem_map_of_mem hy)]
      exact hnew y (List.mem_cons_of_mem _ hy)
    have hstep := insert_of_room hk (by omega) x.2
    obtain ⟨m', hm', hp⟩ := @ih ⟨m.map.insert x.1 x.2, rmapInsert (x.2, x.1) m.rmap, m.nMaxSize⟩ hl
      hnew' (by dsimp only; omega)
    refine ⟨m', ?_, hp.trans ((hperm.append_left _).trans List.perm_middle)⟩
    rw [insertAll, List.map_cons, performAll, perform, hstep]
    exact hm'

/-- **When the map does what it is for.** It works if it has room for two or nothing is inserted,
and it keeps the highest entries if there are fewer than it has room for. -/
theorem limitedMap_iff (hN : 1 ≤ N) (acts : List (Act K V)) {l : List (K × V)}
    (hl : (l.map Prod.fst).Nodup) :
    ((∃ m, performAll acts (fresh N) = some m ∧ Indexes m.rmap m.map) ↔
        2 ≤ N ∨ ∀ k v, Act.insert k v ∉ acts) ∧
      ((∃ m, insertAll l (fresh N) = some m ∧ KeepsHighest N l m.map) ↔ l.length < N) := by
  have hroom : l.length < N → ∃ m, insertAll l (fresh N) = some m ∧ KeepsHighest N l m.map := by
    intro hlt
    obtain ⟨m, hm, hp⟩ := insertAll_of_room (m := fresh N) hl (fun _ _ => rfl)
      ((Nat.zero_add _).trans_lt hlt)
    replace hp : m.map.entries.Perm l := by simpa [fresh, empty] using hp
    have hmem : ∀ k v, m.map.find? k = some v ↔ (k, v) ∈ l := by
      intro k v
      rw [← mem_entries_iff, hp.mem_iff]
    refine ⟨m, hm, ?_, fun k v => (hmem k v).mp, fun k v _ y hy hnone => ?_⟩
    · rw [min_eq_right hlt.le]
      exact hp.length_eq
    · rw [(hmem _ _).mpr hy] at hnone
      cases hnone
  rcases Nat.lt_or_ge N 2 with hlt | hN2
  · obtain rfl : N = 1 := by omega
    refine ⟨⟨?_, fun h => ?_⟩, ?_, hroom⟩
    · rintro ⟨m, hm, -⟩
      exact Or.inr (performAll_one.mp hm).2
    · exact ⟨_, performAll_one.mpr ⟨rfl, h.resolve_left (by omega)⟩, List.Perm.refl _⟩
    · rintro ⟨m, hm, -⟩
      cases l with
      | nil => exact Nat.one_pos
      | cons x l => exact absurd List.mem_cons_self ((performAll_one.mp hm).2 x.1 x.2)
  · have hsound : Sound N (fresh N : LimitedMap K V) := ⟨rfl, List.Perm.refl _, hN⟩
    refine ⟨⟨fun _ => Or.inl hN2, fun _ => ?_⟩, ?_, hroom⟩
    · obtain ⟨m, hm, hs⟩ := hsound.performAll hN2 acts
      exact ⟨m, hm, hs.index⟩
    · rintro ⟨m, hm, hkeep⟩
      obtain ⟨m', hm', hs⟩ := hsound.performAll hN2 (l.map fun x => .insert x.1 x.2)
      cases hm.symm.trans hm'
      have hsize := hkeep.size
      have hlt := hs.size
      omega

/-- A map for three keeps both of two entries. -/
theorem limitedMap_two : 1 ≤ 3 ∧ ([(1, 5), (2, 4)].map (Prod.fst : ℕ × ℕ → ℕ)).Nodup ∧
    ∃ m, insertAll [(1, 5), (2, 4)] (fresh 3 : LimitedMap ℕ ℕ) = some m ∧
      KeepsHighest 3 [(1, 5), (2, 4)] m.map :=
  ⟨by decide, by decide, (limitedMap_iff (by decide) [] (by decide)).2.mpr (by decide)⟩

/-- A map for one goes wrong at the first entry, and a map for two keeps one of two. -/
theorem not_limitedMap : performAll [.insert 1 5] (fresh 1 : LimitedMap ℕ ℕ) = none ∧
      ¬∃ m, insertAll [(1, 5), (2, 4)] (fresh 2 : LimitedMap ℕ ℕ) = some m ∧
        KeepsHighest 2 [(1, 5), (2, 4)] m.map := by
  refine ⟨rfl, ?_⟩
  rintro ⟨m, hm, hkeep⟩
  cases hm
  exact absurd hkeep.size (by decide)

end LimitedMap

end FreechCore
