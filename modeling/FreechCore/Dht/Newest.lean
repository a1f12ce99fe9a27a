import FreechCore.Dht.Kept
import FreechCore.Lib.Latest

/-!
Single resources: which item a node keeps, after a saved table was read and requests have come. The
number of a request is cut to 32 bits before it is compared with the number that is kept, and a
target whose saved items have all expired keeps an empty list in which nothing is ever put.
-/

namespace FreechCore

open AcceptedPut DhtStorageItem List

variable {l : List Entry} {s : Option DhtStorageItem}

/-! ### What a saved table holds for a target -/

section Saved

variable (V : ChainView) (refreshTime : Entry → ℤ)

/-- The items of a saved list that have not expired. -/
def savedItems (l : List Entry) : List DhtStorageItem :=
  (l.filterMap fun e => savedItem (refreshTime e) e).filter fun item => !hasExpired V item false

/-- The list of a target in a saved table: the first one under its name counts. -/
def savedIn (target : Bytes) : List (Bytes × Entry) → Option (List DhtStorageItem)
  | [] => none
  | (key, .list l) :: d =>
    if key.take 20 = target then some (savedItems V refreshTime l) else savedIn target d
  | _ :: d => savedIn target d

def savedFor (target : Bytes) : Option Entry → Option (List DhtStorageItem)
  | some (.dict d) => savedIn V refreshTime target d
  | _ => none

/-- Every item of a saved table has its fields. -/
def SavedReadable : Option Entry → Prop
  | some (.dict d) => ∀ key l, (key, Entry.list l) ∈ d → ∀ e ∈ l, savedItem (refreshTime e) e ≠ none
  | _ => True

variable {V refreshTime}

/-- A list is read whole, unless an item lacks a field. -/
lemma loadItems_cases (l : List Entry) (st : DhtStorage) :
    (∃ st', loadItems V refreshTime l st = some (st', savedItems V refreshTime l) ∧
        st'.table = st.table ∧ ∀ e ∈ l, savedItem (refreshTime e) e ≠ none) ∨
      loadItems V refreshTime l st = none ∧ ∃ e ∈ l, savedItem (refreshTime e) e = none := by
  induction l generalizing st with
  | nil => exact Or.inl ⟨st, rfl, rfl, by simp⟩
  | cons e l ih =>
    rw [loadItems]
    cases hitem : savedItem (refreshTime e) e with
    | none => exact Or.inr ⟨rfl, e, mem_cons_self, hitem⟩
    | some item =>
      dsimp only
      by_cases hexp : hasExpired V item false = true
      · rw [if_pos hexp]
        rcases ih st with ⟨st', hload, htable, hall⟩ | ⟨hload, hno⟩
        · exact Or.inl ⟨st', by simp [hload, savedItems, hitem, hexp], htable,
            by simpa [hitem] using hall⟩
        · exact Or.inr ⟨hload, by simp [hno]⟩
      · rw [if_neg hexp]
        rcases ih (processNewlyStoredEntry item.p item.decoded st) with
          ⟨st', hload, htable, hall⟩ | ⟨hload, hno⟩
        · exact Or.inl ⟨st', by simp [hload, savedItems, hitem, hexp],
            htable.trans (processNewlyStoredEntry_table _ _ _),
            by simpa [hitem] using hall⟩
        · exact Or.inr ⟨by rw [hload]; rfl, by simp [hno]⟩

lemma loadTargets_cases (d : List (Bytes × Entry)) (st : DhtStorage) :
    (∃ st', loadTargets V refreshTime d st = some st' ∧
        (∀ target, st'.table.find? target =
          (st.table.find? target).or (savedIn V refreshTime target d)) ∧
        SavedReadable refreshTime (some (.dict d))) ∨
      loadTargets V refreshTime d st = none ∧ ¬ SavedReadable refreshTime (some (.dict d)) := by
  induction d generalizing st with
  | nil => exact Or.inl ⟨st, rfl, by simp [savedIn], by simp [SavedReadable]⟩
  | cons x d ih =>
    obtain ⟨key, v⟩ := x
    cases v with
    | list l =>
      have hcons : SavedReadable refreshTime (some (.dict ((key, .list l) :: d))) ↔
          (∀ e ∈ l, savedItem (refreshTime e) e ≠ none) ∧
            SavedReadable refreshTime (some (.dict d)) := by
        simp [SavedReadable, or_imp, forall_and]
      rw [loadTargets, hcons]
      rcases loadItems_cases l st with ⟨st', hload, htable, hall⟩ | ⟨hload, e, he, hno⟩
      · rw [hload]
        refine (ih _).imp (fun ⟨st'', hst, hfind, hread⟩ =>
            ⟨st'', hst, fun target => ?_, hall, hread⟩)
          fun ⟨hst, hread⟩ => ⟨hst, fun h => hread h.2⟩
        rw [hfind, htable, savedIn]
        by_cases hkey : key.take 20 = target
        · subst hkey
          cases hfind : st.table.find? (key.take 20) with
          | _ => simp [StdMap.contains, hfind]
        · by_cases hc : st.table.contains (key.take 20) = true
          · rw [if_pos hc, if_neg hkey]
          · rw [if_neg hc, if_neg hkey, StdMap.find?_insert, if_neg (Ne.symm hkey)]
      · rw [hload]
        exact Or.inr ⟨rfl, fun h => h.1 e he hno⟩
    | _ => simpa [loadTargets, savedIn, SavedReadable] using ih st

end Saved

/-! ### A list of one item -/

/-- The number of an item that has one. -/
def DhtStorageItem.number (item : DhtStorageItem) : ℤ := item.seq.getD 0

section

variable {n : ℤ} {target : Bytes} {puts order : List (AcceptedPut target false)}

lemma DhtStorageItem.number_eq {item : DhtStorageItem} (h : item.seq = some n) :
    item.number = n := by
  rw [number, h, Option.getD_some]

def cutSeq (n : ℤ) : ℤ := (Int32.ofInt n).toInt

lemma cutSeq_le (h : 0 ≤ n) : cutSeq n ≤ n := by
  have hsize : (Int32.size : ℤ) = 2 ^ 32 := rfl
  rw [cutSeq, Int32.toInt_ofInt, Int.bmod_def, hsize]
  split_ifs <;> omega

lemma replaceOlder_length {item : DhtStorageItem} {seq : Int32} {l : List DhtStorageItem}
    {r : Bool × List DhtStorageItem} (h : replaceOlder item seq l = some r) :
    r.2.length = l.length := by
  induction l generalizing r with
  | nil =>
    cases h
    rfl
  | cons old rest ih =>
    rw [replaceOlder] at h
    cases hseq : old.seq with
    | none =>
      rw [hseq] at h
      cases h
    | some n =>
      simp only [hseq] at h
      split_ifs at h
      · obtain ⟨r', hr', rfl⟩ := Option.map_eq_some_iff.mp h
        simp [ih hr']
      · cases h
        rfl

namespace AcceptedPut

lemma item_seq (a : AcceptedPut target false) : a.item.seq = some a.req.seq ∧ 0 ≤ a.req.seq := by
  obtain ⟨items, h⟩ := checkPut_keeps a.checked
  exact h.seq a.multi_eq

lemma item_number (a : AcceptedPut target false) : a.item.number = a.req.seq :=
  number_eq a.item_seq.1

lemma cutSeq_number_le (l : List (AcceptedPut target false)) :
    ∀ y ∈ l.map item, cutSeq y.number ≤ y.number := by
  intro y hy
  obtain ⟨a, -, rfl⟩ := mem_map.mp hy
  rw [a.item_number]
  exact cutSeq_le a.item_seq.2

lemma store_cell (a : AcceptedPut target false) (hs : ∀ x ∈ s, x.seq ≠ none) :
    a.store (s.map fun x => [x]) =
      (Latest.step number cutSeq s a.item).map fun x => [x] := by
  cases s with
  | none => rfl
  | some x =>
    obtain ⟨n, hn⟩ := Option.ne_none_iff_exists'.mp (hs x rfl)
    have hfresh : Latest.Fresh number cutSeq (some x) a.item ↔
        n < (Int32.ofInt a.req.seq).toInt := by
      simp [Latest.Fresh, number_eq hn, a.item_number, cutSeq]
    rw [Option.map_some, store, storeInList]
    simp only [reverse_singleton, replaceOlder, hn, Bool.false_eq_true, if_false]
    by_cases hlt : n < (Int32.ofInt a.req.seq).toInt
    · rw [Latest.step_of_fresh (hfresh.mpr hlt), if_pos hlt]
      rfl
    · rw [Latest.step_of_not_fresh (mt hfresh.mp hlt), if_neg hlt]
      rfl

lemma storeAll_cell (l : List (AcceptedPut target false)) (hs : ∀ x ∈ s, x.seq ≠ none) :
    storeAll (s.map fun x => [x]) l =
      some (((l.map item).foldl (Latest.step number cutSeq) s).map fun x => [x]) := by
  induction l generalizing s with
  | nil => rfl
  | cons a l ih =>
    have hstep : ∀ x ∈ Latest.step number cutSeq s a.item, x.seq ≠ none := by
      intro x hx
      by_cases hfresh : Latest.Fresh number cutSeq s a.item
      · rw [Latest.step_of_fresh hfresh] at hx
        cases hx
        rw [a.item_seq.1]
        simp
      · rw [Latest.step_of_not_fresh hfresh] at hx
        exact hs x hx
    obtain ⟨y, hy⟩ := Option.isSome_iff_exists.mp
      (Latest.step_isSome (f := number) (c := cutSeq) (s := s) a.item)
    have ih := ih hstep
    rw [hy, Option.map_some] at ih
    rw [storeAll, a.store_cell hs, hy, Option.map_some, Option.bind_some, ih, map_cons,
      foldl_cons, hy]

lemma storeAll_length {l : List (AcceptedPut target false)} {lsto : List DhtStorageItem}
    {r : Option (List DhtStorageItem)} (hlen : lsto.length ≠ 1) (h : storeAll (some lsto) l = some r) :
    ∃ lsto', r = some lsto' ∧ lsto'.length ≠ 1 := by
  induction l generalizing lsto with
  | nil =>
    cases h
    exact ⟨lsto, rfl, hlen⟩
  | cons a l ih =>
    rw [storeAll, Option.bind_eq_some_iff] at h
    obtain ⟨lsto', hstore, h⟩ := h
    refine ih ?_ h
    rw [store, storeInList] at hstore
    simp only [Bool.false_eq_true, if_false, Option.map_map, Option.map_eq_some_iff] at hstore
    obtain ⟨r', hr', rfl⟩ := hstore
    have hlen' := replaceOlder_length hr'
    simp only [Function.comp_apply, length_take, length_reverse] at hlen' ⊢
    rw [hlen', maxEntriesPerMulti]
    omega

lemma storeAll_unnumbered (a : AcceptedPut target false) (l : List (AcceptedPut target false))
    {x : DhtStorageItem} (hx : x.seq = none) : storeAll (some [x]) (a :: l) = none := by
  rw [storeAll, store, storeInList]
  simp [replaceOlder, hx]

end AcceptedPut

/-! ### What is kept for a target -/

section Kept

variable (V : ChainView) (refreshTime : Entry → ℤ) (saved : Option Entry) (nextRefresh : ℤ)

/-- The list of a target after a saved table was read and requests have come, if the program has
not ended and there is one. -/
def storedAfter (target : Bytes) (puts : List (DhtContext × Bytes)) :
    Option (List DhtStorageItem) :=
  ((loadStorage V refreshTime saved (.fresh nextRefresh)).bind fun st => putAll st puts).bind
    fun st => st.table.find? target

/-- The items a target might keep: those saved, if they have not expired, and those of requests. -/
def storeCandidates (puts : List (AcceptedPut target false)) : List DhtStorageItem :=
  (savedFor V refreshTime target saved).getD [] ++ puts.map AcceptedPut.item

/-- An item with the greatest number. -/
def DhtStorageItem.IsNewest (item : DhtStorageItem) (l : List DhtStorageItem) : Prop :=
  item ∈ l ∧ ∃ n, item.seq = some n ∧ ∀ x ∈ l, ∀ k ∈ x.seq, k ≤ n

/-- One item is kept, one with the greatest number, and if no two requests have the same number it
does not depend on their order. -/
def KeepsNewest (puts : List (AcceptedPut target false)) : Prop :=
  storeCandidates V refreshTime saved puts ≠ [] →
    (∀ order : List (AcceptedPut target false), order.Perm puts → ∃ item,
      storedAfter V refreshTime saved nextRefresh target (order.map message) =
        some [item] ∧ item.IsNewest (storeCandidates V refreshTime saved puts)) ∧
    ((puts.map fun a => a.req.seq).Nodup → ∃ item,
      ∀ order : List (AcceptedPut target false), order.Perm puts →
        storedAfter V refreshTime saved nextRefresh target (order.map message) =
          some [item])

variable {V refreshTime saved nextRefresh}

variable (V refreshTime saved nextRefresh) in
lemma loadStorage_cases : (∃ st, loadStorage V refreshTime saved (.fresh nextRefresh) = some st ∧
        (∀ target, st.table.find? target = savedFor V refreshTime target saved) ∧
        SavedReadable refreshTime saved) ∨
      loadStorage V refreshTime saved (.fresh nextRefresh) = none ∧
        ¬ SavedReadable refreshTime saved := by
  rcases saved with _ | ⟨_ | _ | _ | _ | _⟩
  case some.dict d => exact loadTargets_cases d _
  all_goals exact Or.inl ⟨_, rfl, fun _ => rfl, trivial⟩

lemma storedAfter_of_readable (h : SavedReadable refreshTime saved)
    (l : List (AcceptedPut target false)) :
    storedAfter V refreshTime saved nextRefresh target (l.map message) =
      (storeAll (savedFor V refreshTime target saved) l).join := by
  obtain ⟨st, hst, hfind, -⟩ := (loadStorage_cases V refreshTime saved nextRefresh).resolve_right
    fun hno => hno.2 h
  rw [storedAfter, hst, Option.bind_some, ← hfind, ← putAll_find?]
  cases putAll st (l.map message) with
  | _ => rfl

lemma storedAfter_of_not_readable (h : ¬ SavedReadable refreshTime saved)
    (l : List (DhtContext × Bytes)) :
    storedAfter V refreshTime saved nextRefresh target l = none := by
  rcases loadStorage_cases V refreshTime saved nextRefresh with ⟨_, -, -, hread⟩ | ⟨hnone, -⟩
  · exact absurd hread h
  · rw [storedAfter, hnone]
    rfl

/-! ### When the newest item is kept -/

/-- No list is saved for the target, or one with a single item, which has a number. -/
def SavedSingle (lsto : Option (List DhtStorageItem)) : Prop :=
  ∃ s : Option DhtStorageItem, lsto = s.map (fun x => [x]) ∧ ∀ x ∈ s, x.seq ≠ none

/-- The number of a request, cut to 32 bits, is above that of the saved item. -/
def AcceptedPut.Replaces (a : AcceptedPut target false) (lsto : Option (List DhtStorageItem)) :
    Prop :=
  ∀ x ∈ lsto.getD [], ∀ n ∈ x.seq, n < cutSeq a.req.seq

/-- Where the greatest number is that of a request, it is still above every smaller number when it
is cut to 32 bits: that of the saved item, and those of the requests that replace it. -/
def NewestReplaces (lsto : Option (List DhtStorageItem)) (puts : List (AcceptedPut target false)) :
    Prop :=
  ∀ m ∈ puts, (∀ a ∈ puts, a.req.seq ≤ m.req.seq) →
    (∀ x ∈ lsto.getD [], ∀ n ∈ x.seq, n < m.req.seq) →
      m.Replaces lsto ∧
        ∀ a ∈ puts, a.Replaces lsto → a.req.seq < m.req.seq → a.req.seq < cutSeq m.req.seq

lemma forall_seq_lt_iff (hs : ∀ x ∈ s, x.seq ≠ none) (k : ℤ) :
    (∀ x ∈ (s.map fun x => [x]).getD [], ∀ n ∈ x.seq, n < k) ↔ ∀ x ∈ s, x.number < k := by
  cases s with
  | none => simp
  | some x =>
    obtain ⟨n, hn⟩ := Option.ne_none_iff_exists'.mp (hs x rfl)
    simp [number, hn]

lemma newestReplaces_iff (hs : ∀ x ∈ s, x.seq ≠ none) (puts : List (AcceptedPut target false)) :
    NewestReplaces (s.map fun x => [x]) puts ↔
      ∀ l : List DhtStorageItem, l.Perm (puts.map AcceptedPut.item) →
        ∀ z ∈ l.foldl (Latest.step number cutSeq) s,
          ∀ y ∈ puts.map AcceptedPut.item, y.number ≤ z.number := by
  rw [Latest.forall_perm_iff (cutSeq_number_le puts)]
  simp only [NewestReplaces, AcceptedPut.Replaces, Latest.Fresh, forall_seq_lt_iff hs,
    forall_mem_map, item_number]

lemma savedSingle_of_stored {lsto : Option (List DhtStorageItem)}
    {l : List (AcceptedPut target false)} {item : DhtStorageItem}
    (h : (storeAll lsto l).join = some [item]) (hseq : item.seq ≠ none) :
    SavedSingle lsto := by
  rw [Option.join_eq_some_iff] at h
  cases lsto with
  | none => exact ⟨none, rfl, by simp⟩
  | some lsto =>
    have hlen : lsto.length = 1 := by
      by_contra hlen
      obtain ⟨lsto', heq, hlen'⟩ := storeAll_length hlen h
      cases heq
      exact hlen' rfl
    obtain ⟨x, rfl⟩ := length_eq_one_iff.mp hlen
    refine ⟨some x, rfl, ?_⟩
    rintro _ ⟨⟩ hx
    cases l with
    | nil =>
      cases h
      exact hseq hx
    | cons a l =>
      rw [storeAll_unnumbered a l hx] at h
      cases h

lemma storedAfter_cell (hread : SavedReadable refreshTime saved)
    (hsaved : savedFor V refreshTime target saved = s.map fun x => [x]) (hs : ∀ x ∈ s, x.seq ≠ none)
    (l : List (AcceptedPut target false)) :
    storedAfter V refreshTime saved nextRefresh target (l.map message) =
      ((l.map AcceptedPut.item).foldl (Latest.step number cutSeq) s).map
        fun x => [x] := by
  rw [storedAfter_of_readable hread, hsaved, storeAll_cell l hs]
  rfl

lemma isNewest_of_cell {z : DhtStorageItem}
    (hsaved : savedFor V refreshTime target saved = s.map fun x => [x]) (hs : ∀ x ∈ s, x.seq ≠ none)
    (hperm : order.Perm puts)
    (hz : (order.map AcceptedPut.item).foldl (Latest.step number cutSeq) s = some z)
    (hmax : ∀ a ∈ puts, a.req.seq ≤ z.number) :
    z.IsNewest (storeCandidates V refreshTime saved puts) := by
  have hcut := cutSeq_number_le order
  have hmem : ∀ x, x ∈ storeCandidates V refreshTime saved puts ↔
      x ∈ s ∨ x ∈ puts.map AcceptedPut.item := by
    intro x
    rw [storeCandidates, hsaved, mem_append]
    cases s <;> simp [eq_comm]
  have hkept : (z ∈ s ∨ z ∈ puts.map AcceptedPut.item) ∧ z.seq ≠ none := by
    rcases Latest.foldl_cases (s := s) hcut with h | ⟨z', hz', h, -⟩
    · have hzs : z ∈ s := h ▸ hz
      exact ⟨Or.inl hzs, hs z hzs⟩
    · obtain rfl : z' = z := Option.some.inj (h.symm.trans hz)
      obtain ⟨a, ha, rfl⟩ := mem_map.mp hz'
      refine ⟨Or.inr (mem_map_of_mem (hperm.mem_iff.mp ha)), ?_⟩
      rw [a.item_seq.1]
      simp
  obtain ⟨n, hn⟩ := Option.ne_none_iff_exists'.mp hkept.2
  refine ⟨(hmem z).mpr hkept.1, n, hn, fun x hx k hk => ?_⟩
  rw [← number_eq hn, ← number_eq hk]
  rcases (hmem x).mp hx with hx | hx
  · exact Latest.le_foldl hcut hx hz
  · obtain ⟨a, ha, rfl⟩ := mem_map.mp hx
    rw [a.item_number]
    exact hmax a ha

lemma exists_cell_of_candidates (hsaved : savedFor V refreshTime target saved =
      s.map fun x => [x]) (hcand : storeCandidates V refreshTime saved puts ≠ [])
    (hperm : order.Perm puts) :
    ∃ z, (order.map AcceptedPut.item).foldl (Latest.step number cutSeq) s =
      some z := by
  refine Option.isSome_iff_exists.mp ?_
  cases s with
  | some x => exact Latest.foldl_isSome rfl
  | none =>
    cases puts with
    | nil => exact absurd (by rw [storeCandidates, hsaved]; rfl) hcand
    | cons a puts =>
      have ha : a ∈ order := hperm.mem_iff.mpr mem_cons_self
      exact Latest.foldl_isSome_of_mem (mem_map_of_mem ha)

/-- **A single resource keeps the newest item** if and only if the saved table can be read, a saved
list of the target has exactly one item that has not expired, with a number, and the number of the
newest request is not cut below an older one. -/
theorem keepsNewest_iff (V : ChainView) (refreshTime : Entry → ℤ) (saved : Option Entry)
    (nextRefresh : ℤ) {target : Bytes} (puts : List (AcceptedPut target false)) :
    KeepsNewest V refreshTime saved nextRefresh puts ↔
      storeCandidates V refreshTime saved puts = [] ∨
        SavedReadable refreshTime saved ∧ SavedSingle (savedFor V refreshTime target saved) ∧
          NewestReplaces (savedFor V refreshTime target saved) puts := by
  by_cases hcand : storeCandidates V refreshTime saved puts = []
  · exact ⟨fun _ => Or.inl hcand, fun _ h => absurd hcand h⟩
  rw [KeepsNewest, or_iff_right hcand]
  constructor
  · intro h
    obtain ⟨h, -⟩ := h hcand
    obtain ⟨item, hstored, -, n, hn, -⟩ := h puts (.refl puts)
    have hread : SavedReadable refreshTime saved := by
      by_contra hno
      rw [storedAfter_of_not_readable hno] at hstored
      cases hstored
    rw [storedAfter_of_readable hread] at hstored
    have hsingle := savedSingle_of_stored hstored (by simp [hn])
    refine ⟨hread, hsingle, ?_⟩
    obtain ⟨s, hsaved, hs⟩ := hsingle
    rw [hsaved, newestReplaces_iff hs]
    intro l hl z hz y hy
    -- an order of the items is that of an order of the requests
    have hl' : Relation.Comp (fun l order => l = order.map AcceptedPut.item) List.Perm l puts := by
      rw [eq_map_comp_perm]
      exact hl
    obtain ⟨order, rfl, hperm⟩ := hl'
    obtain ⟨item, hstored, -, n, hn, hmax⟩ := h order hperm
    rw [storedAfter_cell hread hsaved hs, Option.mem_def.mp hz] at hstored
    cases hstored
    obtain ⟨a, ha, rfl⟩ := mem_map.mp hy
    rw [a.item_number, number_eq hn]
    exact hmax a.item (by simp [storeCandidates, mem_map_of_mem ha]) a.req.seq a.item_seq.1
  · rintro ⟨hread, ⟨s, hsaved, hs⟩, hbeats⟩ -
    rw [hsaved, newestReplaces_iff hs] at hbeats
    constructor
    · intro order hperm
      obtain ⟨z, hz⟩ := exists_cell_of_candidates hsaved hcand hperm
      refine ⟨z, by rw [storedAfter_cell hread hsaved hs, hz, Option.map_some],
        isNewest_of_cell hsaved hs hperm hz fun a ha => ?_⟩
      rw [← a.item_number]
      exact hbeats _ (hperm.map _) z hz _ (mem_map_of_mem ha)
    · intro hnodup
      obtain ⟨z, hz⟩ := exists_cell_of_candidates hsaved hcand (.refl puts)
      have hinj : ∀ y ∈ puts.map AcceptedPut.item, ∀ z ∈ puts.map AcceptedPut.item,
          y.number = z.number → y = z := by
        intro y hy z hz heq
        obtain ⟨a, ha, rfl⟩ := mem_map.mp hy
        obtain ⟨b, hb, rfl⟩ := mem_map.mp hz
        rw [a.item_number, b.item_number] at heq
        rw [inj_on_of_nodup_map hnodup ha hb heq]
      refine ⟨z, fun order hperm => ?_⟩
      rw [storedAfter_cell hread hsaved hs, Latest.foldl_unique (cutSeq_number_le puts)
        hinj hbeats (hperm.map _) (.refl _), hz, Option.map_some]

end Kept

end

namespace Toy

def photoTarget : Bytes := (ascii "d1:n3:bob1:r5:photo1:t1:se").take 20

def photo (seq height : String) : String :=
  "d6:heighti" ++ height ++ "e3:seqi" ++ seq ++
    "e6:targetd1:n3:bob1:r5:photo1:t1:se4:timei1e1:v1:xe"

def photoPut (seq : String) : Bytes :=
  ascii ("d1:q7:putData1:t2:aa1:xd2:id20:aaaaaaaaaaaaaaaaaaaa1:p" ++ photo seq "5000" ++
    "5:sig_p4:good8:sig_user3:bob5:token1:te1:z1:qe")

lemma checkPut_photo :
    (checkPut keeper (photoPut "1")).toOption.map (fun req => (req.target, req.multi, req.seq)) =
        some (photoTarget, false, 1) ∧
      (checkPut keeper (photoPut "4294967296")).toOption.map
          (fun req => (req.target, req.multi, req.seq)) =
        some (photoTarget, false, 4294967296) := by
  simp only [photoPut, photo, photoTarget, ascii_append]
  repeat rw [ascii_ofList]
  decide +kernel

def firstPhoto : AcceptedPut photoTarget false := .ofCheck checkPut_photo.1 rfl

/-- A later one, with a number that is zero in 32 bits. -/
def secondPhoto : AcceptedPut photoTarget false := .ofCheck checkPut_photo.2 rfl

lemma firstPhoto_seq : firstPhoto.req.seq = 1 := by
  exact ofCheck_req (f := PutRequest.seq) checkPut_photo.1 rfl

lemma secondPhoto_seq : secondPhoto.req.seq = 4294967296 := by
  exact ofCheck_req (f := PutRequest.seq) checkPut_photo.2 rfl

def expiredTable : Entry :=
  .dict [(photoTarget, .list [.dict [(ascii "p", .string (ascii (photo "0" "1"))),
    (ascii "sig_p", .string (ascii "good")), (ascii "sig_user", .string (ascii "bob"))]])]

lemma savedFor_expiredTable :
    savedFor keeperView (fun _ => 0) photoTarget (some expiredTable) = some [] := by
  decide +kernel

lemma expiredTable_readable : SavedReadable (fun _ => 0) (some expiredTable) := by
  intro key l hkey e he
  simp only [mem_singleton, Prod.mk.injEq, Entry.list.injEq] at hkey
  obtain ⟨-, rfl⟩ := hkey
  rw [mem_singleton.mp he]
  decide +kernel

end Toy

open Toy in
/-- A greater number that is smaller in 32 bits does not replace the item, and where the saved item
of a target has expired no request is kept at all. -/
theorem not_keepsNewest_photo :
    ¬ KeepsNewest keeperView (fun _ => 0) none 0 [firstPhoto, secondPhoto] ∧
      ¬ KeepsNewest keeperView (fun _ => 0) (some expiredTable) 0 [firstPhoto] := by
  constructor
  · intro h
    obtain ⟨item, hstored, -, n, hn, hmax⟩ := (h (by simp [storeCandidates])).1 _ (.refl _)
    have hread : SavedReadable (fun _ => 0) none := trivial
    have hkept : [firstPhoto.item, secondPhoto.item].foldl
        (Latest.step number cutSeq) none = some firstPhoto.item := by
      have hcut : cutSeq 4294967296 = 0 := by decide
      simp [Latest.step, item_number, firstPhoto_seq, secondPhoto_seq, hcut]
    rw [storedAfter_cell (s := none) hread rfl (by simp), map_cons, map_singleton,
      hkept] at hstored
    obtain rfl : firstPhoto.item = item := by simpa using hstored
    rw [firstPhoto.item_seq.1, firstPhoto_seq] at hn
    have hle := hmax secondPhoto.item (by simp [storeCandidates]) _ secondPhoto.item_seq.1
    rw [secondPhoto_seq, ← Option.some.inj hn] at hle
    omega
  · intro h
    obtain ⟨item, hstored, -⟩ := (h (by simp [storeCandidates])).1 _ (.refl _)
    rw [storedAfter_of_readable expiredTable_readable, savedFor_expiredTable,
      Option.join_eq_some_iff] at hstored
    obtain ⟨lsto, heq, hlen⟩ := storeAll_length (by simp) hstored
    cases heq
    exact hlen rfl

end FreechCore
