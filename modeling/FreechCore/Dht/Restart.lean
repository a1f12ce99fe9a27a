import FreechCore.Dht.Newest

/-!
The table of items over a restart. What is saved is read back item by item, without those that have
expired; but a target is entered into the table even if none of its items is left.
-/

namespace FreechCore

open StdMap
open List hiding find?

/-! ### One item -/

/-- An item without the time of its next refresh, which is not saved. -/
def DhtStorageItem.forgetRefresh (item : DhtStorageItem) : DhtStorageItem :=
  { item with nextRefreshTime := 0 }

lemma savedItem_saveItem (refreshTime : ℤ) (item : DhtStorageItem) :
    savedItem refreshTime (saveItem item) = some { item with nextRefreshTime := refreshTime } := by
  obtain ⟨p, sigP, sigUser, t, confirmed, next⟩ := item
  by_cases ht : t = 0 <;> cases confirmed <;>
    simp +decide [savedItem, saveItem, Entry.findKey, look_put, ht, look]

variable {V : ChainView} {refreshTime : Entry → ℤ}

/-- The items of a list that are still good. -/
def unexpired (V : ChainView) (lsto : List DhtStorageItem) : List DhtStorageItem :=
  lsto.filter fun item => !hasExpired V item false

lemma savedItems_saved (lsto : List DhtStorageItem) : savedItems V refreshTime (lsto.map saveItem) =
      (unexpired V lsto).map fun item =>
        { item with nextRefreshTime := refreshTime (saveItem item) } := by
  induction lsto with
  | nil => rfl
  | cons item lsto ih =>
    have hexp : hasExpired V { item with nextRefreshTime := refreshTime (saveItem item) } false =
        hasExpired V item false := rfl
    unfold savedItems unexpired at ih ⊢
    rw [map_cons, filterMap_cons, savedItem_saveItem]
    rw [filter_cons, filter_cons, ih, hexp]
    split_ifs
    · rfl
    · rfl

/-! ### The table -/

lemma savedIn_of_look {d : List (Bytes × Entry)}
    (h : ∀ key v, (key, v) ∈ d → key.length = 20 ∧ ∃ l, v = .list l) (target : Bytes) :
    savedIn V refreshTime target d = (look target d).bind fun
      | .list l => some (savedItems V refreshTime l)
      | _ => none := by
  induction d with
  | nil => rfl
  | cons x d ih =>
    obtain ⟨key, v⟩ := x
    obtain ⟨hlen, l, rfl⟩ := h key v mem_cons_self
    have ih := ih fun key v hkey => h key v (mem_cons_of_mem _ hkey)
    have htake : key.take 20 = key := take_of_length_le hlen.le
    rw [savedIn, look, htake, ih]
    by_cases hk : key = target
    · rw [if_pos hk, if_pos hk.symm]
      rfl
    · rw [if_neg hk, if_neg (Ne.symm hk)]

/-- What is saved under a target. -/
def savedUnder (lsto : List DhtStorageItem) : Option Entry :=
  if lsto = [] then none else some (.list (lsto.map saveItem))

section Save

variable (table : StdMap Bytes (List DhtStorageItem))

lemma saveStorage_eq : (saveStorage table).2 =
    (table.entries.filter fun x => x.2 ≠ []).map fun x => (x.1, .list (x.2.map saveItem)) := by
  have hfold : ∀ (l : List (Bytes × List DhtStorageItem)) (save : Bool × List (Bytes × Entry)),
      (l.foldl saveTarget save).2 = l.foldl (fun d x =>
        if x.2 ≠ [] then put x.1 (.list (x.2.map saveItem)) d else d) save.2 := by
    intro l
    induction l with
    | nil => exact fun save => rfl
    | cons x l ih =>
      intro save
      rw [foldl_cons, foldl_cons, ih]
      congr 1
      by_cases hx : x.2 = [] <;> simp [saveTarget, hx]
  rw [saveStorage, hfold]
  exact foldl_put_if (fun lsto => lsto ≠ []) (fun lsto => Entry.list (lsto.map saveItem))
    table.sorted

lemma saveStorage_sorted : (saveStorage table).2.Pairwise fun a b => a.1 < b.1 := by
  rw [saveStorage_eq]
  exact pairwise_map.mpr (table.sorted.filter _)

lemma look_saveStorage (target : Bytes) :
    look target (saveStorage table).2 = (table.find? target).bind savedUnder := by
  have hmap := look_map (fun lsto => Entry.list (lsto.map saveItem)) target
    (table.entries.filter fun x => x.2 ≠ [])
  rw [saveStorage_eq, hmap, look_filter_of_sorted table.sorted, find?]
  cases look target table.entries with
  | none => rfl
  | some lsto => by_cases hne : lsto = [] <;> simp [savedUnder, hne]

variable {table}

lemma mem_saveStorage {key : Bytes} {v : Entry} (h : (key, v) ∈ (saveStorage table).2) :
    ∃ lsto, table.find? key = some lsto ∧ v = .list (lsto.map saveItem) := by
  rw [← look_eq_some_iff (saveStorage_sorted table), look_saveStorage, Option.bind_eq_some_iff] at h
  obtain ⟨lsto, hfind, hv⟩ := h
  unfold savedUnder at hv
  split_ifs at hv
  exact ⟨lsto, hfind, (Option.some.inj hv).symm⟩

variable (V refreshTime) in
/-- What a restart leaves: the items that have not expired, and an entry for every target that
had items. -/
lemma loadStorage_saveStorage (hkeys : ∀ key ∈ table.keys, key.length = 20) (nextRefresh : ℤ) :
    ∃ st, loadStorage V refreshTime (some (.dict (saveStorage table).2)) (.fresh nextRefresh) =
        some st ∧
      ∀ target, st.table.find? target = (table.find? target).bind fun lsto =>
        if lsto = [] then none
        else some ((unexpired V lsto).map fun item =>
          { item with nextRefreshTime := refreshTime (saveItem item) }) := by
  have hread : SavedReadable refreshTime (some (.dict (saveStorage table).2)) := by
    intro key l hkey e he
    obtain ⟨lsto, -, hl⟩ := mem_saveStorage hkey
    cases hl
    obtain ⟨item, -, rfl⟩ := mem_map.mp he
    simp [savedItem_saveItem]
  have hlists : ∀ key v, (key, v) ∈ (saveStorage table).2 → key.length = 20 ∧ ∃ l, v = .list l := by
    intro key v hkey
    obtain ⟨lsto, hfind, rfl⟩ := mem_saveStorage hkey
    exact ⟨hkeys key (mem_keys_iff.mpr (by simp [hfind])), _, rfl⟩
  obtain ⟨st, hst, hfind, -⟩ := (loadStorage_cases V refreshTime _ nextRefresh).resolve_right
    fun hno => hno.2 hread
  refine ⟨st, hst, fun target => ?_⟩
  rw [hfind, savedFor, savedIn_of_look hlists, look_saveStorage, Option.bind_assoc]
  congr 1
  funext lsto
  unfold savedUnder
  split_ifs
  · rfl
  · rw [Option.bind_some, ← savedItems_saved]

/-! ### What survives -/

/-- A table after a restart: per target and in order the items that have not expired, and no target
without items. -/
def Survives (V : ChainView) (table table' : StdMap Bytes (List DhtStorageItem)) : Prop :=
  (∀ target, ((table'.find? target).getD []).map DhtStorageItem.forgetRefresh =
    (unexpired V ((table.find? target).getD [])).map DhtStorageItem.forgetRefresh) ∧
  ∀ target, table'.find? target ≠ some []

/-- **The table survives a restart** if and only if every target with items has one that has not
expired when the table is read. -/
theorem survives_restart_iff (hkeys : ∀ key ∈ table.keys, key.length = 20) (nextRefresh : ℤ) :
    (∃ st, loadStorage V refreshTime (some (.dict (saveStorage table).2)) (.fresh nextRefresh) =
        some st ∧ Survives V table st.table) ↔
      ∀ target lsto, table.find? target = some lsto → lsto ≠ [] →
        ∃ item ∈ lsto, hasExpired V item false = false := by
  obtain ⟨st, hst, hfind⟩ := loadStorage_saveStorage V refreshTime hkeys nextRefresh
  have hempty : (∀ target, st.table.find? target ≠ some []) ↔
      ∀ target lsto, table.find? target = some lsto → lsto ≠ [] →
        ∃ item ∈ lsto, hasExpired V item false = false := by
    refine forall_congr' fun target => ?_
    rw [hfind]
    cases table.find? target with
    | none => simp
    | some lsto => by_cases hne : lsto = [] <;> simp [hne, unexpired]
  have hitems : ∀ target, ((st.table.find? target).getD []).map DhtStorageItem.forgetRefresh =
      (unexpired V ((table.find? target).getD [])).map DhtStorageItem.forgetRefresh := by
    intro target
    rw [hfind]
    cases table.find? target with
    | none => rfl
    | some lsto =>
      by_cases hne : lsto = []
      · simp [hne, unexpired]
      · simp [hne, DhtStorageItem.forgetRefresh]
  rw [← hempty]
  constructor
  · rintro ⟨st', hst', -, hne⟩
    rwa [Option.some.inj (hst.symm.trans hst')]
  · exact fun hne => ⟨st, hst, hitems, hne⟩

end Save

namespace Toy

/-- A table with a single item, of some height. -/
def photoTable (height : String) : StdMap Bytes (List DhtStorageItem) :=
  StdMap.empty.insert photoTarget
    [⟨ascii (photo "0" height), ascii "good", ascii "bob", 0, true, 0⟩]

lemma photoTable_keys (height : String) : ∀ key ∈ (photoTable height).keys, key.length = 20 := by
  have hkeys : (photoTable height).keys = [photoTarget] := rfl
  rw [hkeys]
  decide

lemma photoTable_good (target : Bytes) (lsto : List DhtStorageItem)
    (h : (photoTable "5000").find? target = some lsto) :
    ∃ item ∈ lsto, hasExpired keeperView item false = false := by
  rw [photoTable, find?_insert, find?_empty] at h
  split_ifs at h
  cases h
  exact ⟨_, mem_singleton.mpr rfl, by decide +kernel⟩

end Toy

open Toy in
/-- A new item survives. -/
theorem survives_restart_newPhoto :
    ∃ st, loadStorage keeperView (fun _ => 0) (some (.dict (saveStorage (photoTable "5000")).2))
        (.fresh 0) = some st ∧ Survives keeperView (photoTable "5000") st.table :=
  (survives_restart_iff (photoTable_keys "5000") 0).mpr
    fun target lsto h _ => photoTable_good target lsto h

open Toy in
/-- Where the only item of a target has expired, the table has a target without items. -/
theorem not_survives_restart_oldPhoto :
    ∃ st, loadStorage keeperView (fun _ => 0) (some (.dict (saveStorage (photoTable "1")).2))
        (.fresh 0) = some st ∧ st.table.find? photoTarget = some [] ∧
      ¬ Survives keeperView (photoTable "1") st.table := by
  obtain ⟨st, hst, hfind⟩ := loadStorage_saveStorage keeperView (fun _ => 0)
    (photoTable_keys "1") 0
  have hexp : unexpired keeperView
      [⟨ascii (photo "0" "1"), ascii "good", ascii "bob", 0, true, 0⟩] = [] := by decide +kernel
  have hnone : st.table.find? photoTarget = some [] := by
    rw [hfind, photoTable, find?_insert, if_pos rfl, Option.bind_some, if_neg (by simp), hexp]
    rfl
  exact ⟨st, hst, hnone, fun h => h.2 _ hnone⟩

end FreechCore
