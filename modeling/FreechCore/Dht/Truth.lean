import FreechCore.Dht.StoreList

/-!
Whether the answer of `storeDhtItem` is true: it is given before the list is cut, so an item may be
said to be stored and then dropped.
-/

namespace FreechCore

open List Option

def DhtStorage.Holds (st : DhtStorage) (target : Bytes) (item : DhtStorageItem) : Prop :=
  ∃ lsto, st.table.find? target = some lsto ∧ item ∈ lsto

/-- The call returns, and says that the item was stored exactly if it is in the list. -/
def SaysTruth (item : DhtStorageItem) (target : Bytes) (multi : Bool) (seq height : Int32)
    (bufv : Bytes) (st : DhtStorage) : Prop :=
  ∃ stored st', storeDhtItem item target multi seq height bufv st = some (stored, st') ∧
    (stored = true ↔ st'.Holds target item)

/-- A multiple resource: every item behind the last one with the same value has a value, and the
value is there already, or there is room for it, or it belongs before one of the first items. -/
def MultiHasRoom (height : Int32) (bufv : Bytes) (lsto : List DhtStorageItem) : Prop :=
  (∀ l₁ x l₂, lsto = l₁ ++ x :: l₂ → (∀ y ∈ l₂, y.Other bufv) → x.bufv ≠ none) ∧
    ((∃ x ∈ lsto, x.bufv = some bufv) ∨ lsto.length < maxEntriesPerMulti ∨
      ∃ x ∈ lsto.take maxEntriesPerMulti, x.height ≤ height.toInt)

/-- A single resource: every item behind the last one that is not older has a number, and either
the last item is not older or all items are that are about to be cut off, with the one before. -/
def SingleHasRoom (seq : Int32) (lsto : List DhtStorageItem) : Prop :=
  (∀ l₁ x l₂, lsto = l₁ ++ x :: l₂ → (∀ y ∈ l₂, y.Older seq) → x.seq ≠ none) ∧
    ((∀ x ∈ lsto.getLast?, ¬ x.Older seq) ∨ ∀ x ∈ lsto.drop (maxEntriesPerMulti - 1), x.Older seq)

section

variable {item : DhtStorageItem} {seq height : Int32} {bufv : Bytes} {l₁ l₂ : List DhtStorageItem}
  {st st' : DhtStorage} {stored : Bool}

section List

variable {lsto : List DhtStorageItem}

lemma storeInList_multi_iff (hnew : item ∉ lsto) :
    (∃ r, storeInList item true seq height bufv lsto = some r ∧ (r.1 = true ↔ item ∈ r.2)) ↔
      MultiHasRoom height bufv lsto := by
  rcases exists_last_not (·.Other bufv) lsto with h | ⟨l₁, x, l₂, rfl, h, hx⟩
  · -- the value is new
    have hno : ¬ ∃ x ∈ lsto, x.bufv = some bufv := by
      rintro ⟨x, hx, heq⟩
      obtain ⟨v, hv, hne⟩ := h x hx
      rw [hv] at heq
      exact hne (some.inj heq)
    have hval : ∀ l₁ x l₂, lsto = l₁ ++ x :: l₂ → (∀ y ∈ l₂, y.Other bufv) → x.bufv ≠ none := by
      rintro l₁ x l₂ rfl -
      exact (h x (by simp)).ne_none
    simp only [storeInList_other h, some.injEq, exists_eq_left', true_iff, MultiHasRoom,
      Capped.mem_take_orderedInsert _ hnew, hno, false_or]
    exact ⟨fun hroom => ⟨hval, hroom⟩, fun hroom => hroom.2⟩
  · rw [storeInList_stops h hx, MultiHasRoom, forall_scanned_iff (fun _ => (·.ne_none)) h hx]
    cases hb : x.bufv with
    | none => simp
    | some v =>
      -- the value is there already
      have hv : v = bufv := not_not.mp fun hne => hx ⟨v, hb, hne⟩
      have hmem : item ∉ (l₁ ++ x :: l₂).take maxEntriesPerMulti := fun h =>
        hnew (mem_of_mem_take h)
      refine iff_of_true ⟨_, rfl, iff_of_false Bool.false_ne_true hmem⟩ ⟨some_ne_none v, ?_⟩
      exact Or.inl ⟨x, by simp, hv ▸ hb⟩

lemma replaced_mem_take_iff (hnew : item ∉ l₁) (k : ℕ) :
    ((!l₂.isEmpty) = true ↔ item ∈ (l₁ ++ replicate l₂.length item).take k) ↔
      l₂ = [] ∨ l₁.length < k := by
  have htake : item ∉ l₁.take k := fun h => hnew (mem_of_mem_take h)
  cases l₂ with
  | nil => simp [htake]
  | cons x l₂ =>
    rw [length_cons, replicate_succ, take_append, mem_append, or_iff_right htake]
    cases hk : k - l₁.length with
    | zero =>
      simp only [take_zero, not_mem_nil, isEmpty_cons, reduceCtorEq, false_or]
      simp only [Bool.not_false, iff_false, not_true_eq_false, false_iff, not_lt]
      omega
    | succ j =>
      simp only [take_succ_cons, mem_cons, true_or, isEmpty_cons, reduceCtorEq, false_or]
      simp only [Bool.not_false, true_iff]
      omega

lemma room_iff {x : DhtStorageItem} (h : ∀ y ∈ l₂, y.Older seq) (hx : ¬ x.Older seq) (k : ℕ) :
    (∀ y ∈ (l₁ ++ x :: l₂).getLast?, ¬ y.Older seq) ∨ (∀ y ∈ (l₁ ++ x :: l₂).drop k, y.Older seq) ↔
      l₂ = [] ∨ l₁.length < k := by
  constructor
  · rintro (hlast | hdrop)
    · rcases l₂.eq_nil_or_concat' with rfl | ⟨l, y, rfl⟩
      · exact Or.inl rfl
      · have hend : l₁ ++ x :: (l ++ [y]) = (l₁ ++ x :: l) ++ [y] := by simp
        rw [hend, getLast?_concat] at hlast
        exact absurd (h y (by simp)) (hlast y rfl)
    · refine Or.inr (not_le.mp fun hle => hx (hdrop x ?_))
      rw [drop_append_of_le_length hle]
      simp
  · rintro (rfl | hlt)
    · refine Or.inl fun y hy => ?_
      obtain rfl : x = y := by simpa using hy
      exact hx
    · refine Or.inr fun y hy => h y ?_
      obtain ⟨j, rfl⟩ := Nat.exists_eq_add_of_lt hlt
      have hdrop : (l₁ ++ x :: l₂).drop (l₁.length + j + 1) = l₂.drop j := by
        rw [Nat.add_assoc, drop_length_add_append, drop_succ_cons]
      rw [hdrop] at hy
      exact mem_of_mem_drop hy

lemma storeInList_single_iff (hnew : item ∉ lsto) :
    (∃ r, storeInList item false seq height bufv lsto = some r ∧ (r.1 = true ↔ item ∈ r.2)) ↔
      SingleHasRoom seq lsto := by
  rcases exists_last_not (·.Older seq) lsto with h | ⟨l₁, x, l₂, rfl, h, hx⟩
  · -- all items are replaced
    have hstore := storeInList_older item height bufv [] h (by simp)
    refine ⟨fun _ => ⟨?_, Or.inr fun x hx => h x (mem_of_mem_drop hx)⟩, fun _ => ⟨_, hstore, ?_⟩⟩
    · rintro l₁ x l₂ rfl -
      exact (h x (by simp)).ne_none
    · exact (replaced_mem_take_iff List.not_mem_nil _).mpr (Or.inr (by decide))
  · rw [SingleHasRoom, forall_scanned_iff (fun _ => (·.ne_none)) h hx, room_iff h hx]
    cases hseq : x.seq with
    | none => simp [storeInList_noNumber h hseq]
    | some n =>
      -- the item at which the scan stops stays, with those before it
      have hle : seq.toInt ≤ n := by
        by_contra hlt
        exact hx ⟨n, hseq, not_le.mp hlt⟩
      have hstore := storeInList_older item height bufv (l₁ ++ [x]) h (by simp [hseq, hle])
      have hlist : l₁ ++ [x] ++ l₂ = l₁ ++ x :: l₂ := by simp
      rw [hlist] at hstore
      rw [hstore, and_iff_right (some_ne_none n)]
      simp only [some.injEq, exists_eq_left']
      rw [replaced_mem_take_iff fun hmem => hnew (by rw [← hlist]; exact mem_append_left _ hmem),
        length_append, length_singleton, Nat.lt_sub_iff_add_lt]

end List

/-- The item and the table a request finds leave room for it to be kept. -/
def HasRoom (target : Bytes) (multi : Bool) (seq height : Int32) (bufv : Bytes) (st : DhtStorage) :
    Prop :=
  ∀ lsto ∈ st.table.find? target,
    if multi then MultiHasRoom height bufv lsto else SingleHasRoom seq lsto

/-- **The answer is true** if and only if the target is new, or the scan meets no item that it
cannot read and the item is not among those that are then cut off. -/
theorem saysTruth_iff (item : DhtStorageItem) (target : Bytes) (multi : Bool) (seq height : Int32)
    (bufv : Bytes) (st : DhtStorage) (hnew : ¬ st.Holds target item) :
    SaysTruth item target multi seq height bufv st ↔ HasRoom target multi seq height bufv st := by
  unfold SaysTruth HasRoom DhtStorage.Holds storeDhtItem
  cases hfind : st.table.find? target with
  | none => simp
  | some lsto =>
    have hnew' : item ∉ lsto := fun hmem => hnew ⟨lsto, hfind, hmem⟩
    have hlist : (∃ r, storeInList item multi seq height bufv lsto = some r ∧
        (r.1 = true ↔ item ∈ r.2)) ↔
          if multi then MultiHasRoom height bufv lsto else SingleHasRoom seq lsto := by
      cases multi with
      | true => exact storeInList_multi_iff hnew'
      | false => exact storeInList_single_iff hnew'
    simp only [mem_some_iff, forall_eq', ← hlist]
    cases storeInList item multi seq height bufv lsto with
    | none => simp
    | some r => simp [Prod.ext_iff]

lemma storeDhtItem_statistics {target : Bytes} {multi : Bool}
    (h : storeDhtItem item target multi seq height bufv st = some (stored, st')) :
    st'.postsByUser = st.postsByUser ∧ st'.hashtagMessages = st.hashtagMessages := by
  unfold storeDhtItem at h
  split at h
  · cases h
    exact ⟨rfl, rfl⟩
  · obtain ⟨r, -, heq⟩ := map_eq_some_iff.mp h
    cases heq
    exact ⟨rfl, rfl⟩

/-- Where the answer is true, the statistics are changed only by items that are kept. -/
theorem holds_of_counted {ctx : DhtContext} {data : Bytes} {req : PutRequest}
    (hreq : checkPut ctx data = .ok req)
    (htruth : SaysTruth req.item req.target req.multi (Int32.ofInt req.seq)
      (Int32.ofInt req.height) req.bufv st) (hput : putData ctx data st = .done stored st')
    (hcounted : st'.postsByUser ≠ st.postsByUser ∨ st'.hashtagMessages ≠ st.hashtagMessages) :
    st'.Holds req.target req.item := by
  obtain ⟨ret, st₁, hstore, hiff⟩ := htruth
  unfold putData at hput
  simp only [hreq, hstore] at hput
  split_ifs at hput with hn hret
  · cases hput
    obtain ⟨lsto, hfind, hmem⟩ := hiff.mp hret
    exact ⟨lsto, by rw [processNewlyStoredEntry_table, hfind], hmem⟩
  · cases hput
    obtain ⟨h1, h2⟩ := storeDhtItem_statistics hstore
    exact absurd hcounted (by simp [h1, h2])

end

namespace Toy

def tagged (height : String) (v : UInt8) : DhtStorageItem where
  p := ascii "d6:heighti" ++ ascii height ++ ascii "e1:v1:" ++ [v] ++ ascii "e"
  sigP := ascii "good"
  sigUser := ascii "bob"
  localAddTime := 0
  confirmed := true
  nextRefreshTime := 0

def tagTarget : Bytes := ascii "tag"

def tagStorage (lsto : List DhtStorageItem) : DhtStorage :=
  { DhtStorage.fresh 0 with table := StdMap.empty.insert tagTarget lsto }

def fullList : List DhtStorageItem := (List.range 32).map fun i => tagged "9" (65 + UInt8.ofNat i)

end Toy

open Toy in
/-- A value of a lower height goes behind the one that is kept. -/
theorem saysTruth_tagged : ¬ (tagStorage [tagged "9" 65]).Holds tagTarget (tagged "5" 66) ∧
      SaysTruth (tagged "5" 66) tagTarget true 0 5 [49, 58, 66] (tagStorage [tagged "9" 65]) := by
  refine ⟨?new, (saysTruth_iff _ _ _ _ _ _ _ ?new).mpr ?_⟩
  · rintro ⟨lsto, hlsto, hmem⟩
    cases hlsto
    exact absurd hmem (by decide)
  intro lsto hlsto
  cases hlsto
  refine ⟨fun l₁ x l₂ heq _ => ?_, Or.inr (Or.inl (by decide))⟩
  have hx : x ∈ [tagged "9" 65] := by simp [show [tagged "9" 65] = _ from heq]
  rw [List.mem_singleton.mp hx]
  decide +kernel

open Toy in
/-- An old item is said to be stored in a full list, and is not in it. -/
theorem not_saysTruth_fullList :
    ¬ SaysTruth (tagged "1" 97) tagTarget true 0 1 [49, 58, 97] (tagStorage fullList) := by
  have h : (storeDhtItem (tagged "1" 97) tagTarget true 0 1 [49, 58, 97] (tagStorage fullList)).map
      (fun r => (r.1, (r.2.table.find? tagTarget).map fun l => decide (tagged "1" 97 ∈ l))) =
        some (true, some false) := by
    decide +kernel
  rintro ⟨stored, st', hstore, hiff⟩
  rw [hstore] at h
  simp only [map_some, some.injEq, Prod.mk.injEq] at h
  obtain ⟨lsto, hfind, hmem⟩ := hiff.mp h.1
  simp [hfind, hmem] at h

end FreechCore
