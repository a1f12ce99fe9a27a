import FreechCore.Bencode.Encode

/-!
Entries as JSON values and back. The way back cuts numbers to 32 bits and sorts the members of
an object by their names, and an entry without a value comes back as a text. So exactly the
entries that already have this shape come back as they were.
-/

namespace FreechCore

open StdMap Entry

/-- A truth value, a real number and null are all `other`: they are not told apart here. -/
inductive JsonValue
  | obj (o : List (Bytes × JsonValue))
  | array (l : List JsonValue)
  | str (s : Bytes)
  | int (v : ℤ)
  | other

def uninitialized : Bytes := ascii "<uninitialized>"

mutual

def entryToJson : Entry → JsonValue
  | .int v => .int v
  | .string s => .str s
  | .list l => .array (entryToJsonList l)
  | .dict d => .obj (entryToJsonDict d)
  | .undefined => .str uninitialized

def entryToJsonList : List Entry → List JsonValue
  | [] => []
  | e :: l => entryToJson e :: entryToJsonList l

def entryToJsonDict : List (Bytes × Entry) → List (Bytes × JsonValue)
  | [] => []
  | (key, e) :: d => (key, entryToJson e) :: entryToJsonDict d

end

mutual

/-- The number is asked for as an `int`, which has 32 bits. -/
def jsonToEntry : JsonValue → Entry
  | .int v => .int (Int32.ofInt v).toInt
  | .str s => .string s
  | .array l => .list (jsonToEntryList l)
  | .obj o => .dict (jsonToEntryDict o [])
  | .other => .string uninitialized

def jsonToEntryList : List JsonValue → List Entry
  | [] => []
  | v :: l => jsonToEntry v :: jsonToEntryList l

/-- The members of an object are put into the dictionary one after the other. -/
def jsonToEntryDict : List (Bytes × JsonValue) → List (Bytes × Entry) → List (Bytes × Entry)
  | [], d => d
  | (name, v) :: o, d => jsonToEntryDict o (put name (jsonToEntry v) d)

end

lemma entryToJsonList_eq_map (l : List Entry) : entryToJsonList l = l.map entryToJson := by
  induction l with
  | nil => simp [entryToJsonList]
  | cons e l ih => simp [entryToJsonList, ih]

lemma entryToJsonDict_eq_map (d : List (Bytes × Entry)) :
    entryToJsonDict d = d.map fun x => (x.1, entryToJson x.2) := by
  induction d with
  | nil => simp [entryToJsonDict]
  | cons x d ih => simp [entryToJsonDict, ih]

lemma jsonToEntryList_eq_map (l : List JsonValue) : jsonToEntryList l = l.map jsonToEntry := by
  induction l with
  | nil => simp [jsonToEntryList]
  | cons v l ih => simp [jsonToEntryList, ih]

lemma jsonToEntryDict_eq_foldl (o : List (Bytes × JsonValue)) (d : List (Bytes × Entry)) :
    jsonToEntryDict o d = o.foldl (fun d x => put x.1 (jsonToEntry x.2) d) d := by
  induction o generalizing d with
  | nil => simp [jsonToEntryDict]
  | cons x o ih => simp [jsonToEntryDict, ih]

/-! ### Plain entries -/

mutual

/-- Every part has a value, every number fits into 32 bits, and the names of a dictionary are in
their order. -/
def Entry.Plain : Entry → Prop
  | .undefined => False
  | .int v => -2 ^ 31 ≤ v ∧ v < 2 ^ 31
  | .string _ => True
  | .list l => Entry.PlainList l
  | .dict d => (d.Pairwise fun a b => a.1 < b.1) ∧ Entry.PlainDict d

def Entry.PlainList : List Entry → Prop
  | [] => True
  | e :: l => e.Plain ∧ Entry.PlainList l

def Entry.PlainDict : List (Bytes × Entry) → Prop
  | [] => True
  | (_, e) :: d => e.Plain ∧ Entry.PlainDict d

end

section

variable {d : List (Bytes × Entry)} (h : Entry.PlainDict d) {key : Bytes} {e : Entry}

include h

lemma Entry.PlainDict.put (he : e.Plain) : Entry.PlainDict (put key e d) := by
  induction d with
  | nil => exact ⟨he, trivial⟩
  | cons x d ih =>
    rw [StdMap.put]
    split_ifs
    · exact ⟨he, h⟩
    · exact ⟨he, h.2⟩
    · exact ⟨h.1, ih h.2⟩

lemma Entry.PlainDict.look (he : look key d = some e) : e.Plain := by
  induction d with
  | nil => cases he
  | cons x d ih =>
    rw [StdMap.look] at he
    split_ifs at he
    · cases he
      exact h.1
    · exact ih h.2 he

end

/-! ### There and back -/

mutual

lemma plain_jsonToEntry : ∀ v : JsonValue, (jsonToEntry v).Plain
  | .obj o => by
    rw [jsonToEntry, Entry.Plain]
    refine ⟨?_, plainDict_jsonToEntryDict o trivial⟩
    rw [jsonToEntryDict_eq_foldl]
    exact foldl_put_sorted jsonToEntry o List.Pairwise.nil
  | .array l => by
    rw [jsonToEntry, Entry.Plain]
    exact plainList_jsonToEntryList l
  | .str s => by simp [jsonToEntry, Entry.Plain]
  | .int v => by
    rw [jsonToEntry, Entry.Plain]
    exact ⟨Int32.le_toInt _, Int32.toInt_lt _⟩
  | .other => by simp [jsonToEntry, Entry.Plain]

lemma plainList_jsonToEntryList : ∀ l : List JsonValue, Entry.PlainList (jsonToEntryList l)
  | [] => by simp [jsonToEntryList, Entry.PlainList]
  | v :: l => by
    rw [jsonToEntryList, Entry.PlainList]
    exact ⟨plain_jsonToEntry v, plainList_jsonToEntryList l⟩

lemma plainDict_jsonToEntryDict : ∀ (o : List (Bytes × JsonValue)) {d : List (Bytes × Entry)},
    Entry.PlainDict d → Entry.PlainDict (jsonToEntryDict o d)
  | [], _, h => by simpa [jsonToEntryDict] using h
  | (name, v) :: o, _, h => by
    rw [jsonToEntryDict]
    exact plainDict_jsonToEntryDict o (h.put (plain_jsonToEntry v))

end

mutual

lemma Entry.Plain.jsonToEntry_entryToJson : ∀ {e : Entry}, e.Plain → jsonToEntry (entryToJson e) = e
  | .undefined, h => h.elim
  | .int v, h => by
    rw [entryToJson, jsonToEntry, Int32.toInt_ofInt_of_le h.1 h.2]
  | .string s, _ => by rw [entryToJson, jsonToEntry]
  | .list l, h => by
    rw [entryToJson, jsonToEntry, entryToJsonList_eq_map, jsonToEntryList_eq_map, List.map_map,
      Entry.PlainList.map_jsonToEntry h]
  | .dict d, h => by
    have hsorted : (d.map fun x => (x.1, entryToJson x.2)).Pairwise fun a b => a.1 < b.1 :=
      List.pairwise_map.mpr h.1
    rw [entryToJson, jsonToEntry, entryToJsonDict_eq_map, jsonToEntryDict_eq_foldl,
      foldl_put_nil jsonToEntry hsorted, List.map_map, Entry.PlainDict.map_jsonToEntry h.2]

lemma Entry.PlainList.map_jsonToEntry : ∀ {l : List Entry}, Entry.PlainList l →
    l.map (jsonToEntry ∘ entryToJson) = l
  | [], _ => rfl
  | e :: l, h => by
    rw [List.map_cons, Entry.PlainList.map_jsonToEntry h.2, Function.comp_apply,
      h.1.jsonToEntry_entryToJson]

lemma Entry.PlainDict.map_jsonToEntry : ∀ {d : List (Bytes × Entry)}, Entry.PlainDict d →
    d.map ((fun x => (x.1, jsonToEntry x.2)) ∘ fun x => (x.1, entryToJson x.2)) = d
  | [], _ => rfl
  | (key, e) :: d, h => by
    rw [List.map_cons, Entry.PlainDict.map_jsonToEntry h.2, Function.comp_apply,
      h.1.jsonToEntry_entryToJson]

end

/-! ### Entries that come back -/

mutual

/-- Every part has a value, and the names of a dictionary are in their order. -/
def Entry.Formed : Entry → Prop
  | .undefined => False
  | .int _ => True
  | .string _ => True
  | .list l => Entry.FormedList l
  | .dict d => (d.Pairwise fun a b => a.1 < b.1) ∧ Entry.FormedDict d

def Entry.FormedList : List Entry → Prop
  | [] => True
  | e :: l => e.Formed ∧ Entry.FormedList l

def Entry.FormedDict : List (Bytes × Entry) → Prop
  | [] => True
  | (_, e) :: d => e.Formed ∧ Entry.FormedDict d

end

mutual

def Entry.integers : Entry → List ℤ
  | .int v => [v]
  | .list l => Entry.integersList l
  | .dict d => Entry.integersDict d
  | .undefined => []
  | .string _ => []

def Entry.integersList : List Entry → List ℤ
  | [] => []
  | e :: l => e.integers ++ Entry.integersList l

def Entry.integersDict : List (Bytes × Entry) → List ℤ
  | [] => []
  | (_, e) :: d => e.integers ++ Entry.integersDict d

end

def Fits32 (v : ℤ) : Prop := -2 ^ 31 ≤ v ∧ v < 2 ^ 31

mutual

lemma Entry.Formed.plain_iff : ∀ {e : Entry}, e.Formed → (e.Plain ↔ ∀ v ∈ e.integers, Fits32 v)
  | .undefined, h => h.elim
  | .int v, _ => by simp [Entry.Plain, integers, Fits32]
  | .string s, _ => by simp [Entry.Plain, integers]
  | .list l, h => by
    rw [Entry.Plain, integers]
    exact Entry.FormedList.plainList_iff h
  | .dict d, h => by
    rw [Entry.Plain, integers, and_iff_right h.1]
    exact Entry.FormedDict.plainDict_iff h.2

lemma Entry.FormedList.plainList_iff : ∀ {l : List Entry}, Entry.FormedList l →
    (Entry.PlainList l ↔ ∀ v ∈ integersList l, Fits32 v)
  | [], _ => by simp [Entry.PlainList, integersList]
  | e :: l, h => by
    rw [Entry.PlainList, integersList, List.forall_mem_append, h.1.plain_iff,
      Entry.FormedList.plainList_iff h.2]

lemma Entry.FormedDict.plainDict_iff : ∀ {d : List (Bytes × Entry)}, Entry.FormedDict d →
    (Entry.PlainDict d ↔ ∀ v ∈ integersDict d, Fits32 v)
  | [], _ => by simp [Entry.PlainDict, integersDict]
  | (_, e) :: d, h => by
    rw [Entry.PlainDict, integersDict, List.forall_mem_append, h.1.plain_iff,
      Entry.FormedDict.plainDict_iff h.2]

end

/-- **Conversion to JSON and back.** An entry that is built from integers, strings, lists and
dictionaries comes back as it was exactly if all its integers fit into 32 bits. -/
theorem jsonToEntry_entryToJson_iff {e : Entry} (h : e.Formed) :
    jsonToEntry (entryToJson e) = e ↔ ∀ v ∈ e.integers, Fits32 v := by
  rw [← h.plain_iff]
  constructor
  · intro hback
    rw [← hback]
    exact plain_jsonToEntry _
  · exact Entry.Plain.jsonToEntry_entryToJson

/-- A dictionary with a list in it. -/
theorem jsonToEntry_entryToJson_nested :
    jsonToEntry (entryToJson (.dict [([97], .list [.int (-1), .string [98]]), ([99], .int 7)])) =
      .dict [([97], .list [.int (-1), .string [98]]), ([99], .int 7)] := by
  refine (jsonToEntry_entryToJson_iff ?_).mpr ?_
  · simp only [Entry.Formed, Entry.FormedDict, Entry.FormedList, and_self, and_true]
    decide
  · simp [integers, integersDict, integersList, Fits32]

/-- **An integer of more than 32 bits** loses its high bits. -/
theorem jsonToEntry_entryToJson_wide :
    Entry.Formed (.int (2 ^ 32)) ∧ jsonToEntry (entryToJson (.int (2 ^ 32))) = .int 0 := by
  refine ⟨trivial, ?_⟩
  exact congrArg int (by decide)

end FreechCore
