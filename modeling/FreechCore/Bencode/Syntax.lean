import FreechCore.Bencode.Entry

/-!
Bencoded texts as trees. A `Bencoded` keeps everything that is written, the digits of the lengths
included, so that `Bencoded.text` gives the text back. Where the tree stands in a longer text decides
the positions of the decoded entry, `Bencoded.locate`, and nothing else: what is read out of the entry
depends on the tree alone.
-/

namespace FreechCore

open List

/-- A bencoded text as it is written. A string comes with the digits of its length, and so does a
name in a dictionary. -/
inductive Bencoded
  | int (body : Bytes)
  | string (len s : Bytes)
  | list (items : List Bencoded)
  | dict (items : List (Bytes × Bytes × Bencoded))

namespace Bencoded

/-! ### The text of a tree -/

mutual

def text : Bencoded → Bytes
  | int body => 105 :: (body ++ [101])
  | string len s => len ++ 58 :: s
  | list items => 108 :: (listText items ++ [101])
  | dict items => 100 :: (dictText items ++ [101])

def listText : List Bencoded → Bytes
  | [] => []
  | n :: items => text n ++ listText items

def dictText : List (Bytes × Bytes × Bencoded) → Bytes
  | [] => []
  | (len, key, n) :: items => (len ++ 58 :: key) ++ text n ++ dictText items

end

/-! ### The decoded entry -/

mutual

/-- The entry that the text of the tree is decoded to if it stands at a position. -/
def locate (pos : ℕ) : Bencoded → LazyEntry
  | int body => .int (pos + 1) body.length
  | string len s => .string (pos + len.length + 1) s.length
  | list items => .list pos ((listText items).length + 2) (locateList (pos + 1) items)
  | dict items => .dict pos ((dictText items).length + 2) (locateDict (pos + 1) items)

def locateList (pos : ℕ) : List Bencoded → List LazyEntry
  | [] => []
  | n :: items => locate pos n :: locateList (pos + (text n).length) items

def locateDict (pos : ℕ) : List (Bytes × Bytes × Bencoded) → List (ℕ × LazyEntry)
  | [] => []
  | (len, key, n) :: items =>
    (pos + len.length + 1, locate (pos + len.length + 1 + key.length) n) ::
      locateDict (pos + len.length + 1 + key.length + (text n).length) items

end

/-! ### Trees that can be read -/

def pushDigit (val : ℕ) (c : UInt8) : ℕ := val * 10 + (c.toNat - 48)

def digitsValue (len : Bytes) : ℕ := len.foldl pushDigit 0

lemma le_foldl_pushDigit (ds : Bytes) (val : ℕ) : val ≤ ds.foldl pushDigit val := by
  induction ds generalizing val with
  | nil => exact le_rfl
  | cons c ds ih => exact le_trans (by unfold pushDigit; omega) (ih _)

/-- Digits that give a length. -/
structure IsLength (len : Bytes) (n : ℕ) : Prop where
  ne_nil : len ≠ []
  digits : ∀ c ∈ len, isDigit c = true
  value : digitsValue len = n
  le : n ≤ int64Max

mutual

/-- The lengths are those of the strings, and a number ends where it should. -/
def WF : Bencoded → Prop
  | int body => 101 ∉ body
  | string len s => IsLength len s.length
  | list items => WFList items
  | dict items => WFDict items

def WFList : List Bencoded → Prop
  | [] => True
  | n :: items => WF n ∧ WFList items

def WFDict : List (Bytes × Bytes × Bencoded) → Prop
  | [] => True
  | (len, key, n) :: items => IsLength len key.length ∧ WF n ∧ WFDict items

end

mutual

def count : Bencoded → ℕ
  | int _ => 1
  | string _ _ => 1
  | list items => countList items + 1
  | dict items => countDict items + 1

def countList : List Bencoded → ℕ
  | [] => 0
  | n :: items => count n + countList items

def countDict : List (Bytes × Bytes × Bencoded) → ℕ
  | [] => 0
  | (_, _, n) :: items => count n + countDict items

end

mutual

def depth : Bencoded → ℕ
  | int _ => 0
  | string _ _ => 0
  | list items => depthList items + 1
  | dict items => depthDict items + 1

def depthList : List Bencoded → ℕ
  | [] => 0
  | n :: items => max (depth n) (depthList items)

def depthDict : List (Bytes × Bytes × Bencoded) → ℕ
  | [] => 0
  | (_, _, n) :: items => max (depth n) (depthDict items)

end

/-! ### Items one after another -/

section Append

variable (l l' : List Bencoded) (d d' : List (Bytes × Bytes × Bencoded))

lemma listText_append : listText (l ++ l') = listText l ++ listText l' := by
  induction l with
  | nil => rfl
  | cons n l ih => simp [listText, ih]

lemma dictText_append : dictText (d ++ d') = dictText d ++ dictText d' := by
  induction d with
  | nil => rfl
  | cons e d ih => simp [dictText, ih]

lemma locateList_append (pos : ℕ) : locateList pos (l ++ l') =
    locateList pos l ++ locateList (pos + (listText l).length) l' := by
  induction l generalizing pos with
  | nil => rfl
  | cons n l ih => simp [locateList, listText, ih, Nat.add_assoc]

lemma locateDict_append (pos : ℕ) : locateDict pos (d ++ d') =
    locateDict pos d ++ locateDict (pos + (dictText d).length) d' := by
  induction d generalizing pos with
  | nil => rfl
  | cons e d ih =>
    simp only [cons_append, locateDict, ih, dictText, length_append, length_cons]
    congr 3
    omega

lemma WFList_append : WFList (l ++ l') ↔ WFList l ∧ WFList l' := by
  induction l with
  | nil => simp [WFList]
  | cons n l ih => simp [WFList, ih, and_assoc]

lemma WFDict_append : WFDict (d ++ d') ↔ WFDict d ∧ WFDict d' := by
  induction d with
  | nil => simp [WFDict]
  | cons e d ih => simp [WFDict, ih, and_assoc]

lemma countList_append : countList (l ++ l') = countList l + countList l' := by
  induction l with
  | nil => simp [countList]
  | cons n l ih => simp [countList, ih, Nat.add_assoc]

lemma countDict_append : countDict (d ++ d') = countDict d + countDict d' := by
  induction d with
  | nil => simp [countDict]
  | cons e d ih => simp [countDict, ih, Nat.add_assoc]

lemma depthList_append : depthList (l ++ l') = max (depthList l) (depthList l') := by
  induction l with
  | nil => simp [depthList]
  | cons n l ih => simp [depthList, ih, max_assoc]

lemma depthDict_append : depthDict (d ++ d') = max (depthDict d) (depthDict d') := by
  induction d with
  | nil => simp [depthDict]
  | cons e d ih => simp [depthDict, ih, max_assoc]

end Append

end Bencoded

/-! ### Texts that stand somewhere -/

/-- A text stands at a position of another one. -/
def TextAt (data : Bytes) (pos : ℕ) (t : Bytes) : Prop := ∃ post, data.drop pos = t ++ post

namespace TextAt

variable {data t t' : Bytes} {pos : ℕ}

lemma append_iff : TextAt data pos (t ++ t') ↔
    TextAt data pos t ∧ TextAt data (pos + t.length) t' := by
  constructor
  · rintro ⟨post, h⟩
    refine ⟨⟨t' ++ post, by rw [h, append_assoc]⟩, post, ?_⟩
    rw [← drop_drop, h, append_assoc, drop_left]
  · rintro ⟨⟨post, h⟩, post', h'⟩
    refine ⟨post', ?_⟩
    rw [← drop_drop, h, drop_left] at h'
    rw [h, h', append_assoc]

lemma left (h : TextAt data pos (t ++ t')) : TextAt data pos t := (append_iff.mp h).1

lemma right (h : TextAt data pos (t ++ t')) : TextAt data (pos + t.length) t' := (append_iff.mp h).2

lemma tail {c : UInt8} (h : TextAt data pos (c :: t)) : TextAt data (pos + 1) t :=
  right (t := [c]) (by simpa using h)

lemma value {len key : Bytes} (h : TextAt data pos ((len ++ 58 :: key) ++ t)) :
    TextAt data (pos + len.length + 1 + key.length) t := by
  have := h.right
  rwa [length_append, length_cons, ← Nat.add_assoc, Nat.add_comm key.length 1,
    ← Nat.add_assoc] at this

lemma afterValue {len key : Bytes} (h : TextAt data pos ((len ++ 58 :: key) ++ t ++ t')) :
    TextAt data (pos + len.length + 1 + key.length + t.length) t' := by
  rw [append_assoc] at h
  exact h.value.right

lemma getD {c : UInt8} (h : TextAt data pos (c :: t)) : data.getD pos 0 = c := by
  obtain ⟨post, h⟩ := h
  have h0 := congrArg List.head? h
  rw [List.head?_drop] at h0
  simp [List.getD, h0]

lemma slice_eq (h : TextAt data pos t) : slice data pos t.length = t := by
  obtain ⟨post, h⟩ := h
  rw [slice, h, take_left]

lemma length_le (h : TextAt data pos t) (ht : t ≠ []) : pos + t.length ≤ data.length := by
  obtain ⟨post, h⟩ := h
  have hlen := congrArg List.length h
  rw [length_drop, length_append] at hlen
  have := length_pos_of_ne_nil ht
  omega

end TextAt

end FreechCore
