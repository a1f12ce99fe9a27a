import Mathlib.Data.List.TakeWhile
import FreechCore.Bencode.Bdecode
import FreechCore.Bencode.Decode

/-!
The other decoder on the text of a tree: the entry it makes depends on the tree alone.
-/

namespace FreechCore

open StdMap Bencoded List

variable {ds : Bytes}

/-! ### Numbers -/

lemma isDigit.not_isSpace {c : UInt8} (h : isDigit c = true) : isSpace c = false := by
  simp only [isDigit, decide_eq_true_eq] at h
  simp only [isSpace, decide_eq_false_iff_not]
  omega

section

variable (h : ∀ c ∈ ds, isDigit c = true)

include h

lemma takeWhile_digits : ds.takeWhile (fun c => isDigit c) = ds :=
  takeWhile_eq_self_iff.mpr h

lemma takeWhile_ne_zero : ds.takeWhile (· ≠ 0) = ds :=
  takeWhile_eq_self_iff.mpr fun c hc => by simpa using isDigit.ne (h c hc) (by decide)

lemma strtoll_digits (hne : ds ≠ []) :
    strtoll ds = some (min (digitsValue ds : ℤ) (2 ^ 63 - 1)) := by
  obtain ⟨c, ds, rfl⟩ := exists_cons_of_ne_nil hne
  have hc := h c mem_cons_self
  have hminus : c ≠ 45 := isDigit.ne hc (by decide)
  have hplus : c ≠ 43 := isDigit.ne hc (by decide)
  have hdrop : (c :: ds).dropWhile (fun c => isSpace c) = c :: ds :=
    dropWhile_cons_of_neg (by simp [isDigit.not_isSpace hc])
  unfold strtoll
  rw [takeWhile_ne_zero h, hdrop]
  simp only [List.head?_cons, Option.some.injEq, hminus, hplus, or_self, if_false,
    takeWhile_digits h, reduceCtorEq]

lemma strtoll_neg_digits (hne : ds ≠ []) :
    strtoll (45 :: ds) = some (max (-(digitsValue ds : ℤ)) (-2 ^ 63)) := by
  have htake : (45 :: ds).takeWhile (· ≠ 0) = 45 :: ds := by
    rw [takeWhile_cons_of_pos (by decide), takeWhile_ne_zero h]
  have hdrop : (45 :: ds).dropWhile (fun c => isSpace c) = 45 :: ds :=
    dropWhile_cons_of_neg (by decide)
  unfold strtoll
  rw [htake, hdrop]
  simp only [List.head?_cons, true_or, if_true, tail_cons, takeWhile_digits h, hne, if_false]

end

lemma atoi_length {len : Bytes} {n : ℕ} (h : IsLength len n) (hn : n < 2 ^ 31) :
    (atoi len).toInt = n := by
  have hmin : min (n : ℤ) (2 ^ 63 - 1) = n := by omega
  rw [atoi, strtoll_digits h.digits h.ne_nil, h.value, hmin, Option.getD_some]
  exact Int32.toInt_ofInt_of_le (by omega) (by omega)

/-! ### The entry of a tree -/

namespace Bencoded

mutual

/-- The entry that the other decoder makes of a tree, unless a number cannot be read. -/
def value : Bencoded → Option Entry
  | int body => (strtoll body).map .int
  | string _ s => some (.string s)
  | list items => (valueList items []).map .list
  | dict items => (valueDict items []).map .dict

def valueList : List Bencoded → List Entry → Option (List Entry)
  | [], l => some l
  | n :: items, l =>
    match value n with
    | none => none
    | some e => valueList items (l ++ [e])

def valueDict : List (Bytes × Bytes × Bencoded) → List (Bytes × Entry) →
    Option (List (Bytes × Entry))
  | [], d => some d
  | (_, key, n) :: items, d =>
    match value n with
    | none => none
    | some e => valueDict items (put key e d)

end

end Bencoded

lemma readUntil_append {token : UInt8} {l r : Bytes} (h : token ∉ l) :
    readUntil token (l ++ token :: r) = some (l, r) := by
  induction l with
  | nil => simp [readUntil]
  | cons c l ih =>
    obtain ⟨hc, hl⟩ : token ≠ c ∧ token ∉ l := by simpa using h
    rw [cons_append, readUntil, if_neg (Ne.symm hc), ih hl, Option.map_some]

lemma bdecodeRecursive_string {len s : Bytes} (fuel depth : ℕ) (r : Bytes)
    (hlen : IsLength len s.length) (hs : s.length < 2 ^ 31) (hd : depth < 100) :
    bdecodeRecursive (fuel + 1) depth (len ++ 58 :: s ++ r) = some (.string s, r) := by
  obtain ⟨c, len', hcons⟩ := exists_cons_of_ne_nil hlen.ne_nil
  have hc : isDigit c = true := hlen.digits c (by simp [hcons])
  have hcolon : (58 : UInt8) ∉ len := fun h => isDigit.ne (hlen.digits 58 h) (by decide) rfl
  have hread : readString (s.length : ℤ) (s ++ r) = some (s, r) := by
    rw [readString, if_neg (by rw [length_append]; omega), Int.toNat_natCast, take_left, drop_left]
  have htext : len ++ 58 :: s ++ r = c :: (len' ++ 58 :: (s ++ r)) := by simp [hcons]
  have huntil : readUntil 58 (c :: (len' ++ 58 :: (s ++ r))) = some (len, s ++ r) := by
    rw [← cons_append, ← hcons]
    exact readUntil_append hcolon
  rw [htext, bdecodeRecursive, if_neg (by omega), if_neg (isDigit.ne hc (by decide)),
    if_neg (isDigit.ne hc (by decide)), if_neg (isDigit.ne hc (by decide)), if_pos hc, huntil]
  dsimp only
  rw [atoi_length hlen hs, hread, Option.map_some]

mutual

/-- **The other decoder on the text of a tree**, with what comes behind it. -/
theorem bdecodeRecursive_text (n : Bencoded) (hn : n.WF) (fuel depth : ℕ) (r : Bytes)
    (hsize : n.text.length < 2 ^ 31) (hdepth : depth + n.depth < 100)
    (hfuel : n.text.length ≤ fuel) :
    bdecodeRecursive fuel depth (n.text ++ r) = n.value.map fun e => (e, r) := by
  cases n with
  | int body =>
    rw [text] at hfuel ⊢
    obtain ⟨fuel, rfl⟩ := Nat.exists_eq_add_of_le' (show 1 ≤ fuel by simp at hfuel; omega)
    rw [cons_append, append_assoc, bdecodeRecursive, if_neg (by omega), if_pos rfl,
      singleton_append, readUntil_append hn, value]
    rw [Option.map_map]
    rfl
  | string len s =>
    rw [text] at hfuel hsize ⊢
    simp only [length_append, length_cons] at hfuel hsize
    obtain ⟨fuel, rfl⟩ := Nat.exists_eq_add_of_le' (show 1 ≤ fuel by omega)
    rw [bdecodeRecursive_string fuel depth r hn (by omega) (by omega), value, Option.map_some]
  | list items =>
    rw [text] at hfuel hsize ⊢
    rw [Bencoded.depth] at hdepth
    simp only [length_cons, length_append, length_nil] at hfuel hsize
    obtain ⟨fuel, rfl⟩ := Nat.exists_eq_add_of_le' (show 1 ≤ fuel by omega)
    rw [cons_append, append_assoc, bdecodeRecursive, if_neg (by omega),
      if_neg (by decide), if_pos rfl, singleton_append,
      bdecodeItems_text items hn fuel depth r [] (by omega) (by omega) (by omega), value]
    simp only [Option.map_map, Function.comp_def]
  | dict items =>
    rw [text] at hfuel hsize ⊢
    rw [Bencoded.depth] at hdepth
    simp only [length_cons, length_append, length_nil] at hfuel hsize
    obtain ⟨fuel, rfl⟩ := Nat.exists_eq_add_of_le' (show 1 ≤ fuel by omega)
    rw [cons_append, append_assoc, bdecodeRecursive, if_neg (by omega),
      if_neg (by decide), if_neg (by decide), if_pos rfl, singleton_append,
      bdecodeFields_text items hn fuel depth r [] (by omega) (by omega) (by omega), value]
    simp only [Option.map_map, Function.comp_def]

theorem bdecodeItems_text (items : List Bencoded) (hitems : WFList items) (fuel depth : ℕ)
    (r : Bytes) (done : List Entry) (hsize : (listText items).length < 2 ^ 31)
    (hdepth : depth + depthList items + 1 < 100) (hfuel : (listText items).length + 1 ≤ fuel) :
    bdecodeItems fuel depth (listText items ++ 101 :: r) done =
      (valueList items done).map fun l => (l, r) := by
  obtain ⟨fuel, rfl⟩ := Nat.exists_eq_add_of_le' (show 1 ≤ fuel by omega)
  cases items with
  | nil => rw [listText, nil_append, bdecodeItems, if_pos rfl, valueList, Option.map_some]
  | cons n items =>
    obtain ⟨hn, hitems⟩ := hitems
    obtain ⟨c, t, htext, hc⟩ := text_head hn
    rw [listText, length_append] at hfuel hsize
    rw [depthList] at hdepth
    have hone := bdecodeRecursive_text n hn fuel (depth + 1) (listText items ++ 101 :: r) (by omega)
      (by omega) (by omega)
    have hpos : 0 < n.text.length := by rw [htext]; simp
    rw [listText, append_assoc, htext, cons_append, bdecodeItems, if_neg hc,
      ← cons_append, ← htext, hone, valueList]
    cases n.value with
    | none => rfl
    | some e =>
      exact bdecodeItems_text items hitems fuel depth r (done ++ [e])
        (by omega) (by omega) (by omega)

theorem bdecodeFields_text (items : List (Bytes × Bytes × Bencoded)) (hitems : WFDict items)
    (fuel depth : ℕ) (r : Bytes) (done : List (Bytes × Entry))
    (hsize : (dictText items).length < 2 ^ 31) (hdepth : depth + depthDict items + 1 < 100)
    (hfuel : (dictText items).length + 1 ≤ fuel) :
    bdecodeFields fuel depth (dictText items ++ 101 :: r) done =
      (valueDict items done).map fun d => (d, r) := by
  obtain ⟨fuel, rfl⟩ := Nat.exists_eq_add_of_le' (show 1 ≤ fuel by omega)
  cases items with
  | nil => rw [dictText, nil_append, bdecodeFields, if_pos rfl, valueDict, Option.map_some]
  | cons item items =>
    obtain ⟨len, key, n⟩ := item
    obtain ⟨hlen, hn, hitems⟩ := hitems
    obtain ⟨c, len', hcons⟩ := exists_cons_of_ne_nil hlen.ne_nil
    have hc : c ≠ 101 := isDigit.ne (hlen.digits c (by simp [hcons])) (by decide)
    rw [dictText, length_append, length_append, length_append,
      length_cons] at hfuel hsize
    rw [depthDict] at hdepth
    obtain ⟨fuel, rfl⟩ := Nat.exists_eq_add_of_le' (show 1 ≤ fuel by omega)
    have hkey := bdecodeRecursive_string fuel (depth + 1) (n.text ++ (dictText items ++ 101 :: r))
      hlen (by omega) (by omega)
    have hone := bdecodeRecursive_text n hn (fuel + 1) (depth + 1) (dictText items ++ 101 :: r)
      (by omega) (by omega) (by omega)
    rw [hcons, cons_append, cons_append] at hkey
    rw [dictText, hcons, append_assoc, append_assoc, cons_append, cons_append,
      bdecodeFields, if_neg hc, hkey]
    dsimp only
    rw [hone, valueDict]
    cases n.value with
    | none => rfl
    | some e =>
      exact bdecodeFields_text items hitems (fuel + 1) depth r (put key e done)
        (by omega) (by omega) (by omega)

end

lemma bdecode_text {n : Bencoded} (hn : n.WF) (hsize : n.text.length < 2 ^ 31)
    (hdepth : n.depth < 100) : bdecode n.text = n.value.getD .undefined := by
  have h := bdecodeRecursive_text n hn (n.text.length + 1) 0 [] hsize (by omega) (by omega)
  rw [append_nil] at h
  rw [bdecode, h]
  cases n.value <;> rfl

end FreechCore
