import FreechCore.Bencode.Read
import FreechCore.Bencode.Value

/-!
Texts that are written the way an entry is: lengths and numbers without needless digits, and the
names of a dictionary in their order. These are the texts that decoding and encoding again gives
back.
-/

namespace FreechCore

open StdMap Bencoded List Option

variable {n : ℕ} {v : ℤ} {r s : Bytes} {d : List (Bytes × Entry)}

/-! ### Decimal numbers -/

lemma toNat_digitByte {c : Char} (h : c.isDigit = true) :
    (UInt8.ofNat c.toNat).toNat = c.toNat ∧ 48 ≤ c.toNat ∧ c.toNat ≤ 57 := by
  have hle : 48 ≤ c.toNat ∧ c.toNat ≤ 57 := by
    simpa [Char.isDigit, UInt32.le_iff_toNat_le] using h
  refine ⟨?_, hle⟩
  exact UInt8.toNat_ofNat_of_lt' (show c.toNat < 256 by omega)

lemma isDigit_of_mem_decDigits : ∀ c ∈ decDigits n, isDigit c = true := by
  intro c hc
  obtain ⟨d, hd, rfl⟩ := mem_map.mp hc
  obtain ⟨h1, h2⟩ := toNat_digitByte (Nat.isDigit_of_mem_toDigits (by omega) le_rfl hd)
  simpa only [isDigit, h1, decide_eq_true_eq] using h2

lemma foldl_pushDigit_map (l : List Char) (val : ℕ) (h : ∀ c ∈ l, c.isDigit = true) :
    (l.map fun c => UInt8.ofNat c.toNat).foldl pushDigit val = Nat.ofDigitChars 10 l val := by
  induction l generalizing val with
  | nil => rfl
  | cons c l ih =>
    have hc : pushDigit val (UInt8.ofNat c.toNat) = 10 * val + (c.toNat - '0'.toNat) := by
      rw [pushDigit, (toNat_digitByte (h c mem_cons_self)).1, Nat.mul_comm]
      rfl
    rw [map_cons, foldl_cons, hc, ih _ fun d hd => h d (mem_cons_of_mem _ hd)]
    rfl

lemma decDigits_ne_nil (n : ℕ) : decDigits n ≠ [] := by
  simp [decDigits, Nat.toDigits_ne_nil]

lemma digitsValue_decDigits (n : ℕ) : digitsValue (decDigits n) = n := by
  rw [digitsValue, decDigits, foldl_pushDigit_map _ _ fun c hc =>
    Nat.isDigit_of_mem_toDigits (by omega) le_rfl hc, Nat.ofDigitChars_toDigits (by omega) le_rfl]

lemma isLength_decDigits (hn : n ≤ int64Max) : IsLength (decDigits n) n :=
  ⟨decDigits_ne_nil n, isDigit_of_mem_decDigits, digitsValue_decDigits n, hn⟩

/-- A number in decimal digits, without a sign if it is not negative. -/
def signedDigits (v : ℤ) : Bytes := if v < 0 then 45 :: decDigits v.natAbs else decDigits v.natAbs

lemma integerToStr_eq_signedDigits (h : -2 ^ 63 < v) : integerToStr v = signedDigits v := by
  rw [integerToStr, if_neg (by omega), signedDigits]

lemma strtoll_signedDigits (hlo : -2 ^ 63 < v) (hhi : v < 2 ^ 63) :
    strtoll (signedDigits v) = some v := by
  unfold signedDigits
  split_ifs with hneg
  · rw [strtoll_neg_digits isDigit_of_mem_decDigits (decDigits_ne_nil _), digitsValue_decDigits]
    exact congrArg some (by omega)
  · rw [strtoll_digits isDigit_of_mem_decDigits (decDigits_ne_nil _), digitsValue_decDigits]
    exact congrArg some (by omega)

lemma bodyValue_signedDigits (hlo : -2 ^ 63 < v) (hhi : v < 2 ^ 63) :
    bodyValue (signedDigits v) = v := by
  have hle : v.natAbs ≤ int64Max := by
    unfold int64Max
    omega
  have hparse : parseInt 101 (decDigits v.natAbs ++ [101]) 0 =
      .ok (v.natAbs, (decDigits v.natAbs).length) := by
    have hval := digitsValue_decDigits v.natAbs
    rw [digitsValue] at hval
    rw [parseInt_digits (by decide) isDigit_of_mem_decDigits (by rw [hval]; exact hle), hval]
  unfold signedDigits
  split_ifs with hneg
  · simp only [bodyValue, List.head?_cons, if_true, tail_cons, hparse]
    omega
  · have hhead : (decDigits v.natAbs).head? ≠ some 45 := by
      intro h
      exact isDigit.ne (isDigit_of_mem_decDigits 45 (mem_of_mem_head? h)) (by decide) rfl
    simp only [bodyValue, hhead, if_false, hparse]
    omega

/-! ### The way to write a tree -/

namespace Bencoded

mutual

/-- Lengths have no needless digits, the names of a dictionary are in their order and different,
and the numbers have a property. -/
def Spelled (P : Bytes → Prop) : Bencoded → Prop
  | int body => P body
  | string len s => len = decDigits s.length
  | list items => SpelledList P items
  | dict items => (items.map fun item => item.2.1).Pairwise (· < ·) ∧ SpelledDict P items

def SpelledList (P : Bytes → Prop) : List Bencoded → Prop
  | [] => True
  | n :: items => Spelled P n ∧ SpelledList P items

def SpelledDict (P : Bytes → Prop) : List (Bytes × Bytes × Bencoded) → Prop
  | [] => True
  | (len, key, n) :: items => len = decDigits key.length ∧ Spelled P n ∧ SpelledDict P items

end

/-- A number in decimal, without leading zeros or a minus for zero, and strictly above the smallest
one of 64 bits. -/
abbrev Decimal (body : Bytes) : Prop :=
  ∃ v : ℤ, -2 ^ 63 < v ∧ v < 2 ^ 63 ∧ body = signedDigits v

/-- The one way to write a tree. -/
def Canonical (n : Bencoded) : Prop := n.Spelled Decimal

lemma Spelled.surplus_eq {P : Bytes → Prop} {n : Bencoded} (h : n.Spelled P) : n.surplus = [] := by
  cases n with
  | string len s =>
    rw [surplus, h, decDigits, length_map, numDigits, Nat.sub_self, take_zero]
  | _ => rfl

/-! ### The text decides the tree -/

lemma append_cons_inj {c : UInt8} {l l' r' : Bytes} (hl : c ∉ l) (hl' : c ∉ l')
    (h : l ++ c :: r = l' ++ c :: r') : l = l' ∧ r = r' := by
  have h₁ := readUntil_append (r := r) hl
  have h₂ := readUntil_append (r := r') hl'
  rw [h, h₂] at h₁
  simpa [eq_comm] using h₁

lemma string_inj {len len' s' r' : Bytes} (hlen : IsLength len s.length)
    (hlen' : IsLength len' s'.length) (h : len ++ 58 :: s ++ r = len' ++ 58 :: s' ++ r') :
    len = len' ∧ s = s' ∧ r = r' := by
  have hcolon : ∀ {l : Bytes} {n : ℕ}, IsLength l n → (58 : UInt8) ∉ l := fun hl hmem =>
    isDigit.ne (hl.digits 58 hmem) (by decide) rfl
  rw [append_assoc, append_assoc, cons_append, cons_append] at h
  obtain ⟨rfl, h'⟩ := append_cons_inj (hcolon hlen) (hcolon hlen') h
  have hs : s.length = s'.length := by rw [← hlen.value, ← hlen'.value]
  exact ⟨rfl, append_inj h' hs⟩

lemma string_ne {len t : Bytes} {c : UInt8} (hlen : IsLength len n) (hc : isDigit c = false) :
    len ++ 58 :: s ++ r ≠ c :: t := by
  obtain ⟨d, len', rfl⟩ := exists_cons_of_ne_nil hlen.ne_nil
  intro h
  exact isDigit.ne (hlen.digits d mem_cons_self) hc (List.cons.inj h).1

lemma dictText_cons_append (len key : Bytes) (n : Bencoded)
    (items : List (Bytes × Bytes × Bencoded)) (r : Bytes) :
    dictText ((len, key, n) :: items) ++ r =
      len ++ 58 :: key ++ (n.text ++ (dictText items ++ r)) := by
  simp [dictText]

mutual

/-- **A text is that of one tree**, with whatever comes behind it. -/
theorem text_inj (n m : Bencoded) (hn : n.WF) (hm : m.WF) (r r' : Bytes)
    (h : n.text ++ r = m.text ++ r') : n = m ∧ r = r' := by
  cases n with
  | int body =>
    cases m with
    | int body' =>
      simp only [text, cons_append, append_assoc, List.cons.injEq, true_and] at h
      obtain ⟨rfl, rfl⟩ := append_cons_inj hn hm h
      exact ⟨rfl, rfl⟩
    | string len s => exact absurd h.symm (string_ne hm (by decide))
    | _ => simp [text] at h
  | string len s =>
    cases m with
    | int body => exact absurd h (string_ne hn (by decide))
    | string len' s' =>
      obtain ⟨rfl, rfl, rfl⟩ := string_inj hn hm h
      exact ⟨rfl, rfl⟩
    | _ => exact absurd h (string_ne hn (by decide))
  | list items =>
    cases m with
    | int body => simp [text] at h
    | string len s => exact absurd h.symm (string_ne hm (by decide))
    | list items' =>
      simp only [text, cons_append, append_assoc, List.cons.injEq, true_and] at h
      obtain ⟨heq, hr⟩ := listText_inj items items' hn hm r r' h
      exact ⟨by rw [heq], hr⟩
    | dict items => simp [text] at h
  | dict items =>
    cases m with
    | int body => simp [text] at h
    | string len s => exact absurd h.symm (string_ne hm (by decide))
    | list items => simp [text] at h
    | dict items' =>
      simp only [text, cons_append, append_assoc, List.cons.injEq, true_and] at h
      obtain ⟨heq, hr⟩ := dictText_inj items items' hn hm r r' h
      exact ⟨by rw [heq], hr⟩

theorem listText_inj (items items' : List Bencoded) (hn : WFList items) (hm : WFList items')
    (r r' : Bytes) (h : listText items ++ 101 :: r = listText items' ++ 101 :: r') :
    items = items' ∧ r = r' := by
  cases items with
  | nil =>
    cases items' with
    | nil => exact ⟨rfl, by simpa [listText] using h⟩
    | cons m items' =>
      obtain ⟨c, t, htext, hc⟩ := text_head hm.1
      simp [listText, htext, Ne.symm hc] at h
  | cons n items =>
    cases items' with
    | nil =>
      obtain ⟨c, t, htext, hc⟩ := text_head hn.1
      simp [listText, htext, hc] at h
    | cons m items' =>
      rw [listText, listText, append_assoc, append_assoc] at h
      obtain ⟨heq, hrest⟩ := text_inj n m hn.1 hm.1 _ _ h
      obtain ⟨heq', hr⟩ := listText_inj items items' hn.2 hm.2 r r' hrest
      exact ⟨by rw [heq, heq'], hr⟩

theorem dictText_inj (items items' : List (Bytes × Bytes × Bencoded)) (hn : WFDict items)
    (hm : WFDict items') (r r' : Bytes)
    (h : dictText items ++ 101 :: r = dictText items' ++ 101 :: r') : items = items' ∧ r = r' := by
  cases items with
  | nil =>
    cases items' with
    | nil => exact ⟨rfl, by simpa [dictText] using h⟩
    | cons item' items' =>
      rw [dictText_cons_append] at h
      exact absurd h.symm (string_ne hm.1 (by decide))
  | cons item items =>
    obtain ⟨len, key, n⟩ := item
    cases items' with
    | nil =>
      rw [dictText_cons_append] at h
      exact absurd h (string_ne hn.1 (by decide))
    | cons item' items' =>
      obtain ⟨len', key', m⟩ := item'
      rw [dictText_cons_append, dictText_cons_append] at h
      obtain ⟨hlen, hkey, hrest⟩ := string_inj hn.1 hm.1 h
      obtain ⟨heq, hrest'⟩ := text_inj n m hn.2.1 hm.2.1 _ _ hrest
      obtain ⟨heq', hr⟩ := dictText_inj items items' hn.2.2 hm.2.2 r r' hrest'
      exact ⟨by rw [hlen, hkey, heq, heq'], hr⟩

end

/-! ### What is written like an entry is read as it -/

lemma put_of_forall_lt {key : Bytes} {v : Entry} (h : ∀ x ∈ d, x.1 < key) :
    put key v d = d ++ [(key, v)] := by
  induction d with
  | nil => rfl
  | cons x d ih =>
    have hx := h x mem_cons_self
    rw [put, if_neg (not_lt.mpr hx.le), if_neg hx.ne', ih fun y hy => h y (mem_cons_of_mem _ hy),
      cons_append]

lemma look_of_forall_lt {key : Bytes} (h : ∀ x ∈ d, x.1 < key) : look key d = none := by
  induction d with
  | nil => rfl
  | cons x d ih =>
    rw [look, if_neg (h x mem_cons_self).ne', ih fun y hy => h y (mem_cons_of_mem _ hy)]

mutual

/-- Both decoders make the same entry of a canonical tree, and it is written as the tree. -/
theorem Canonical.value_eq (n : Bencoded) (h : n.Canonical) :
    ∃ e, n.value = some e ∧ n.assign .undefined = .ok e ∧ bencode e = n.text := by
  cases n with
  | int body =>
    obtain ⟨v, hlo, hhi, rfl⟩ := h
    refine ⟨.int v, ?_, ?_, ?_⟩
    · rw [value, strtoll_signedDigits hlo hhi, map_some]
    · rw [assign, bodyValue_signedDigits hlo hhi]
    · rw [bencode, integerToStr_eq_signedDigits hlo, text, cons_append]
  | string len s =>
    obtain rfl : len = decDigits s.length := h
    exact ⟨.string s, rfl, rfl, rfl⟩
  | list items =>
    obtain ⟨l, hval, hassign, htext⟩ := Canonical.valueList_eq items h []
    refine ⟨.list l, ?_, ?_, ?_⟩
    · rw [value, hval, nil_append, map_some]
    · rw [assign, hassign]
      rfl
    · rw [bencode, htext, text, cons_append]
  | dict items =>
    obtain ⟨d, hval, hassign, htext⟩ := Canonical.valueDict_eq items h.2 h.1 [] (by simp)
    refine ⟨.dict d, ?_, ?_, ?_⟩
    · rw [value, hval, nil_append, map_some]
    · rw [assign, hassign]
      rfl
    · rw [bencode, htext, text, cons_append]

theorem Canonical.valueList_eq (items : List Bencoded)
    (h : SpelledList Decimal items)
    (l : List Entry) : ∃ l', valueList items l = some (l ++ l') ∧
      assignList items l = .ok (l ++ l') ∧ bencodeList l' = listText items := by
  cases items with
  | nil => exact ⟨[], by simp [valueList], by simp [assignList], rfl⟩
  | cons n items =>
    obtain ⟨e, hval, hassign, htext⟩ := Canonical.value_eq n h.1
    obtain ⟨l', hval', hassign', htext'⟩ := Canonical.valueList_eq items h.2 (l ++ [e])
    refine ⟨e :: l', ?_, ?_, ?_⟩
    · rw [valueList, hval]
      simpa using hval'
    · rw [assignList, hassign]
      simpa using hassign'
    · rw [bencodeList, htext, htext', listText]

theorem Canonical.valueDict_eq (items : List (Bytes × Bytes × Bencoded))
    (h : SpelledDict Decimal items)
    (hsorted : (items.map fun item => item.2.1).Pairwise (· < ·)) (d : List (Bytes × Entry))
    (hd : ∀ x ∈ d, ∀ item ∈ items, x.1 < item.2.1) : ∃ d', valueDict items d = some (d ++ d') ∧
      assignDict items d = .ok (d ++ d') ∧ bencodeDict d' = dictText items := by
  cases items with
  | nil => exact ⟨[], by simp [valueDict], by simp [assignDict], rfl⟩
  | cons item items =>
    obtain ⟨len, key, n⟩ := item
    obtain ⟨rfl, hn, hitems⟩ := h
    obtain ⟨hkey, hsorted⟩ := pairwise_cons.mp hsorted
    have hlt : ∀ x ∈ d, x.1 < key := fun x hx => hd x hx _ mem_cons_self
    obtain ⟨e, hval, hassign, htext⟩ := Canonical.value_eq n hn
    obtain ⟨d', hval', hassign', htext'⟩ := Canonical.valueDict_eq items hitems hsorted
      (d ++ [(key, e)]) (by
        intro x hx item hitem
        rcases mem_append.mp hx with hx | hx
        · exact hd x hx item (mem_cons_of_mem _ hitem)
        · rw [mem_singleton.mp hx]
          exact hkey _ (mem_map_of_mem hitem))
    refine ⟨(key, e) :: d', ?_, ?_, ?_⟩
    · rw [valueDict, hval]
      dsimp only
      rw [put_of_forall_lt hlt, hval', append_assoc, singleton_append]
    · rw [assignDict, hn.surplus_eq, append_nil, look_of_forall_lt hlt, getD_none, hassign]
      dsimp only
      rw [put_of_forall_lt hlt, hassign', append_assoc, singleton_append]
    · rw [bencodeDict, htext, htext', dictText, writeString]

end

/-! ### What is written is the text of a tree -/

lemma strtoll_range (h : strtoll s = some v) : -2 ^ 63 ≤ v ∧ v < 2 ^ 63 := by
  unfold strtoll at h
  dsimp only at h
  split_ifs at h <;> have := some.inj h <;> omega

lemma strtoll_integerToStr_min : strtoll (integerToStr (-2 ^ 63)) = none := by
  decide +kernel

def Written (body : Bytes) : Prop := ∃ v : ℤ, -2 ^ 63 ≤ v ∧ v < 2 ^ 63 ∧ body = integerToStr v

lemma not_mem_integerToStr (v : ℤ) : (101 : UInt8) ∉ integerToStr v := by
  have hdigits : ∀ n, (101 : UInt8) ∉ decDigits n := fun n hmem =>
    isDigit.ne (isDigit_of_mem_decDigits 101 hmem) (by decide) rfl
  unfold integerToStr
  split_ifs
  · decide +kernel
  · simp [hdigits]
  · exact hdigits _

/-- An entry that is written as the text of a tree. -/
def Writable (e : Entry) : Prop := ∃ m : Bencoded, m.WF ∧ m.Spelled Written ∧ m.text = bencode e

lemma exists_listText {l : List Entry} (h : ∀ e ∈ l, Writable e) :
    ∃ items, WFList items ∧ SpelledList Written items ∧ listText items = bencodeList l := by
  induction l with
  | nil => exact ⟨[], trivial, trivial, rfl⟩
  | cons e l ih =>
    obtain ⟨m, hwf, hspelled, htext⟩ := h e mem_cons_self
    obtain ⟨items, hwf', hspelled', htext'⟩ := ih fun e he => h e (mem_cons_of_mem _ he)
    exact ⟨m :: items, ⟨hwf, hwf'⟩, ⟨hspelled, hspelled'⟩, by rw [listText, htext, htext', bencodeList]⟩

lemma exists_dictText (h : ∀ x ∈ d, x.1.length ≤ int64Max ∧ Writable x.2) :
    ∃ items, WFDict items ∧ SpelledDict Written items ∧ dictText items = bencodeDict d ∧
      items.map (fun item => item.2.1) = d.map Prod.fst := by
  induction d with
  | nil => exact ⟨[], trivial, trivial, rfl, rfl⟩
  | cons x d ih =>
    obtain ⟨key, e⟩ := x
    obtain ⟨hlen, m, hwf, hspelled, htext⟩ := h (key, e) mem_cons_self
    obtain ⟨items, hwf', hspelled', htext', hkeys⟩ :=
      ih fun x hx => h x (mem_cons_of_mem _ hx)
    refine ⟨(decDigits key.length, key, m) :: items, ⟨isLength_decDigits hlen, hwf, hwf'⟩,
      ⟨rfl, hspelled, hspelled'⟩, ?_, by simp [hkeys]⟩
    rw [dictText, htext, htext', bencodeDict, writeString]

mutual

theorem writable_value (n : Bencoded) (hn : n.WF) (e : Entry) (h : n.value = some e) :
    Writable e := by
  cases n with
  | int body =>
    rw [value, map_eq_some_iff] at h
    obtain ⟨v, hv, rfl⟩ := h
    obtain ⟨hlo, hhi⟩ := strtoll_range hv
    exact ⟨.int (integerToStr v), not_mem_integerToStr v, ⟨v, hlo, hhi, rfl⟩,
      by rw [text, bencode, cons_append]⟩
  | string len s =>
    cases h
    exact ⟨.string (decDigits s.length) s, isLength_decDigits hn.le, rfl, rfl⟩
  | list items =>
    rw [value, map_eq_some_iff] at h
    obtain ⟨l, hl, rfl⟩ := h
    obtain ⟨items', hwf, hspelled, htext⟩ :=
      exists_listText (writable_valueList items hn [] l hl (by simp))
    exact ⟨.list items', hwf, hspelled, by rw [text, htext, bencode, cons_append]⟩
  | dict items =>
    rw [value, map_eq_some_iff] at h
    obtain ⟨d, hd, rfl⟩ := h
    obtain ⟨hwritable, hsorted⟩ := writable_valueDict items hn [] d hd (by simp) .nil
    obtain ⟨items', hwf, hspelled, htext, hkeys⟩ := exists_dictText hwritable
    refine ⟨.dict items', hwf, ⟨?_, hspelled⟩, by rw [text, htext, bencode, cons_append]⟩
    rw [hkeys, pairwise_map]
    exact hsorted

theorem writable_valueList (items : List Bencoded) (hn : WFList items) (l l' : List Entry)
    (h : valueList items l = some l') (hl : ∀ e ∈ l, Writable e) : ∀ e ∈ l', Writable e := by
  cases items with
  | nil =>
    cases h
    exact hl
  | cons n items =>
    rw [valueList] at h
    cases hval : n.value with
    | none =>
      rw [hval] at h
      cases h
    | some e =>
      rw [hval] at h
      exact writable_valueList items hn.2 (l ++ [e]) l' h (forall_mem_append.mpr
        ⟨hl, forall_mem_singleton.mpr (writable_value n hn.1 e hval)⟩)

theorem writable_valueDict (items : List (Bytes × Bytes × Bencoded)) (hn : WFDict items)
    (d d' : List (Bytes × Entry)) (h : valueDict items d = some d')
    (hd : ∀ x ∈ d, x.1.length ≤ int64Max ∧ Writable x.2)
    (hsorted : d.Pairwise fun a b => a.1 < b.1) :
    (∀ x ∈ d', x.1.length ≤ int64Max ∧ Writable x.2) ∧ d'.Pairwise fun a b => a.1 < b.1 := by
  cases items with
  | nil =>
    cases h
    exact ⟨hd, hsorted⟩
  | cons item items =>
    obtain ⟨len, key, n⟩ := item
    obtain ⟨hlen, hn, hitems⟩ := hn
    rw [valueDict] at h
    cases hval : n.value with
    | none =>
      rw [hval] at h
      cases h
    | some e =>
      rw [hval] at h
      refine writable_valueDict items hitems (put key e d) d' h (fun x hx => ?_)
        (put_sorted key e hsorted)
      rcases mem_put hx with rfl | hx
      · exact ⟨hlen.le, writable_value n hn e hval⟩
      · exact hd x hx

end

/-- A number that was read is not the smallest one, which is written wrongly. -/
lemma Written.signedDigits {body : Bytes} (h : Written body) (hval : strtoll body ≠ none) :
    ∃ v : ℤ, -2 ^ 63 < v ∧ v < 2 ^ 63 ∧ body = signedDigits v := by
  obtain ⟨v, hlo, hhi, hbody⟩ := h
  have hne : v ≠ -2 ^ 63 := by
    intro hv
    rw [hbody, hv] at hval
    exact hval strtoll_integerToStr_min
  have hlt : -2 ^ 63 < v := by omega
  exact ⟨v, hlt, hhi, hbody.trans (integerToStr_eq_signedDigits hlt)⟩

mutual

theorem canonical_of_written (n : Bencoded) (h : n.Spelled Written) (hval : n.value ≠ none) :
    n.Canonical := by
  cases n with
  | int body =>
    refine Written.signedDigits h fun hnone => hval ?_
    rw [value, hnone, map_none]
  | string len s =>
    have hlen : len = decDigits s.length := h
    exact hlen
  | list items =>
    refine canonicalList_of_written items h [] fun hnone => hval ?_
    rw [value, hnone, map_none]
  | dict items =>
    refine ⟨h.1, canonicalDict_of_written items h.2 [] fun hnone => hval ?_⟩
    rw [value, hnone, map_none]

theorem canonicalList_of_written (items : List Bencoded) (h : SpelledList Written items)
    (l : List Entry) (hval : valueList items l ≠ none) :
    SpelledList Decimal items := by
  cases items with
  | nil => trivial
  | cons n items =>
    rw [valueList] at hval
    cases hn : n.value with
    | none =>
      rw [hn] at hval
      exact absurd rfl hval
    | some e =>
      rw [hn] at hval
      exact ⟨canonical_of_written n h.1 (by simp [hn]), canonicalList_of_written items h.2 _ hval⟩

theorem canonicalDict_of_written (items : List (Bytes × Bytes × Bencoded))
    (h : SpelledDict Written items) (d : List (Bytes × Entry)) (hval : valueDict items d ≠ none) :
    SpelledDict Decimal items := by
  cases items with
  | nil => trivial
  | cons item items =>
    obtain ⟨len, key, n⟩ := item
    rw [valueDict] at hval
    cases hn : n.value with
    | none =>
      rw [hn] at hval
      exact absurd rfl hval
    | some e =>
      rw [hn] at hval
      exact ⟨h.1, canonical_of_written n h.2.1 (by simp [hn]),
        canonicalDict_of_written items h.2.2 _ hval⟩

end

end Bencoded

/-- **Decoding and encoding again gives a text back** if and only if it is canonical. -/
theorem bencode_bdecode_text_iff {n : Bencoded} (hn : n.WF) (hsize : n.text.length < 2 ^ 31)
    (hdepth : n.depth < 100) : bencode (bdecode n.text) = n.text ↔ n.Canonical := by
  rw [bdecode_text hn hsize hdepth]
  constructor
  · intro h
    cases hval : n.value with
    | none =>
      obtain ⟨c, t, htext, -⟩ := text_head hn
      rw [hval, getD_none, bencode, htext] at h
      cases h
    | some e =>
      rw [hval, getD_some] at h
      obtain ⟨m, hwf, hspelled, htext⟩ := writable_value n hn e hval
      obtain ⟨rfl, -⟩ := text_inj m n hwf hn [] [] (by rw [htext, h])
      exact canonical_of_written m hspelled (by simp [hval])
  · intro h
    obtain ⟨e, hval, -, htext⟩ := Canonical.value_eq n h
    rw [hval, getD_some, htext]

end FreechCore
