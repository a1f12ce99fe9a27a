import FreechCore.Bencode.Canonical

/-!
Reading back what was written. The text of an entry is that of a tree, and what is found in the
decoded tree under a name is what the entry had under that name.
-/

namespace FreechCore

open Bencoded Entry StdMap
open List hiding count

variable {s key : Bytes} {m : Bencoded} {P : Bytes → Prop}

/-! ### The tree of an entry -/

/-- The text of an entry is that of the tree. The names of a dictionary are in their order, since
an entry keeps them in a map. -/
structure Entry.WrittenAs (e : Entry) (n : Bencoded) : Prop where
  wf : n.WF
  text : n.text = bencode e
  spelled : n.Spelled fun _ => True

lemma Entry.writtenAs_string (hs : s.length ≤ int64Max) :
    (Entry.string s).WrittenAs (.string (decDigits s.length) s) := by
  refine ⟨isLength_decDigits hs, by rw [bencode, writeString, text], ?_⟩
  rw [Spelled]

lemma Entry.writtenAs_int (v : ℤ) : (int v).WrittenAs (.int (integerToStr v)) :=
  ⟨not_mem_integerToStr v, rfl, trivial⟩

variable {e : Entry} {n : Bencoded} {d : List (Bytes × Entry)}

lemma Entry.WrittenAs.unique (hn : e.WrittenAs n) (hm : e.WrittenAs m) : n = m :=
  (text_inj n m hn.wf hm.wf [] [] (by rw [hn.text, hm.text])).1

lemma span_of_isDict (h : m.isDict = true) : m.span = m.text := by
  cases m with
  | dict items => rfl
  | _ => cases h

/-- The values of a dictionary are texts of trees. -/
def DictWritable (d : List (Bytes × Entry)) : Prop :=
  ∀ x ∈ d, x.1.length ≤ int64Max ∧ ∃ n, x.2.WrittenAs n

/-- What a decoded dictionary has under a name is what the entry had there. -/
structure DictWrittenAs (d : List (Bytes × Entry)) (n : Bencoded) : Prop where
  written : (dict d).WrittenAs n
  isDict : n.isDict = true
  found : ∀ {name e}, look name d = some e → ∃ m, n.find name = some m ∧ e.WrittenAs m
  missing : ∀ {name}, look name d = none → n.find name = none
  depth : ∀ {D}, (∀ x ∈ d, ∀ m, x.2.WrittenAs m → m.depth ≤ D) → n.depth ≤ D + 1

lemma DictWritable.exists_writtenAs (h : DictWritable d) (hsorted : d.Pairwise fun a b => a.1 < b.1) :
    ∃ n, DictWrittenAs d n := by
  suffices ∃ items, WFDict items ∧ dictText items = bencodeDict d ∧
      SpelledDict (fun _ => True) items ∧ (items.map fun item => item.2.1) = d.map Prod.fst ∧
      (∀ D, (∀ x ∈ d, ∀ m, x.2.WrittenAs m → m.depth ≤ D) → depthDict items ≤ D) ∧ ∀ name,
      (look name d = none → (dict items).find name = none) ∧
        ∀ e, look name d = some e → ∃ m, (dict items).find name = some m ∧
          e.WrittenAs m by
    obtain ⟨items, hwf, htext, hspelled, hkeys, hdepth, hfind⟩ := this
    refine ⟨.dict items, ⟨hwf, ?_, ?_, hspelled⟩, rfl, fun he => (hfind _).2 _ he,
      fun he => (hfind _).1 he, fun h => Nat.succ_le_succ (hdepth _ h)⟩
    · rw [text, htext, bencode, cons_append]
    · rw [hkeys]
      exact pairwise_map.mpr hsorted
  clear hsorted
  induction d with
  | nil =>
    exact ⟨[], trivial, rfl, trivial, rfl, fun D _ => Nat.zero_le D,
      fun name => ⟨fun _ => rfl, fun e he => by cases he⟩⟩
  | cons x d ih =>
    obtain ⟨key, e⟩ := x
    obtain ⟨hkey, m, hm⟩ := h (key, e) mem_cons_self
    obtain ⟨items, hwf, htext, hspelled, hkeys, hdepth, hfind⟩ :=
      ih fun x hx => h x (mem_cons_of_mem _ hx)
    refine ⟨(decDigits key.length, key, m) :: items, ⟨isLength_decDigits hkey, hm.wf, hwf⟩, ?_,
      ⟨rfl, hm.spelled, hspelled⟩, by rw [map_cons, hkeys, map_cons], fun D hD => ?_,
      fun name => ?_⟩
    · rw [dictText, hm.text, htext, bencodeDict, writeString]
    · exact max_le (hD _ mem_cons_self m hm)
        (hdepth D fun x hx => hD x (mem_cons_of_mem _ hx))
    · have hname : decide (key ++ m.surplus = name) = decide (key = name) := by
        rw [hm.spelled.surplus_eq, append_nil]
      simp only [look, find, List.find?_cons, hname] at hfind ⊢
      by_cases hk : name = key
      · subst hk
        simp only [if_true, decide_true]
        refine ⟨fun he => (by cases he), fun e' he' => ?_⟩
        cases he'
        exact ⟨m, rfl, hm⟩
      · simp only [hk, Ne.symm hk, if_false, decide_false]
        exact hfind name

/-! ### Copying -/

mutual

/-- A tree with the names of its dictionaries in their order can be copied: no name comes twice. -/
theorem Bencoded.Spelled.exists_assign (n : Bencoded) (h : n.Spelled P) :
    ∃ e, n.assign .undefined = .ok e := by
  cases n with
  | int body => exact ⟨_, rfl⟩
  | string len s => exact ⟨_, rfl⟩
  | list items =>
    obtain ⟨l, hl⟩ := SpelledList.exists_assign items h []
    exact ⟨.list l, by rw [assign, hl]; rfl⟩
  | dict items =>
    obtain ⟨d, hd⟩ := SpelledDict.exists_assign items h.2 h.1 [] (by simp)
    exact ⟨.dict d, by rw [assign, hd]; rfl⟩

theorem Bencoded.SpelledList.exists_assign (items : List Bencoded) (h : SpelledList P items)
    (l : List Entry) : ∃ l', assignList items l = .ok l' := by
  cases items with
  | nil => exact ⟨l, by rw [assignList]⟩
  | cons n items =>
    obtain ⟨e, he⟩ := Spelled.exists_assign n h.1
    obtain ⟨l', hl'⟩ := SpelledList.exists_assign items h.2 (l ++ [e])
    exact ⟨l', by rw [assignList, he]; exact hl'⟩

theorem Bencoded.SpelledDict.exists_assign (items : List (Bytes × Bytes × Bencoded))
    (h : SpelledDict P items) (hsorted : (items.map fun item => item.2.1).Pairwise (· < ·))
    (d : List (Bytes × Entry)) (hd : ∀ x ∈ d, ∀ item ∈ items, x.1 < item.2.1) :
    ∃ d', assignDict items d = .ok d' := by
  cases items with
  | nil => exact ⟨d, by rw [assignDict]⟩
  | cons item items =>
    obtain ⟨len, key, n⟩ := item
    obtain ⟨-, hn, hitems⟩ := h
    obtain ⟨hkey, hsorted⟩ := pairwise_cons.mp hsorted
    obtain ⟨e, he⟩ := Spelled.exists_assign n hn
    obtain ⟨d', hd'⟩ := SpelledDict.exists_assign items hitems hsorted (put key e d) (by
      intro x hx item hitem
      rcases mem_put hx with rfl | hx
      · exact hkey _ (mem_map_of_mem hitem)
      · exact hd x hx item (mem_cons_of_mem _ hitem))
    refine ⟨d', ?_⟩
    have hnone : look key d = none := look_of_forall_lt fun x hx => hd x hx _ mem_cons_self
    rw [assignDict, hn.surplus_eq, append_nil, hnone, Option.getD_none, he]
    exact hd'

end

/-! ### Reading -/

section Reading

variable {data : Bytes} {e : LazyEntry} {name : String}

section

variable (h : DictWrittenAs d n) (he : e.IsOf data n)

include h he

lemma DictWrittenAs.readString
    (hs : s.length ≤ int64Max) (hlook : look (ascii name) d = some (.string s)) :
    e.dictFindStringValue data name = s := by
  obtain ⟨m, hfind, hm⟩ := h.found hlook
  cases hm.unique (Entry.writtenAs_string hs)
  rw [LazyEntry.dictFindStringValue, he.dictFindString, hfind]
  rfl

lemma DictWrittenAs.readInt {v : ℤ} (hlo : -2 ^ 63 < v)
    (hhi : v < 2 ^ 63) (hlook : look (ascii name) d = some (.int v)) (defaultVal : ℤ) :
    e.dictFindIntValue data name defaultVal = v := by
  obtain ⟨m, hfind, hm⟩ := h.found hlook
  cases hm.unique (writtenAs_int v)
  rw [he.dictFindIntValue, hfind]
  exact (congrArg bodyValue (integerToStr_eq_signedDigits hlo)).trans
    (bodyValue_signedDigits hlo hhi)

lemma DictWrittenAs.readDict {v : Entry}
    (hm : v.WrittenAs m) (hdict : m.isDict = true) (hlook : look (ascii name) d = some v) :
    ∃ e', e.dictFindDict data name = some e' ∧ e'.IsOf data m := by
  obtain ⟨m', hfind, hm'⟩ := h.found hlook
  cases hm'.unique hm
  rcases he.dictFind (ascii name) with ⟨hnone, -⟩ | ⟨v', e', hv', he', hof⟩
  · rw [hfind] at hnone
    cases hnone
  · rw [hfind] at hv'
    cases hv'
    have hisDict := hof.isDict
    rw [hdict] at hisDict
    refine ⟨e', ?_, hof⟩
    rw [LazyEntry.dictFindDict, he']
    cases e' with
    | dict b l items => rfl
    | _ => cases hisDict

lemma DictWrittenAs.readNone (hlook : look (ascii name) d = none) :
    e.dictFindDict data name = none ∧ e.dictFindStringValue data name = [] := by
  rcases he.dictFind (ascii name) with ⟨-, hnone⟩ | ⟨v', e', hv', -, -⟩
  · rw [LazyEntry.dictFindDict, LazyEntry.dictFindStringValue, LazyEntry.dictFindString, hnone]
    exact ⟨rfl, rfl⟩
  · rw [h.missing hlook] at hv'
    cases hv'

end

end Reading

/-! ### Sizes -/

mutual

/-- Each entry and each level of nesting takes its part of the text. -/
theorem count_le_length (n : Bencoded) (hn : n.WF) :
    n.count ≤ n.text.length ∧ 2 * n.depth ≤ n.text.length := by
  cases n with
  | int body => simp [count, depth, text]
  | string len s =>
    simp only [count, depth, text, length_append, length_cons]
    omega
  | list items =>
    have := count_le_length_list items hn
    simp only [count, depth, text, length_cons, length_append, length_nil]
    omega
  | dict items =>
    have := count_le_length_dict items hn
    simp only [count, depth, text, length_cons, length_append, length_nil]
    omega

theorem count_le_length_list (items : List Bencoded) (hn : WFList items) :
    countList items ≤ (listText items).length ∧
      2 * depthList items ≤ (listText items).length := by
  cases items with
  | nil => simp [countList, depthList]
  | cons n items =>
    have h1 := count_le_length n hn.1
    have h2 := count_le_length_list items hn.2
    simp only [countList, depthList, listText, length_append]
    omega

theorem count_le_length_dict (items : List (Bytes × Bytes × Bencoded)) (hn : WFDict items) :
    countDict items ≤ (dictText items).length ∧
      2 * depthDict items ≤ (dictText items).length := by
  cases items with
  | nil => simp [countDict, depthDict]
  | cons item items =>
    obtain ⟨len, key, n⟩ := item
    have h1 := count_le_length n hn.2.1
    have h2 := count_le_length_dict items hn.2.2
    simp only [countDict, depthDict, dictText, length_append, length_cons]
    omega

end

section

variable (h : look key d = some e)

include h

lemma exists_length_bencodeDict :
    ∃ d', (bencodeDict d).length =
        (writeString key).length + (bencode e).length + (bencodeDict d').length ∧
      ∀ key', key' ≠ key → look key' d' = look key' d := by
  induction d with
  | nil => cases h
  | cons x d ih =>
    obtain ⟨key', e'⟩ := x
    rw [look] at h
    split_ifs at h with hk
    · cases h
      refine ⟨d, by simp only [bencodeDict, length_append, hk], fun k hne => ?_⟩
      rw [look, if_neg]
      rintro rfl
      exact hne hk.symm
    · obtain ⟨d', hlen, hlook⟩ := ih h
      refine ⟨(key', e') :: d', ?_, fun k hne => ?_⟩
      · simp only [bencodeDict, length_append, hlen]
        omega
      · rw [look, look, hlook k hne]

lemma length_bencode_le :
    (bencode e).length ≤ (bencodeDict d).length := by
  obtain ⟨d', hlen, -⟩ := exists_length_bencodeDict h
  omega

end

lemma length_le_of_look_string (h : look key d = some (.string s)) :
    s.length ≤ (bencodeDict d).length := by
  have hle := length_bencode_le h
  rw [bencode, writeString, length_append, length_cons] at hle
  omega

/-! ### What can be written -/

/-- An entry that can be written if its text is not too long. -/
def Entry.Fits (e : Entry) : Prop := (bencode e).length ≤ int64Max → ∃ n, e.WrittenAs n

lemma Entry.fits_string (s : Bytes) : (Entry.string s).Fits := by
  intro hlen
  rw [bencode, writeString, length_append, length_cons] at hlen
  exact ⟨_, writtenAs_string (by omega)⟩

lemma Entry.fits_int (v : ℤ) : (int v).Fits := fun _ => ⟨_, writtenAs_int v⟩

lemma Entry.WrittenAs.fits (h : e.WrittenAs m) : e.Fits := fun _ => ⟨m, h⟩

/-- A dictionary with the names in their order and values that can be written. -/
structure DictFits (d : List (Bytes × Entry)) : Prop where
  sorted : d.Pairwise fun a b => a.1 < b.1
  fits : ∀ x ∈ d, x.2.Fits

namespace DictFits

lemma nil : DictFits [] := ⟨.nil, by simp⟩

lemma put (h : DictFits d) (key : Bytes) (he : e.Fits) : DictFits (StdMap.put key e d) := by
  refine ⟨put_sorted _ _ h.sorted, fun x hx => ?_⟩
  rcases mem_put hx with rfl | hx
  · exact he
  · exact h.fits x hx

lemma writable (h : DictFits d) (hlen : (bencodeDict d).length ≤ int64Max) : DictWritable d := by
  intro x hx
  obtain ⟨d', hlen', -⟩ := exists_length_bencodeDict ((look_eq_some_iff h.sorted).mpr hx)
  rw [writeString, length_append, length_cons] at hlen'
  exact ⟨by omega, h.fits x hx (by omega)⟩

lemma dict (h : DictFits d) : (dict d).Fits := by
  intro hlen
  rw [bencode, cons_append, length_cons, length_append] at hlen
  obtain ⟨n, hn⟩ := (h.writable (by omega)).exists_writtenAs h.sorted
  exact ⟨n, hn.written⟩

end DictFits

lemma DictWrittenAs.decode (h : DictWrittenAs d n) (hdepth : n.depth ≤ 1000)
    (hsize : (bencode (.dict d)).length < 1000000) :
    ∃ e, bdecodeDict (bencode (.dict d)) = some e ∧ e.IsOf (bencode (.dict d)) n := by
  have htext := h.written.text
  have hwf := h.written.wf
  cases n with
  | dict items =>
    have hat : TextAt (bencode (.dict d)) 0 (text (.dict items)) := by
      rw [htext]
      exact ⟨[], by simp⟩
    have hcount := (count_le_length _ hwf).1
    rw [htext] at hcount
    have hok := lazyBdecodeWithin_text hwf hat hdepth
      (by omega : count (.dict items) < 1000000)
    refine ⟨_, ?_, hwf, 0, hat, rfl⟩
    rw [bdecodeDict, lazyBdecode, hok]
    rfl
  | _ => cases h.isDict

end FreechCore
