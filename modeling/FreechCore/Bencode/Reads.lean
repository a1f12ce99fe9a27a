import FreechCore.Bencode.Tree

/-!
Entries that survive being written and read. An entry that has a value everywhere, numbers that
can be negated and names in their order is the text of one tree; what the decoder finds in that
text, at every place, reads as what the entry has there. Whatever is copied out of a decoded text is
such an entry.
-/

namespace FreechCore

open Bencoded Entry List StdMap

/-! ### Clean entries -/

mutual

/-- Every part has a value, numbers are above the smallest one of 64 bits, and the names of a
dictionary are in their order. -/
def Entry.Clean : Entry → Prop
  | .undefined => False
  | .int v => -2 ^ 63 < v ∧ v < 2 ^ 63
  | .string _ => True
  | .list l => Entry.CleanList l
  | .dict d => (d.Pairwise fun a b => a.1 < b.1) ∧ Entry.CleanDict d

def Entry.CleanList : List Entry → Prop
  | [] => True
  | e :: l => e.Clean ∧ Entry.CleanList l

def Entry.CleanDict : List (Bytes × Entry) → Prop
  | [] => True
  | (_, e) :: d => e.Clean ∧ Entry.CleanDict d

end

lemma Entry.cleanList_iff {l : List Entry} : Entry.CleanList l ↔ ∀ e ∈ l, e.Clean := by
  induction l with
  | nil => simp [Entry.CleanList]
  | cons e l ih => simp [Entry.CleanList, ih]

variable {d : List (Bytes × Entry)} {data : Bytes} {e : LazyEntry}

lemma Entry.cleanDict_iff : Entry.CleanDict d ↔ ∀ x ∈ d, x.2.Clean := by
  induction d with
  | nil => simp [Entry.CleanDict]
  | cons x d ih =>
    simp [Entry.CleanDict, ih]

lemma Entry.CleanDict.put (h : Entry.CleanDict d) {key : Bytes}
    {e : Entry} (he : e.Clean) : Entry.CleanDict (put key e d) := by
  rw [cleanDict_iff] at h ⊢
  intro x hx
  rcases mem_put hx with rfl | hx
  · exact he
  · exact h x hx

lemma Entry.Clean.put (h : (Entry.dict d).Clean) (key : Bytes)
    {e : Entry} (he : e.Clean) : (Entry.dict (StdMap.put key e d)).Clean :=
  ⟨put_sorted _ _ h.1, h.2.put he⟩

lemma Entry.clean_nil : (Entry.dict []).Clean := ⟨List.Pairwise.nil, trivial⟩

/-! ### The tree -/

mutual

def Entry.tree : Entry → Bencoded
  | .undefined => .list []
  | .int v => .int (integerToStr v)
  | .string s => .string (decDigits s.length) s
  | .list l => .list (Entry.treeList l)
  | .dict d => .dict (Entry.treeDict d)

def Entry.treeList : List Entry → List Bencoded
  | [] => []
  | e :: l => e.tree :: Entry.treeList l

def Entry.treeDict : List (Bytes × Entry) → List (Bytes × Bytes × Bencoded)
  | [] => []
  | (key, e) :: d => (decDigits key.length, key, e.tree) :: Entry.treeDict d

end

mutual

lemma Entry.Clean.text_tree (e : Entry) (h : e.Clean) : e.tree.text = bencode e := by
  cases e with
  | undefined => exact h.elim
  | int v => rfl
  | string s => rfl
  | list l => rw [Entry.tree, text, bencode, Entry.Clean.text_treeList l h]; rfl
  | dict d => rw [Entry.tree, text, bencode, Entry.Clean.text_treeDict d h.2]; rfl

lemma Entry.Clean.text_treeList (l : List Entry) (h : Entry.CleanList l) :
    listText (Entry.treeList l) = bencodeList l := by
  cases l with
  | nil => rfl
  | cons e l =>
    rw [Entry.treeList, listText, bencodeList, Entry.Clean.text_tree e h.1,
      Entry.Clean.text_treeList l h.2]

lemma Entry.Clean.text_treeDict (d : List (Bytes × Entry)) (h : Entry.CleanDict d) :
    dictText (Entry.treeDict d) = bencodeDict d := by
  cases d with
  | nil => rfl
  | cons x d =>
    obtain ⟨key, e⟩ := x
    rw [Entry.treeDict, dictText, bencodeDict, writeString, Entry.Clean.text_tree e h.1,
      Entry.Clean.text_treeDict d h.2]

end

mutual

lemma Entry.Clean.wf_tree (e : Entry) (h : e.Clean) (hlen : (bencode e).length ≤ int64Max) :
    e.tree.WF := by
  cases e with
  | undefined => exact h.elim
  | int v => exact not_mem_integerToStr v
  | string s =>
    rw [bencode, writeString, length_append, length_cons] at hlen
    exact isLength_decDigits (by omega)
  | list l =>
    rw [bencode, length_append, length_cons] at hlen
    exact Entry.Clean.wf_treeList l h (by omega)
  | dict d =>
    rw [bencode, length_append, length_cons] at hlen
    exact Entry.Clean.wf_treeDict d h.2 (by omega)

lemma Entry.Clean.wf_treeList (l : List Entry) (h : Entry.CleanList l)
    (hlen : (bencodeList l).length ≤ int64Max) : WFList (Entry.treeList l) := by
  cases l with
  | nil => trivial
  | cons e l =>
    rw [bencodeList, length_append] at hlen
    exact ⟨Entry.Clean.wf_tree e h.1 (by omega), Entry.Clean.wf_treeList l h.2 (by omega)⟩

lemma Entry.Clean.wf_treeDict (d : List (Bytes × Entry)) (h : Entry.CleanDict d)
    (hlen : (bencodeDict d).length ≤ int64Max) : WFDict (Entry.treeDict d) := by
  cases d with
  | nil => trivial
  | cons x d =>
    obtain ⟨key, e⟩ := x
    simp only [bencodeDict, writeString, length_append, length_cons] at hlen
    exact ⟨isLength_decDigits (by omega), Entry.Clean.wf_tree e h.1 (by omega),
      Entry.Clean.wf_treeDict d h.2 (by omega)⟩

end

lemma Entry.surplus_tree (e : Entry) : e.tree.surplus = [] := by
  cases e with
  | string s =>
    rw [Entry.tree, surplus, decDigits, length_map, numDigits, Nat.sub_self, take_zero]
  | _ => rfl

lemma Entry.find_tree (d : List (Bytes × Entry)) (name : Bytes) :
    (Entry.dict d).tree.find name = (look name d).map Entry.tree := by
  rw [Entry.tree, find]
  induction d with
  | nil => rfl
  | cons x d ih =>
    obtain ⟨key, e⟩ := x
    rw [Entry.treeDict, List.find?_cons, Entry.surplus_tree, append_nil, look]
    by_cases hk : key = name
    · simp [hk]
    · simp only [hk, Ne.symm hk, decide_false, if_false, ih]

mutual

lemma Entry.Clean.assign_tree (e : Entry) (h : e.Clean) : e.tree.assign .undefined = .ok e := by
  cases e with
  | undefined => exact h.elim
  | int v =>
    rw [Entry.tree, assign, integerToStr_eq_signedDigits h.1,
      bodyValue_signedDigits h.1 h.2]
  | string s => rfl
  | list l =>
    rw [Entry.tree, assign, Entry.Clean.assign_treeList l h []]
    rfl
  | dict d =>
    rw [Entry.tree, assign, Entry.Clean.assign_treeDict d h.2 [] (by simpa using h.1)]
    rfl

lemma Entry.Clean.assign_treeList (l : List Entry) (h : Entry.CleanList l) (l₀ : List Entry) :
    assignList (Entry.treeList l) l₀ = .ok (l₀ ++ l) := by
  cases l with
  | nil => rw [Entry.treeList, assignList, append_nil]
  | cons e l =>
    rw [Entry.treeList, assignList, Entry.Clean.assign_tree e h.1]
    dsimp only
    rw [Entry.Clean.assign_treeList l h.2, append_assoc, singleton_append]

lemma Entry.Clean.assign_treeDict (d : List (Bytes × Entry)) (h : Entry.CleanDict d)
    (d₀ : List (Bytes × Entry)) (hsorted : (d₀ ++ d).Pairwise fun a b => a.1 < b.1) :
    assignDict (Entry.treeDict d) d₀ = .ok (d₀ ++ d) := by
  cases d with
  | nil => rw [Entry.treeDict, assignDict, append_nil]
  | cons x d =>
    obtain ⟨key, e⟩ := x
    have hlt : ∀ x ∈ d₀, x.1 < key := fun x hx =>
      (pairwise_append.mp hsorted).2.2 x hx (key, e) mem_cons_self
    rw [Entry.treeDict, assignDict, Entry.surplus_tree, append_nil,
      look_of_forall_lt hlt, Option.getD_none, Entry.Clean.assign_tree e h.1]
    dsimp only
    rw [put_of_forall_lt hlt, Entry.Clean.assign_treeDict d h.2 (d₀ ++ [(key, e)])
      (by rwa [append_assoc, singleton_append]), append_assoc, singleton_append]

end

/-! ### Reading -/

/-- A decoded entry reads as an entry. -/
structure LazyEntry.Reads (data : Bytes) (e : LazyEntry) (x : Entry) : Prop where
  clean : x.Clean
  isOf : e.IsOf data x.tree

def Entry.intValueOr (e : Entry) (key : String) (defaultVal : ℤ) : ℤ :=
  match e.findKey key with
  | some (.int v) => v
  | _ => defaultVal

/-- A field of a decoded dictionary reads as a field. -/
def LazyEntry.ReadsField (data : Bytes) (item : ℕ × LazyEntry) (x : Bytes × Entry) : Prop :=
  LazyEntry.nameOf data item = x.1 ∧ item.2.Reads data x.2

namespace LazyEntry.Reads

variable {x : Entry} {l : List Entry}

lemma toEntry (h : e.Reads data x) : e.toEntry data = .ok x := by
  rw [h.isOf.toEntry, h.clean.assign_tree]

lemma string {s : Bytes} (h : e.Reads data (.string s)) : e.stringValue data = s := by
  obtain ⟨-, pos, hat, rfl⟩ := h.isOf
  exact slice_string hat

lemma locateList {pos : ℕ} (hl : Entry.CleanList l) (hwf : WFList (Entry.treeList l))
    (hat : TextAt data pos (listText (Entry.treeList l))) :
    List.Forall₂ (LazyEntry.Reads data) (locateList pos (Entry.treeList l)) l := by
  induction l generalizing pos with
  | nil => exact .nil
  | cons x l ih =>
    exact .cons ⟨hl.1, hwf.1, pos, hat.left, rfl⟩ (ih hl.2 hwf.2 hat.right)

lemma locateDict {pos : ℕ} (hd : Entry.CleanDict d) (hwf : WFDict (Entry.treeDict d))
    (hat : TextAt data pos (dictText (Entry.treeDict d))) :
    List.Forall₂ (LazyEntry.ReadsField data) (locateDict pos (Entry.treeDict d)) d := by
  induction d generalizing pos with
  | nil => exact .nil
  | cons x d ih =>
    refine .cons ⟨?_, hd.1, hwf.2.1, _, hat.left.value, rfl⟩ (ih hd.2 hwf.2.2 hat.afterValue)
    rw [nameOf_locate hwf.2.1 hat.left, Entry.surplus_tree, append_nil]

lemma list (h : e.Reads data (.list l)) :
    ∃ b len items, e = .list b len items ∧ List.Forall₂ (LazyEntry.Reads data) items l := by
  obtain ⟨hwf, pos, hat, rfl⟩ := h.isOf
  exact ⟨_, _, _, rfl, locateList h.clean hwf hat.tail.left⟩

section

variable (h : e.Reads data (.dict d))

include h

lemma dict :
    ∃ b len items, e = .dict b len items ∧ List.Forall₂ (LazyEntry.ReadsField data) items d := by
  obtain ⟨hwf, pos, hat, rfl⟩ := h.isOf
  exact ⟨_, _, _, rfl, locateDict h.clean.2 hwf hat.tail.left⟩

lemma clean_of_look {name : Bytes} (hx : look name d = some x) :
    x.Clean :=
  cleanDict_iff.mp h.clean.2 _ ((look_eq_some_iff h.clean.1).mp hx)

lemma dictFind (name : Bytes) :
    Option.Rel (LazyEntry.Reads data) (e.dictFind data name) (look name d) := by
  have hfind := Entry.find_tree d name
  rcases h.isOf.dictFind name with ⟨hnone, he⟩ | ⟨v, e', hv, he, hof⟩
  · rw [hnone] at hfind
    rw [he, Option.map_eq_none_iff.mp hfind.symm]
    exact .none
  · rw [hv] at hfind
    obtain ⟨x, hx, rfl⟩ := Option.map_eq_some_iff.mp hfind.symm
    rw [he, hx]
    exact .some ⟨h.clean_of_look hx, hof⟩

end

lemma isDict_iff (h : e.Reads data x) : e.isDict = true ↔ ∃ d, x = .dict d := by
  rw [h.isOf.isDict]
  cases x <;> simp [Entry.tree, Bencoded.isDict]

section

variable (h : e.Reads data (.dict d)) (name : String)

include h

lemma dictFindDict :
    (∃ e' d', e.dictFindDict data name = some e' ∧ look (ascii name) d = some (.dict d') ∧
      e'.Reads data (.dict d')) ∨
      e.dictFindDict data name = none ∧ ∀ d', look (ascii name) d ≠ some (.dict d') := by
  have hrel := h.dictFind (ascii name)
  rw [LazyEntry.dictFindDict]
  generalize e.dictFind data (ascii name) = found, look (ascii name) d = value at hrel ⊢
  cases hrel with
  | none => exact Or.inr ⟨rfl, by simp⟩
  | @some e' x hread =>
    by_cases hx : ∃ d', x = .dict d'
    · obtain ⟨d', rfl⟩ := hx
      obtain ⟨b, len, items, rfl, -⟩ := hread.dict
      exact Or.inl ⟨_, d', rfl, rfl, hread⟩
    · refine Or.inr ⟨?_, fun d' hd' => hx ⟨d', Option.some.inj hd'⟩⟩
      rw [← hread.isDict_iff] at hx
      cases e' with
      | dict b len items => exact absurd rfl hx
      | _ => rfl

lemma dictFindStringValue :
    e.dictFindStringValue data name = safeGetEntryString (.dict d) name := by
  rw [LazyEntry.dictFindStringValue, h.isOf.dictFindString, Entry.find_tree, safeGetEntryString,
    Entry.findKey]
  cases look (ascii name) d with
  | none => rfl
  | some x => cases x <;> rfl

lemma dictFindIntValue (defaultVal : ℤ) :
    e.dictFindIntValue data name defaultVal = (Entry.dict d).intValueOr name defaultVal := by
  rw [h.isOf.dictFindIntValue, Entry.find_tree, Entry.intValueOr, Entry.findKey]
  cases hx : look (ascii name) d with
  | none => rfl
  | some x =>
    cases x with
    | int v =>
      obtain ⟨hlo, hhi⟩ := h.clean_of_look hx
      exact (congrArg bodyValue (integerToStr_eq_signedDigits hlo)).trans
        (bodyValue_signedDigits hlo hhi)
    | _ => rfl

end

end LazyEntry.Reads

section Decode

variable (h : (Entry.dict d).Clean) (hlen : (bencode (.dict d)).length ≤ int64Max)

include h hlen

omit hlen in
lemma Entry.Clean.textAt : TextAt (bencode (.dict d)) 0 (Entry.dict d).tree.text :=
  ⟨[], by rw [h.text_tree, append_nil, drop_zero]⟩

lemma Entry.Clean.reads_of_decode (he : lazyBdecode (bencode (.dict d)) = .ok e) :
    e.Reads (bencode (.dict d)) (.dict d) ∧
      (Entry.dict d).tree.depth ≤ 1000 ∧ (Entry.dict d).tree.count < 1000000 := by
  obtain ⟨n, hn, ⟨post, hat⟩, rfl, hdepth, hcount⟩ := lazyBdecodeWithin_ok he
  rw [drop_zero, ← h.text_tree] at hat
  obtain ⟨rfl, -⟩ := text_inj _ n (h.wf_tree _ hlen) hn [] post (by rwa [append_nil])
  exact ⟨⟨h, hn, 0, h.textAt, rfl⟩, hdepth, hcount⟩

lemma Entry.Clean.exists_decode (hdepth : (Entry.dict d).tree.depth ≤ 1000)
    (hcount : (Entry.dict d).tree.count < 1000000) :
    ∃ e, lazyBdecode (bencode (.dict d)) = .ok e :=
  ⟨_, lazyBdecodeWithin_text (h.wf_tree _ hlen) (h.textAt) hdepth hcount⟩

end Decode

/-! ### Copies are clean -/

lemma LazyEntry.intValue_range (data : Bytes) (e : LazyEntry) :
    -2 ^ 63 < e.intValue data ∧ e.intValue data < 2 ^ 63 := by
  cases e with
  | int start size =>
    unfold LazyEntry.intValue
    dsimp only
    split
    · norm_num
    · rename_i hval
      have hle : (int64Max : ℤ) < 2 ^ 63 := by decide
      obtain ⟨_, _, -, -, -, -, hmax⟩ := parseInt_ok hval
      split_ifs <;> omega
  | _ => simp [LazyEntry.intValue]

mutual

lemma LazyEntry.clean_assign (e : LazyEntry) (x y : Entry) (hx : x = .undefined ∨ x.Clean)
    (h : e.assign data x = .ok y) : y.Clean := by
  match e with
  | .int start size =>
    have hrange := LazyEntry.intValue_range data (.int start size)
    cases x <;> simp only [LazyEntry.assign, reduceCtorEq, Except.ok.injEq] at h <;>
      exact h ▸ hrange
  | .string start size =>
    cases x <;> simp only [LazyEntry.assign, reduceCtorEq, Except.ok.injEq] at h <;>
      exact h ▸ trivial
  | .list b len items =>
    cases x with
    | undefined =>
      rw [LazyEntry.assign, except_map_eq_ok] at h
      obtain ⟨l', hl', rfl⟩ := h
      exact LazyEntry.clean_assignList items [] l' trivial hl'
    | list l =>
      rw [LazyEntry.assign, except_map_eq_ok] at h
      obtain ⟨l', hl', rfl⟩ := h
      exact LazyEntry.clean_assignList items l l' (hx.resolve_left (by simp)) hl'
    | _ => simp [LazyEntry.assign] at h
  | .dict b len items =>
    cases x with
    | undefined =>
      rw [LazyEntry.assign, except_map_eq_ok] at h
      obtain ⟨d', hd', rfl⟩ := h
      exact LazyEntry.clean_assignDict items [] d' Entry.clean_nil hd'
    | dict d =>
      rw [LazyEntry.assign, except_map_eq_ok] at h
      obtain ⟨d', hd', rfl⟩ := h
      exact LazyEntry.clean_assignDict items d d' (hx.resolve_left (by simp)) hd'
    | _ => simp [LazyEntry.assign] at h

lemma LazyEntry.clean_assignList (items : List LazyEntry) (l l' : List Entry)
    (hl : Entry.CleanList l) (h : LazyEntry.assignList data items l = .ok l') :
    Entry.CleanList l' := by
  match items with
  | [] =>
    cases h
    exact hl
  | e :: items =>
    rw [LazyEntry.assignList] at h
    cases hv : e.assign data .undefined with
    | error err =>
      rw [hv] at h
      cases h
    | ok v =>
      rw [hv] at h
      have hclean := LazyEntry.clean_assign e .undefined v (Or.inl rfl) hv
      refine LazyEntry.clean_assignList items (l ++ [v]) l' ?_ h
      rw [cleanList_iff] at hl ⊢
      exact forall_mem_append.mpr ⟨hl, forall_mem_singleton.mpr hclean⟩

lemma LazyEntry.clean_assignDict (items : List (ℕ × LazyEntry)) (d d' : List (Bytes × Entry))
    (hd : (Entry.dict d).Clean) (h : LazyEntry.assignDict data items d = .ok d') :
    (Entry.dict d').Clean := by
  match items with
  | [] =>
    cases h
    exact hd
  | (name, e) :: items =>
    rw [LazyEntry.assignDict] at h
    -- the value under the name, if there is one already
    have hold : (look (LazyEntry.nameOf data (name, e)) d).getD .undefined = .undefined ∨
        ((look (LazyEntry.nameOf data (name, e)) d).getD .undefined).Clean := by
      cases hlook : look (LazyEntry.nameOf data (name, e)) d with
      | none => exact Or.inl rfl
      | some x =>
        have hmem := (look_eq_some_iff hd.1).mp hlook
        exact Or.inr (cleanDict_iff.mp hd.2 _ hmem)
    cases hv : e.assign data ((look (LazyEntry.nameOf data (name, e)) d).getD .undefined) with
    | error err =>
      rw [hv] at h
      cases h
    | ok v =>
      rw [hv] at h
      have hclean := LazyEntry.clean_assign e _ v hold hv
      exact LazyEntry.clean_assignDict items _ d' (hd.put _ hclean) h

end

lemma LazyEntry.clean_toEntry {x : Entry} (h : e.toEntry data = .ok x) : x.Clean :=
  LazyEntry.clean_assign e .undefined x (Or.inl rfl) h

end FreechCore
