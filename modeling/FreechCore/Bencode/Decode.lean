import FreechCore.Bencode.Syntax

/-!
The decoder reads exactly the texts of well-formed trees. One direction follows the tree, from the
state in which the decoder begins it to the state in which it has put it where it belongs. The
other keeps, for every state, the trees that the open containers hold so far.
-/

namespace FreechCore

open Bencoded
open List hiding count

variable {delimiter : UInt8} {n : Bencoded} {len : Bytes} {pos limit name mBegin : ℕ}
  {stack : List OpenEntry}

/-! ### Lengths -/

lemma isDigit_le {c : UInt8} (h : isDigit c = true) : c.toNat - 48 ≤ 9 := by
  simp only [isDigit, decide_eq_true_eq] at h
  omega

lemma isDigit.ne {c d : UInt8} (h : isDigit c = true) (hd : isDigit d = false) : c ≠ d := by
  rintro rfl
  rw [h] at hd
  cases hd

lemma nine_le_int64Max : 9 ≤ int64Max := by decide

lemma parseInt_digits (hd : isDigit delimiter = false) {ds post : Bytes} {val : ℕ}
    (hds : ∀ c ∈ ds, isDigit c = true) (hle : ds.foldl pushDigit val ≤ int64Max) :
    parseInt delimiter (ds ++ delimiter :: post) val = .ok (ds.foldl pushDigit val, ds.length) := by
  induction ds generalizing val with
  | nil => simp [parseInt]
  | cons c ds ih =>
    have hc : isDigit c = true := hds c (by simp)
    have hbound := (le_foldl_pushDigit ds (pushDigit val c)).trans hle
    unfold pushDigit at hbound
    rw [cons_append, parseInt, if_neg (isDigit.ne hc hd), if_neg (by simp [hc]),
      if_neg (by omega), if_neg (by omega)]
    have := ih (fun x hx => hds x (by simp [hx])) hle
    unfold pushDigit at this
    rw [this]
    rfl

lemma parseInt_ok {l : Bytes} {val n k : ℕ} (h : parseInt delimiter l val = .ok (n, k)) :
    ∃ ds post, l = ds ++ delimiter :: post ∧
      ds.length = k ∧ (∀ c ∈ ds, isDigit c = true) ∧ ds.foldl pushDigit val = n ∧
      (val ≤ int64Max → n ≤ int64Max) := by
  induction l generalizing val n k with
  | nil => cases h
  | cons c l ih =>
    rw [parseInt] at h
    split_ifs at h with h1 h2 h3 h4
    · cases h
      exact ⟨[], l, by simp [h1], rfl, by simp, rfl, id⟩
    · have hc : isDigit c = true := by simpa using h2
      cases hp : parseInt delimiter l (val * 10 + (c.toNat - 48)) with
      | error e =>
        rw [hp] at h
        cases h
      | ok r =>
        rw [hp] at h
        cases h
        obtain ⟨ds, post, hl, hk, hds, hval, hle⟩ := ih hp
        have h9 := isDigit_le hc
        have hmax := nine_le_int64Max
        exact ⟨c :: ds, post, by rw [hl]; rfl, by simp [hk], forall_mem_cons.mpr ⟨hc, hds⟩, hval,
          fun _ => hle (by omega)⟩

lemma readLength_text {data s : Bytes} (hlen : IsLength len s.length)
    (hat : TextAt data pos (len ++ 58 :: s))
    (hend : pos + len.length + 1 + s.length < data.length) :
    readLength data (data.getD pos 0) (pos + 1) = .ok (s.length, pos + len.length + 1) := by
  obtain ⟨hne, hdig, hval, hle⟩ := hlen
  obtain ⟨t, ds, rfl⟩ := exists_cons_of_ne_nil hne
  obtain ⟨post, hpost⟩ := hat.tail
  have ht : data.getD pos 0 = t := hat.getD
  have hfold : ds.foldl pushDigit (t.toNat - 48) = s.length := by
    simpa [digitsValue, pushDigit] using hval
  have hparse : parseInt 58 (data.drop (pos + 1)) (t.toNat - 48) = .ok (s.length, ds.length) := by
    have happ : ds.append (58 :: s) ++ post = ds ++ 58 :: (s ++ post) := by simp
    rw [hpost, happ,
      parseInt_digits (by decide) (fun c hc => hdig c (by simp [hc])) (by rw [hfold]; exact hle),
      hfold]
  simp only [length_cons] at hend ⊢
  rw [readLength, ht, hparse]
  dsimp only
  rw [if_neg (by omega), if_neg (by omega)]
  congr 2
  omega

lemma readLength_ok {data : Bytes} {n start : ℕ} (hpos : pos < data.length)
    (hdig : isDigit (data.getD pos 0) = true)
    (h : readLength data (data.getD pos 0) (pos + 1) = .ok (n, start)) :
    ∃ len s, IsLength len s.length ∧ TextAt data pos (len ++ 58 :: s) ∧ s.length = n ∧
      start = pos + len.length + 1 ∧ start + n ≤ data.length := by
  rw [readLength] at h
  split at h
  · cases h
  · rename_i len digits hparse
    split_ifs at h with h1 h2
    cases h
    obtain ⟨ds, post, hl, hk, hds, hval, hle⟩ := parseInt_ok hparse
    have h9 := isDigit_le hdig
    have hmax := nine_le_int64Max
    have hdrop : data.drop pos = data.getD pos 0 :: ds ++ 58 :: post := by
      rw [drop_eq_getElem_cons hpos, hl, List.getD, List.getElem?_eq_getElem hpos]
      rfl
    have hlens := congrArg List.length hdrop
    simp only [length_drop, length_append, length_cons] at hlens
    have hlen : (post.take n).length = n := by rw [length_take]; omega
    refine ⟨data.getD pos 0 :: ds, post.take n, ⟨by simp, ?_, ?_, ?_⟩, ?_, hlen, ?_, ?_⟩
    · exact forall_mem_cons.mpr ⟨hdig, hds⟩
    · rw [hlen, ← hval, digitsValue, foldl_cons, pushDigit]
      simp
    · rw [hlen]
      exact hle (by omega)
    · exact ⟨post.drop n, by rw [hdrop]; simp⟩
    · simp only [length_cons]
      omega
    · omega

lemma findChar_text {data body : Bytes} (hat : TextAt data pos (body ++ [delimiter]))
    (hbody : delimiter ∉ body) :
    findChar data pos delimiter = pos + body.length := by
  obtain ⟨post, h⟩ := hat
  rw [findChar, h, append_assoc, takeWhile_append_of_pos]
  · simp
  · intro c hc
    simp only [ne_eq, decide_not, Bool.not_eq_true', decide_eq_false_iff_not]
    rintro rfl
    exact hbody hc

/-! ### From a tree to its entry -/

/-- The decoder comes from one round to another. -/
def Reaches (depthLimit : ℕ) (data : Bytes) : Decoder.Round → Decoder.Round → Prop :=
  Relation.ReflTransGen fun r r' => ∃ s, r = .inl s ∧ r' = lazyBdecodeStep depthLimit data s

variable {D : ℕ} {data : Bytes}

lemma Reaches.refl (r : Decoder.Round) : Reaches D data r r := Relation.ReflTransGen.refl

lemma Reaches.trans {r₁ r₂ r₃ : Decoder.Round} (h : Reaches D data r₁ r₂)
    (h' : Reaches D data r₂ r₃) : Reaches D data r₁ r₃ :=
  Relation.ReflTransGen.trans h h'

variable (D data) in
lemma reaches_step (s : Decoder) : Reaches D data (.inl s) (lazyBdecodeStep D data s) :=
  Relation.ReflTransGen.single ⟨s, rfl, rfl⟩

lemma lazyBdecodeStep_byte {s : Decoder} {c : UInt8} {t : Bytes} (hat : TextAt data s.start (c :: t))
    (hdepth : s.stack.length ≤ D) (hend : s.start + 1 < data.length ∨ c = 101) :
    lazyBdecodeStep D data s = decodeByte data (s.start + 1) s.itemLimit c s.stack := by
  have hlen := hat.length_le (by simp)
  simp only [length_cons] at hlen
  unfold lazyBdecodeStep
  rw [hat.getD, if_neg (by omega), if_neg (by omega), if_neg]
  rintro ⟨h1, h2⟩
  rcases hend with h | h
  · omega
  · exact h2 h

lemma Bencoded.text_head (hn : n.WF) : ∃ c t, n.text = c :: t ∧ c ≠ 101 := by
  cases n with
  | int body => exact ⟨105, _, rfl, by decide⟩
  | string len s =>
    obtain ⟨c, len, rfl⟩ := exists_cons_of_ne_nil hn.ne_nil
    exact ⟨c, _, rfl, isDigit.ne (hn.digits c (by simp)) (by decide)⟩
  | list items => exact ⟨108, _, rfl, by decide⟩
  | dict items => exact ⟨100, _, rfl, by decide⟩

lemma constructEntry_int {body : Bytes} (hbody : 101 ∉ body)
    (hat : TextAt data pos (text (.int body)))
    (hend : pos + (text (.int body)).length ≤ data.length) (hlimit : 1 < limit) :
    constructEntry data (pos + 1) limit (data.getD pos 0) name stack =
      closeEntry (pos + (text (.int body)).length) (limit - 1) name ((Bencoded.int body).locate pos)
        stack := by
  rw [text] at hat hend ⊢
  have hstop : findChar data (pos + 1) 101 = pos + 1 + body.length :=
    findChar_text hat.tail hbody
  simp only [length_cons, length_append, length_nil] at hend ⊢
  rw [hat.getD, constructEntry, if_neg (by omega), if_neg (by decide), if_neg (by decide),
    if_pos rfl]
  rw [hstop, if_neg (by omega), locate, Nat.add_sub_cancel_left]
  congr 1
  omega

lemma constructEntry_string {s : Bytes} (hlen : IsLength len s.length)
    (hat : TextAt data pos (text (.string len s)))
    (hend : pos + (text (.string len s)).length < data.length) (hlimit : 1 < limit) :
    constructEntry data (pos + 1) limit (data.getD pos 0) name stack =
      closeEntry (pos + (text (.string len s)).length) (limit - 1) name
        ((Bencoded.string len s).locate pos) stack := by
  rw [text] at hat hend ⊢
  simp only [length_append, length_cons] at hend ⊢
  have hread := readLength_text hlen hat (by omega)
  have hdig : isDigit (data.getD pos 0) = true := by
    obtain ⟨c, len, rfl⟩ := exists_cons_of_ne_nil hlen.ne_nil
    rw [hat.getD]
    exact hlen.digits c (by simp)
  rw [constructEntry, if_neg (by omega), if_neg (isDigit.ne hdig (by decide)),
    if_neg (isDigit.ne hdig (by decide)), if_neg (isDigit.ne hdig (by decide)),
    if_neg (by rw [hdig]; decide), hread, locate]
  dsimp only
  congr 1
  omega

lemma step_endList {items : List LazyEntry} (hat : TextAt data pos [101])
    (hdepth : stack.length < D) :
    lazyBdecodeStep D data ⟨pos, .list name mBegin items :: stack, limit⟩ =
      closeEntry (pos + 1) limit name (.list mBegin (pos + 1 - mBegin) items) stack := by
  rw [lazyBdecodeStep_byte hat (by simpa using Nat.succ_le_of_lt hdepth) (Or.inr rfl), decodeByte,
    if_pos rfl]

lemma step_endDict {items : List (ℕ × LazyEntry)} (hat : TextAt data pos [101])
    (hdepth : stack.length < D) :
    lazyBdecodeStep D data ⟨pos, .dict name mBegin items :: stack, limit⟩ =
      closeEntry (pos + 1) limit name (.dict mBegin (pos + 1 - mBegin) items) stack := by
  rw [lazyBdecodeStep_byte hat (by simpa using Nat.succ_le_of_lt hdepth) (Or.inr rfl), decodeByte,
    if_pos rfl]

lemma step_itemList (hn : n.WF) {items : List LazyEntry} (hat : TextAt data pos n.text)
    (hend : pos + n.text.length < data.length) (hdepth : stack.length < D) :
    lazyBdecodeStep D data ⟨pos, .list name mBegin items :: stack, limit⟩ =
      constructEntry data (pos + 1) limit (data.getD pos 0) 0
        (.list name mBegin items :: stack) := by
  obtain ⟨c, t, htext, hc⟩ := text_head hn
  rw [htext] at hat hend
  simp only [length_cons] at hend
  rw [lazyBdecodeStep_byte hat (by simpa using Nat.succ_le_of_lt hdepth)
    (Or.inl (by simp only; omega)), decodeByte, if_neg hc, hat.getD]

lemma step_itemDict (hn : n.WF) {key : Bytes} (hlen : IsLength len key.length)
    {items : List (ℕ × LazyEntry)} (hat : TextAt data pos ((len ++ 58 :: key) ++ n.text))
    (hend : pos + len.length + 1 + key.length + n.text.length < data.length)
    (hdepth : stack.length < D) :
    lazyBdecodeStep D data ⟨pos, .dict name mBegin items :: stack, limit⟩ =
      constructEntry data (pos + len.length + 1 + key.length + 1) limit
        (data.getD (pos + len.length + 1 + key.length) 0) (pos + len.length + 1)
        (.dict name mBegin items :: stack) := by
  obtain ⟨c, t, htext, -⟩ := text_head hn
  have hkey : TextAt data pos (len ++ 58 :: key) := hat.left
  have hread := readLength_text hlen hkey (by omega)
  obtain ⟨d, ds, rfl⟩ := exists_cons_of_ne_nil hlen.ne_nil
  have hd : isDigit d = true := hlen.digits d (by simp)
  rw [hkey.getD] at hread
  rw [lazyBdecodeStep_byte hkey (by simpa using Nat.succ_le_of_lt hdepth)
    (Or.inl (by simp only; omega)), decodeByte, if_neg (isDigit.ne hd (by decide)),
    if_neg (by rw [hd]; decide), hread]
  dsimp only
  rw [if_neg (by omega)]

mutual

/-- The decoder comes from the beginning of a tree to its end. A string cannot be the last thing
in the text. -/
theorem reaches_node (n : Bencoded) (hn : n.WF) (pos limit name : ℕ) (stack : List OpenEntry)
    (hat : TextAt data pos n.text) (hend : pos + n.text.length ≤ data.length)
    (hstr : ∀ len s, n = .string len s → pos + n.text.length < data.length)
    (hdepth : stack.length + n.depth ≤ D) (hlimit : n.count < limit) :
    Reaches D data (constructEntry data (pos + 1) limit (data.getD pos 0) name stack)
      (closeEntry (pos + n.text.length) (limit - n.count) name (n.locate pos) stack) := by
  match n with
  | .int body =>
    rw [constructEntry_int hn hat hend hlimit]
    exact Reaches.refl _
  | .string len s =>
    rw [constructEntry_string hn hat (hstr len s rfl) hlimit]
    exact Reaches.refl _
  | .list items =>
    rw [text] at hat hend ⊢
    rw [depth] at hdepth
    rw [count] at hlimit ⊢
    simp only [length_cons, length_append, length_nil] at hend ⊢
    have hopen : constructEntry data (pos + 1) limit (data.getD pos 0) name stack =
        .inl ⟨pos + 1, .list name pos [] :: stack, limit - 1⟩ := by
      rw [hat.getD, constructEntry, if_neg (by omega), if_neg (by decide), if_pos rfl,
        Nat.add_sub_cancel]
    have hitems := reaches_list items hn (pos + 1) (limit - 1) name pos [] stack hat.tail.left
      (by omega) (by omega) (by omega)
    rw [hopen]
    refine hitems.trans ?_
    have hclose := reaches_step D data ⟨pos + 1 + (listText items).length,
      .list name pos ([] ++ locateList (pos + 1) items) :: stack, limit - 1 - countList items⟩
    rw [step_endList hat.tail.right (by omega)] at hclose
    convert hclose using 2
    · omega
    · omega
    · rw [locate]
      congr 1
      omega
  | .dict items =>
    rw [text] at hat hend ⊢
    rw [depth] at hdepth
    rw [count] at hlimit ⊢
    simp only [length_cons, length_append, length_nil] at hend ⊢
    have hopen : constructEntry data (pos + 1) limit (data.getD pos 0) name stack =
        .inl ⟨pos + 1, .dict name pos [] :: stack, limit - 1⟩ := by
      rw [hat.getD, constructEntry, if_neg (by omega), if_pos rfl, Nat.add_sub_cancel]
    have hitems := reaches_dict items hn (pos + 1) (limit - 1) name pos [] stack hat.tail.left
      (by omega) (by omega) (by omega)
    rw [hopen]
    refine hitems.trans ?_
    have hclose := reaches_step D data ⟨pos + 1 + (dictText items).length,
      .dict name pos ([] ++ locateDict (pos + 1) items) :: stack, limit - 1 - countDict items⟩
    rw [step_endDict hat.tail.right (by omega)] at hclose
    convert hclose using 2
    · omega
    · omega
    · rw [locate]
      congr 1
      omega

theorem reaches_list (items : List Bencoded) (hitems : WFList items) (pos limit name mBegin : ℕ)
    (done : List LazyEntry) (stack : List OpenEntry) (hat : TextAt data pos (listText items))
    (hend : pos + (listText items).length < data.length)
    (hdepth : stack.length + 1 + depthList items ≤ D) (hlimit : countList items < limit) :
    Reaches D data (.inl ⟨pos, .list name mBegin done :: stack, limit⟩)
      (.inl ⟨pos + (listText items).length,
        .list name mBegin (done ++ locateList pos items) :: stack, limit - countList items⟩) := by
  match items with
  | [] => simpa [listText, locateList, countList] using Reaches.refl _
  | n :: items =>
    rw [listText] at hat hend ⊢
    rw [depthList] at hdepth
    rw [countList] at hlimit ⊢
    rw [length_append] at hend ⊢
    have hfirst := reaches_step D data ⟨pos, .list name mBegin done :: stack, limit⟩
    rw [step_itemList hitems.1 hat.left (by omega) (by omega)] at hfirst
    have hnode := reaches_node n hitems.1 pos limit 0 (.list name mBegin done :: stack) hat.left
      (by omega) (fun _ _ _ => by omega) (by simp only [length_cons]; omega) (by omega)
    have hrest := reaches_list items hitems.2 (pos + n.text.length) (limit - n.count) name mBegin
      (done ++ [n.locate pos]) stack hat.right (by omega) (by omega) (by omega)
    rw [closeEntry] at hnode
    refine (hfirst.trans hnode).trans ?_
    convert hrest using 3
    · omega
    · rw [locateList]
      simp
    · omega

theorem reaches_dict (items : List (Bytes × Bytes × Bencoded)) (hitems : WFDict items)
    (pos limit name mBegin : ℕ) (done : List (ℕ × LazyEntry)) (stack : List OpenEntry)
    (hat : TextAt data pos (dictText items)) (hend : pos + (dictText items).length < data.length)
    (hdepth : stack.length + 1 + depthDict items ≤ D) (hlimit : countDict items < limit) :
    Reaches D data (.inl ⟨pos, .dict name mBegin done :: stack, limit⟩)
      (.inl ⟨pos + (dictText items).length,
        .dict name mBegin (done ++ locateDict pos items) :: stack, limit - countDict items⟩) := by
  match items with
  | [] => simpa [dictText, locateDict, countDict] using Reaches.refl _
  | (len, key, n) :: items =>
    rw [dictText] at hat hend ⊢
    rw [depthDict] at hdepth
    rw [countDict] at hlimit ⊢
    have hkeyLen : (len ++ 58 :: key).length = len.length + 1 + key.length := by
      simp only [length_append, length_cons]
      omega
    rw [length_append, length_append, hkeyLen] at hend ⊢
    have hfirst := reaches_step D data ⟨pos, .dict name mBegin done :: stack, limit⟩
    rw [step_itemDict hitems.2.1 hitems.1 hat.left (by omega) (by omega)] at hfirst
    have hnode := reaches_node n hitems.2.1 _ limit (pos + len.length + 1)
      (.dict name mBegin done :: stack) hat.left.value (by omega)
      (fun _ _ _ => by omega) (by simp only [length_cons]; omega) (by omega)
    have hrest := reaches_dict items hitems.2.2 _ (limit - n.count) name mBegin
      (done ++ [(pos + len.length + 1, n.locate (pos + len.length + 1 + key.length))]) stack
      hat.afterValue (by omega) (by omega) (by omega)
    rw [closeEntry] at hnode
    refine (hfirst.trans hnode).trans ?_
    convert hrest using 3
    · omega
    · rw [locateDict]
      simp
    · omega

end

lemma doWhile_of_reaches {s : Decoder} {res : Except BdecodeError LazyEntry}
    (h : Reaches D data (.inl s) (.inr res)) :
    ∃ fuel, Loop.doWhile (lazyBdecodeStep D data) fuel s = some res := by
  generalize hr : (Sum.inl s : Decoder.Round) = r at h
  induction h using Relation.ReflTransGen.head_induction_on generalizing s with
  | refl => cases hr
  | head hstep hrest ih =>
    obtain ⟨s', hs', rfl⟩ := hstep
    obtain rfl : s = s' := Sum.inl.inj (hr.trans hs')
    cases hnext : lazyBdecodeStep D data s with
    | inl s'' =>
      obtain ⟨fuel, hfuel⟩ := ih hnext.symm
      exact ⟨fuel + 1, by rw [Loop.doWhile_inl hnext, hfuel]⟩
    | inr res' =>
      rw [hnext] at hrest
      rcases Relation.ReflTransGen.cases_head hrest with hres | ⟨r, ⟨s', hs', -⟩, -⟩
      · exact ⟨1, by rw [Loop.doWhile_inr hnext, Sum.inr.inj hres]⟩
      · cases hs'

/-- **The text of a well-formed dictionary is decoded to its entry**, whatever follows it. -/
theorem lazyBdecodeWithin_text {items : List (Bytes × Bytes × Bencoded)}
    (hn : (Bencoded.dict items).WF) (hat : TextAt data 0 (text (.dict items)))
    (hdepth : depth (.dict items) ≤ D) (hlimit : count (.dict items) < limit) :
    lazyBdecodeWithin D limit data = .ok (locate 0 (.dict items)) := by
  have hend := hat.length_le (by rw [text]; simp)
  have hnode := reaches_node (D := D) (.dict items) hn 0 limit 0 [] hat hend
    (fun _ _ h => by cases h) (by simpa using hdepth) hlimit
  have hfirst : lazyBdecodeStep D data ⟨0, [], limit⟩ =
      constructEntry data 1 limit (data.getD 0 0) 0 [] := by
    have hhead : TextAt data 0 (100 :: (dictText items ++ [101])) := by rwa [text] at hat
    rw [text] at hend
    simp only [length_cons, length_append] at hend
    rw [lazyBdecodeStep_byte hhead (by simp) (Or.inl (by simp only; omega)), hhead.getD, decodeByte]
  have hreach := reaches_step D data ⟨0, [], limit⟩
  rw [hfirst] at hreach
  obtain ⟨fuel, hfuel⟩ := doWhile_of_reaches (hreach.trans hnode)
  have hret := lazyBdecodeWithin_returns D limit data
  exact Loop.doWhile_unique hret hfuel

end FreechCore
