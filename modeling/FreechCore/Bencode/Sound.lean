import Mathlib.Data.List.TakeWhile
import FreechCore.Bencode.Decode

/-!
Whatever the decoder accepts is the text of a well-formed tree. The open containers of a state are
frames, each with the trees it holds so far and the name it will be kept under, and the frames
account for every byte read.
-/

namespace FreechCore

open Bencoded
open List hiding count

/-! ### Open containers -/

/-- An open container: the name it is kept under in the dictionary around it, and its items. -/
inductive Frame
  | list (key : Option (Bytes × Bytes)) (items : List Bencoded)
  | dict (key : Option (Bytes × Bytes)) (items : List (Bytes × Bytes × Bencoded))

def keyText : Option (Bytes × Bytes) → Bytes
  | none => []
  | some (len, key) => len ++ 58 :: key

@[simp] lemma keyText_none : keyText none = [] := rfl

/-- Where the name begins, if it stands at a position. -/
def keyName (pos : ℕ) : Option (Bytes × Bytes) → ℕ
  | none => 0
  | some (len, _) => pos + len.length + 1

@[simp] lemma keyName_none (pos : ℕ) : keyName pos none = 0 := rfl

def framesText : List Frame → Bytes
  | [] => []
  | .list key items :: fs => framesText fs ++ keyText key ++ 108 :: listText items
  | .dict key items :: fs => framesText fs ++ keyText key ++ 100 :: dictText items

def framesOpen : List Frame → List OpenEntry
  | [] => []
  | .list key items :: fs =>
    let pos := (framesText fs ++ keyText key).length
    .list (keyName (framesText fs).length key) pos (locateList (pos + 1) items) :: framesOpen fs
  | .dict key items :: fs =>
    let pos := (framesText fs ++ keyText key).length
    .dict (keyName (framesText fs).length key) pos (locateDict (pos + 1) items) :: framesOpen fs

@[simp] lemma length_framesOpen (fs : List Frame) : (framesOpen fs).length = fs.length := by
  induction fs with
  | nil => rfl
  | cons f fs ih => cases f <;> simp [framesOpen, ih]

/-- A name is there exactly if the container around is a dictionary. -/
def KeyFits (key : Option (Bytes × Bytes)) : List Frame → Prop
  | .dict _ _ :: _ => ∃ len k, key = some (len, k) ∧ IsLength len k.length
  | _ => key = none

/-- How deep items may be in a container with `k` containers around it. -/
def DepthFits (D k d : ℕ) : Prop := d = 0 ∨ k + 1 + d ≤ D

def FramesWF (D : ℕ) : List Frame → Prop
  | [] => True
  | .list key items :: fs =>
    KeyFits key fs ∧ WFList items ∧ DepthFits D fs.length (depthList items) ∧ FramesWF D fs
  | .dict key items :: fs =>
    KeyFits key fs ∧ WFDict items ∧ DepthFits D fs.length (depthDict items) ∧ FramesWF D fs

def framesCount : List Frame → ℕ
  | [] => 0
  | .list _ items :: fs => countList items + 1 + framesCount fs
  | .dict _ items :: fs => countDict items + 1 + framesCount fs

/-! ### What a round keeps -/

variable {D limit : ℕ} {data : Bytes}

/-- The state of the decoder is that of some frames. -/
structure Decoder.Accounts (D limit : ℕ) (data : Bytes) (s : Decoder) (fs : List Frame) : Prop where
  wf : FramesWF D fs
  read : TextAt data 0 (framesText fs)
  start : s.start = (framesText fs).length
  stack : s.stack = framesOpen fs
  count : s.itemLimit + framesCount fs = limit
  pos : fs = [] ∨ 0 < s.itemLimit

/-- The entry is that of a tree at the beginning of the text. -/
def DecodedFrom (D limit : ℕ) (data : Bytes) (v : LazyEntry) : Prop :=
  ∃ n : Bencoded, n.WF ∧ TextAt data 0 n.text ∧ v = n.locate 0 ∧ n.depth ≤ D ∧ n.count < limit

/-- A round that is not an error leaves a state of some frames, or the entry of a tree. -/
def Decoder.Round.Sound (D limit : ℕ) (data : Bytes) : Decoder.Round → Prop
  | .inl s => ∃ fs, s.Accounts D limit data fs
  | .inr (.ok v) => DecodedFrom D limit data v
  | .inr (.error _) => True

variable {fs : List Frame} {pos : ℕ}

lemma closeEntry_sound {key : Option (Bytes × Bytes)} (n : Bencoded) (itemLimit : ℕ)
    (hfs : FramesWF D fs) (hkey : KeyFits key fs) (hn : n.WF)
    (hread : TextAt data 0 (framesText fs ++ keyText key ++ n.text))
    (hcount : itemLimit + n.count + framesCount fs = limit) (hpos : 0 < itemLimit)
    (hdepth : fs.length + n.depth ≤ D) :
    (closeEntry (framesText fs ++ keyText key ++ n.text).length itemLimit
      (keyName (framesText fs).length key) (n.locate (framesText fs ++ keyText key).length)
      (framesOpen fs)).Sound D limit data := by
  match fs with
  | [] =>
    obtain rfl : key = none := hkey
    exact ⟨n, hn, hread, rfl, by omega, by omega⟩
  | .list key' items :: fs =>
    obtain rfl : key = none := hkey
    obtain ⟨hkey', hitems, hd, hfs⟩ := hfs
    simp only [framesCount, length_cons] at hcount hdepth
    have htext : framesText (.list key' (items ++ [n]) :: fs) =
        framesText (.list key' items :: fs) ++ keyText none ++ n.text := by
      simp [framesText, keyText, listText_append, listText]
    rw [← htext] at hread ⊢
    refine ⟨.list key' (items ++ [n]) :: fs, ⟨?_, ?_, ?_, ?_⟩, hread, rfl, ?_, ?_, Or.inr hpos⟩
    · exact hkey'
    · exact (WFList_append _ _).mpr ⟨hitems, hn, trivial⟩
    · simp only [DepthFits, depthList_append, depthList] at hd ⊢
      omega
    · exact hfs
    · rw [framesOpen, locateList_append]
      simp only [locateList, framesText, keyText, length_append, length_cons,
        append_nil]
      congr 5
      omega
    · simp only [framesCount, countList_append, countList]
      omega
  | .dict key' items :: fs =>
    obtain ⟨len, k, rfl, hlen⟩ := hkey
    obtain ⟨hkey', hitems, hd, hfs⟩ := hfs
    simp only [framesCount, length_cons] at hcount hdepth
    have htext : framesText (.dict key' (items ++ [(len, k, n)]) :: fs) =
        framesText (.dict key' items :: fs) ++ keyText (some (len, k)) ++ n.text := by
      simp [framesText, keyText, dictText_append, dictText]
    rw [← htext] at hread ⊢
    refine ⟨.dict key' (items ++ [(len, k, n)]) :: fs, ⟨?_, ?_, ?_, ?_⟩, hread, rfl, ?_, ?_,
      Or.inr hpos⟩
    · exact hkey'
    · exact (WFDict_append _ _).mpr ⟨hitems, hlen, hn, trivial⟩
    · simp only [DepthFits, depthDict_append, depthDict] at hd ⊢
      omega
    · exact hfs
    · rw [framesOpen, locateDict_append]
      simp only [locateDict, framesText, keyText, keyName, length_append, length_cons]
      congr 5
      · omega
      · congr 1
        omega
    · simp only [framesCount, countDict_append, countDict]
      omega

lemma findChar_ok {delimiter : UInt8} (hpos : pos ≤ data.length)
    (h : findChar data pos delimiter ≠ data.length) : ∃ body, delimiter ∉ body ∧
      TextAt data pos (body ++ [delimiter]) ∧ findChar data pos delimiter = pos + body.length := by
  have hsplit := takeWhile_append_dropWhile (p := (· ≠ delimiter)) (l := data.drop pos)
  unfold findChar at h ⊢
  generalize hb : (data.drop pos).takeWhile (· ≠ delimiter) = body at h hsplit ⊢
  have hbody : delimiter ∉ body := by
    intro hmem
    rw [← hb] at hmem
    simpa using mem_takeWhile_imp hmem
  cases hd : (data.drop pos).dropWhile (· ≠ delimiter) with
  | nil =>
    rw [hd, append_nil] at hsplit
    have := congrArg List.length hsplit
    rw [length_drop] at this
    omega
  | cons c post =>
    have hc : c = delimiter := by
      have := List.head?_dropWhile_not (p := (· ≠ delimiter)) (data.drop pos)
      rw [hd] at this
      simpa using this
    rw [hd, hc] at hsplit
    exact ⟨body, hbody, ⟨post, by rw [← hsplit]; simp⟩, rfl⟩

lemma textAt_getD (hpos : pos < data.length) : TextAt data pos [data.getD pos 0] := by
  refine ⟨data.drop (pos + 1), ?_⟩
  rw [drop_eq_getElem_cons hpos, List.getD, List.getElem?_eq_getElem hpos]
  rfl

lemma constructEntry_sound (key : Option (Bytes × Bytes)) {itemLimit : ℕ} (hfs : FramesWF D fs)
    (hkey : KeyFits key fs) (hread : TextAt data 0 (framesText fs ++ keyText key))
    (hp : pos = (framesText fs ++ keyText key).length) (hpos : pos < data.length)
    (hcount : itemLimit + framesCount fs = limit) (hdepth : fs.length ≤ D) :
    (constructEntry data (pos + 1) itemLimit (data.getD pos 0) (keyName (framesText fs).length key)
      (framesOpen fs)).Sound D limit data := by
  have hfirst := textAt_getD hpos
  have hjoin : ∀ t, TextAt data pos t → TextAt data 0 (framesText fs ++ keyText key ++ t) := by
    intro t ht
    rw [TextAt.append_iff, Nat.zero_add, ← hp]
    exact ⟨hread, ht⟩
  unfold constructEntry
  by_cases hlim : itemLimit ≤ 1
  · rw [if_pos hlim]
    trivial
  rw [if_neg hlim]
  by_cases h100 : data.getD pos 0 = 100
  · rw [if_pos h100]
    rw [h100] at hfirst
    refine ⟨.dict key [] :: fs, ⟨hkey, trivial, Or.inl rfl, hfs⟩, ?_, ?_, ?_, ?_, Or.inr ?_⟩
    · exact hjoin _ hfirst
    · simp only [framesText, dictText, length_append, length_cons, length_nil] at hp ⊢
      omega
    · simp [framesOpen, locateDict, hp]
    · simp only [framesCount, countDict]
      omega
    · simp only
      omega
  rw [if_neg h100]
  by_cases h108 : data.getD pos 0 = 108
  · rw [if_pos h108]
    rw [h108] at hfirst
    refine ⟨.list key [] :: fs, ⟨hkey, trivial, Or.inl rfl, hfs⟩, ?_, ?_, ?_, ?_, Or.inr ?_⟩
    · exact hjoin _ hfirst
    · simp only [framesText, listText, length_append, length_cons, length_nil] at hp ⊢
      omega
    · simp [framesOpen, locateList, hp]
    · simp only [framesCount, countList]
      omega
    · simp only
      omega
  rw [if_neg h108]
  by_cases h105 : data.getD pos 0 = 105
  · rw [if_pos h105]
    by_cases hstop : findChar data (pos + 1) 101 = data.length
    · rw [if_pos hstop]
      trivial
    rw [if_neg hstop]
    obtain ⟨body, hbody, hat, hfound⟩ := findChar_ok (by omega) hstop
    have hnode : TextAt data pos (text (.int body)) := by
      rw [h105] at hfirst
      exact (TextAt.append_iff (t := [105])).mpr ⟨hfirst, hat⟩
    have hleft : itemLimit - 1 + count (.int body) + framesCount fs = limit := by
      simp only [count]
      omega
    have := closeEntry_sound (.int body) (itemLimit - 1) hfs hkey hbody (hjoin _ hnode) hleft
      (by omega) (by simp only [depth]; omega)
    rw [hfound, Nat.add_sub_cancel_left]
    convert this using 2
    · simp only [text, length_append, length_cons, length_nil] at hp ⊢
      omega
    · rw [locate, ← hp]
  rw [if_neg h105]
  by_cases hdig : isDigit (data.getD pos 0) = false
  · rw [if_pos hdig]
    trivial
  rw [if_neg hdig]
  split
  · trivial
  · rename_i len start hlen
    obtain ⟨lens, s, hlength, hat, rfl, rfl, -⟩ := readLength_ok hpos (by simpa using hdig) hlen
    have hleft : itemLimit - 1 + count (.string lens s) + framesCount fs = limit := by
      simp only [count]
      omega
    have := closeEntry_sound (.string lens s) (itemLimit - 1) hfs hkey hlength (hjoin _ hat) hleft
      (by omega) (by simp only [depth]; omega)
    convert this using 2
    · simp only [text, length_append, length_cons] at hp ⊢
      omega
    · rw [locate, ← hp]

lemma lazyBdecodeStep_sound {s : Decoder} (h : s.Accounts D limit data fs) :
    (lazyBdecodeStep D data s).Sound D limit data := by
  obtain ⟨start, stack, itemLimit⟩ := s
  obtain ⟨hwf, hread, hstart, hstack, hcount, hlim⟩ := h
  dsimp only at hstart hstack hcount hlim
  subst hstack
  unfold lazyBdecodeStep
  by_cases h1 : D < (framesOpen fs).length
  · rw [if_pos h1]
    trivial
  rw [if_neg h1]
  by_cases h2 : data.length ≤ start
  · rw [if_pos h2]
    trivial
  rw [if_neg h2]
  by_cases h3 : data.length ≤ start + 1 ∧ data.getD start 0 ≠ 101
  · rw [if_pos h3]
    trivial
  rw [if_neg h3]
  rw [length_framesOpen, not_lt] at h1
  have hfirst := textAt_getD (not_le.mp h2)
  match fs with
  | [] =>
    have := constructEntry_sound none hwf rfl (by simpa using hread) (by simpa using hstart)
      (not_le.mp h2) hcount h1
    exact this
  | .list key items :: fs =>
    by_cases h101 : data.getD start 0 = 101
    · obtain ⟨hkey, hitems, hdepth, hfs⟩ := hwf
      simp only [framesCount, length_cons, reduceCtorEq, false_or, DepthFits]
        at hcount h1 hlim hdepth
      have htext : framesText fs ++ keyText key ++ text (.list items) =
          framesText (.list key items :: fs) ++ [101] := by
        simp [framesText, text]
      have hleft : itemLimit + count (.list items) + framesCount fs = limit := by
        simp only [count]
        omega
      have hclose := closeEntry_sound (.list items) itemLimit hfs hkey hitems
        (by rw [htext, TextAt.append_iff, Nat.zero_add, ← hstart, ← h101]; exact ⟨hread, hfirst⟩)
        hleft hlim (by simp only [depth]; omega)
      rw [framesOpen, decodeByte, if_pos h101]
      rw [htext] at hclose
      simp only [framesText, length_append, length_cons, length_nil] at hstart hclose ⊢
      convert hclose using 2
      · omega
      · congr 1
        omega
    · have hnext := constructEntry_sound none hwf rfl (by simpa using hread) (by simpa using hstart)
        (not_le.mp h2) hcount h1
      rw [framesOpen] at hnext ⊢
      rw [decodeByte, if_neg h101]
      exact hnext
  | .dict key items :: fs =>
    by_cases h101 : data.getD start 0 = 101
    · obtain ⟨hkey, hitems, hdepth, hfs⟩ := hwf
      simp only [framesCount, length_cons, reduceCtorEq, false_or, DepthFits]
        at hcount h1 hlim hdepth
      have htext : framesText fs ++ keyText key ++ text (.dict items) =
          framesText (.dict key items :: fs) ++ [101] := by
        simp [framesText, text]
      have hleft : itemLimit + count (.dict items) + framesCount fs = limit := by
        simp only [count]
        omega
      have hclose := closeEntry_sound (.dict items) itemLimit hfs hkey hitems
        (by rw [htext, TextAt.append_iff, Nat.zero_add, ← hstart, ← h101]; exact ⟨hread, hfirst⟩)
        hleft hlim (by simp only [depth]; omega)
      rw [framesOpen, decodeByte, if_pos h101]
      rw [htext] at hclose
      simp only [framesText, length_append, length_cons, length_nil] at hstart hclose ⊢
      convert hclose using 2
      · omega
      · congr 1
        omega
    · rw [framesOpen, decodeByte, if_neg h101, ← framesOpen]
      by_cases hdig : isDigit (data.getD start 0) = false
      · rw [if_pos hdig]
        trivial
      rw [if_neg hdig]
      split
      · trivial
      · rename_i n pos hlen
        by_cases hlast : data.length ≤ pos + n
        · rw [if_pos hlast]
          trivial
        rw [if_neg hlast]
        obtain ⟨len, k, hlength, hat, rfl, rfl, -⟩ :=
          readLength_ok (not_le.mp h2) (by simpa using hdig) hlen
        have hp : start + len.length + 1 + k.length =
            (framesText (.dict key items :: fs) ++ keyText (some (len, k))).length := by
          simp only [keyText, length_append, length_cons]
          omega
        have hnext := constructEntry_sound (some (len, k)) hwf ⟨len, k, rfl, hlength⟩
          (by rw [TextAt.append_iff, Nat.zero_add, ← hstart]; exact ⟨hread, hat⟩) hp
          (not_le.mp hlast) hcount h1
        rw [keyName, ← hstart] at hnext
        exact hnext

/-- **Whatever the decoder accepts is the text of a tree**, and the entry is that of the tree. -/
theorem lazyBdecodeWithin_ok {v : LazyEntry} (h : lazyBdecodeWithin D limit data = .ok v) :
    DecodedFrom D limit data v := by
  have hret := lazyBdecodeWithin_returns D limit data
  rw [h] at hret
  have hinit : Decoder.Accounts D limit data ⟨0, [], limit⟩ [] :=
    ⟨trivial, ⟨data, rfl⟩, rfl, rfl, rfl, Or.inl rfl⟩
  refine Loop.doWhile_spec (I := fun s : Decoder => ∃ fs, s.Accounts D limit data fs)
    (Q := fun r : Except BdecodeError LazyEntry => ∀ v, r = .ok v → DecodedFrom D limit data v)
    ?_ ?_ ⟨[], hinit⟩ hret v rfl
  · rintro s s' ⟨fs, hs⟩ hstep
    have := lazyBdecodeStep_sound hs
    rw [hstep] at this
    exact this
  · rintro s r ⟨fs, hs⟩ hstep v rfl
    have := lazyBdecodeStep_sound hs
    rw [hstep] at this
    exact this

end FreechCore
