import Mathlib.Data.Nat.Digits.Defs
import FreechCore.Bencode.Sound

/-!
What is read out of a decoded entry depends on its tree alone, not on the text it stands in: the
bytes it was decoded from, its value, what is found under a name, and its copy.
-/

namespace FreechCore

namespace Bencoded

/-- The first digits of the length of a string, which are counted to the name before it. -/
def surplus : Bencoded → Bytes
  | string len s => len.take (len.length - numDigits s.length)
  | _ => []

/-- The bytes that the entry is taken to come from. -/
def span : Bencoded → Bytes
  | string len s => len.drop (len.length - numDigits s.length) ++ 58 :: s
  | int body => text (int body)
  | list items => text (list items)
  | dict items => text (dict items)

/-- The number in the body of an integer. -/
def bodyValue (body : Bytes) : ℤ :=
  match parseInt 101 ((if body.head? = some 45 then body.tail else body) ++ [101]) 0 with
  | .error _ => 0
  | .ok (val, _) => if body.head? = some 45 then -val else val

def find (name : Bytes) : Bencoded → Option Bencoded
  | dict items => (items.find? fun item => item.2.1 ++ item.2.2.surplus = name).map fun item => item.2.2
  | _ => none

def isDict : Bencoded → Bool
  | dict _ => true
  | _ => false

def asInt : Bencoded → Option ℤ
  | int body => some (bodyValue body)
  | _ => none

def asString : Bencoded → Option Bytes
  | string _ s => some s
  | _ => none

mutual

/-- Assign the value to an entry that may have one already. -/
def assign : Bencoded → Entry → Except TypeError Entry
  | int body, e =>
    match e with
    | .undefined | .int _ => .ok (.int (bodyValue body))
    | _ => .error .invalidEntryType
  | string _ s, e =>
    match e with
    | .undefined | .string _ => .ok (.string s)
    | _ => .error .invalidEntryType
  | list items, e =>
    match e with
    | .undefined => (assignList items []).map .list
    | .list l => (assignList items l).map .list
    | _ => .error .invalidEntryType
  | dict items, e =>
    match e with
    | .undefined => (assignDict items []).map .dict
    | .dict d => (assignDict items d).map .dict
    | _ => .error .invalidEntryType

def assignList : List Bencoded → List Entry → Except TypeError (List Entry)
  | [], l => .ok l
  | n :: items, l =>
    match assign n .undefined with
    | .error e => .error e
    | .ok v => assignList items (l ++ [v])

def assignDict : List (Bytes × Bytes × Bencoded) → List (Bytes × Entry) →
    Except TypeError (List (Bytes × Entry))
  | [], d => .ok d
  | (_, key, n) :: items, d =>
    match assign n ((StdMap.look (key ++ n.surplus) d).getD .undefined) with
    | .error e => .error e
    | .ok v => assignDict items (StdMap.put (key ++ n.surplus) v d)

end

lemma surplus_append_span (n : Bencoded) : n.surplus ++ n.span = n.text := by
  cases n with
  | string len s => simp [surplus, span, text, ← List.append_assoc]
  | _ => rfl

end Bencoded

open Bencoded

/-- The entry of a text is that of a well-formed tree. -/
def LazyEntry.IsOf (data : Bytes) (e : LazyEntry) (n : Bencoded) : Prop :=
  n.WF ∧ ∃ pos, TextAt data pos n.text ∧ e = n.locate pos

/-! ### The digits of a length -/

lemma foldl_pushDigit_lt {ds : Bytes} (hds : ∀ c ∈ ds, isDigit c = true) (val : ℕ) :
    ds.foldl pushDigit val < (val + 1) * 10 ^ ds.length := by
  induction ds generalizing val with
  | nil => simp
  | cons c ds ih =>
    have hc := isDigit_le (hds c (by simp))
    have h := ih (fun x hx => hds x (by simp [hx])) (pushDigit val c)
    have hle : pushDigit val c + 1 ≤ (val + 1) * 10 := by
      unfold pushDigit
      omega
    calc ds.foldl pushDigit (pushDigit val c)
        < (pushDigit val c + 1) * 10 ^ ds.length := h
      _ ≤ (val + 1) * 10 * 10 ^ ds.length := Nat.mul_le_mul_right _ hle
      _ = (val + 1) * 10 ^ (c :: ds).length := by rw [List.length_cons, pow_succ]; ring

variable {len data : Bytes}

lemma Bencoded.IsLength.numDigits_le {n : ℕ} (h : IsLength len n) : numDigits n ≤ len.length := by
  have hlt := foldl_pushDigit_lt h.digits 0
  have hval := h.value
  rw [digitsValue] at hval
  rw [hval, Nat.zero_add, Nat.one_mul] at hlt
  exact Nat.toDigits_length 10 n len.length (List.length_pos_of_ne_nil h.ne_nil) hlt

/-! ### The bytes of an entry -/

variable {pos D limit : ℕ} {n : Bencoded} {items : List (Bytes × Bytes × Bencoded)}

variable (pos) in
lemma mBegin_locate (hn : n.WF) : (n.locate pos).mBegin = pos + n.surplus.length := by
  cases n with
  | int body => simp [locate, LazyEntry.mBegin, surplus]
  | string len s =>
    have := hn.numDigits_le
    simp only [locate, LazyEntry.mBegin, surplus, List.length_take]
    omega
  | _ => rfl

lemma dataSection_locate (hn : n.WF) (hat : TextAt data pos n.text) :
    (n.locate pos).dataSection data = n.span := by
  have hspan : TextAt data (pos + n.surplus.length) n.span := by
    rw [← surplus_append_span] at hat
    exact hat.right
  have hslice := hspan.slice_eq
  cases n with
  | int body =>
    simp only [surplus, span, text, List.length_nil, List.length_cons, List.length_append] at hslice
    simpa [locate, LazyEntry.dataSection, span, text] using hslice
  | string len s =>
    have hbegin := mBegin_locate pos hn
    rw [locate] at hbegin ⊢
    rw [LazyEntry.dataSection, hbegin]
    rw [← hslice]
    congr 1
    simp only [surplus, span, List.length_take, List.length_append, List.length_drop,
      List.length_cons]
    omega
  | _ =>
    simpa [locate, LazyEntry.dataSection, surplus, span, text] using hslice

lemma nameOf_locate {key : Bytes} (hn : n.WF) (hat : TextAt data pos ((len ++ 58 :: key) ++ n.text)) :
    LazyEntry.nameOf data (pos + len.length + 1, n.locate (pos + len.length + 1 + key.length)) =
      key ++ n.surplus := by
  have h : TextAt data (pos + len.length + 1) (key ++ n.surplus) := by
    rw [← surplus_append_span, ← List.append_assoc] at hat
    have := hat.left
    rw [List.append_assoc, List.cons_append] at this
    exact this.right.tail
  rw [LazyEntry.nameOf, mBegin_locate _ hn, ← h.slice_eq]
  congr 1
  rw [List.length_append]
  omega

lemma intValue_locate {body : Bytes} (hat : TextAt data pos (text (.int body))) :
    (locate pos (.int body)).intValue data = bodyValue body := by
  have hbody := hat.tail
  have hfirst : data.getD (pos + 1) 0 = (body ++ [101]).headD 0 := by
    cases body with
    | _ => exact hbody.getD
  have hneg : data.getD (pos + 1) 0 = 45 ↔ body.head? = some 45 := by
    rw [hfirst]
    cases body with
    | _ => simp
  simp only [locate, LazyEntry.intValue, bodyValue, hneg]
  by_cases h : body.head? = some 45
  · obtain ⟨body, rfl⟩ : ∃ b, body = 45 :: b := by
      cases body with
      | nil => cases h
      | cons c body => exact ⟨body, by simpa using h⟩
    have hslice := (hbody.tail (t := body ++ [101])).slice_eq
    rw [List.length_append, List.length_singleton] at hslice
    simp only [h, if_true, List.tail_cons, List.length_cons]
    have hlen : pos + 1 + (body.length + 1) + 1 - (pos + 1 + 1) = body.length + 1 := by omega
    rewrite [hlen, hslice]
    rcases parseInt 101 (body ++ [101]) 0 with _ | ⟨val, digits⟩ <;> rfl
  · have hslice := hbody.slice_eq
    rw [List.length_append, List.length_singleton] at hslice
    simp only [h, if_false]
    have hlen : pos + 1 + body.length + 1 - (pos + 1) = body.length + 1 := by omega
    rewrite [hlen, hslice]
    rcases parseInt 101 (body ++ [101]) 0 with _ | ⟨val, digits⟩ <;> rfl

lemma slice_string {s : Bytes} (hat : TextAt data pos (text (.string len s))) :
    slice data (pos + len.length + 1) s.length = s := by
  exact hat.right.tail.slice_eq

/-! ### The copy -/

mutual

/-- The copy of an entry is that of its tree. -/
theorem assign_locate (n : Bencoded) (hn : n.WF) (pos : ℕ) (hat : TextAt data pos n.text)
    (e : Entry) : (n.locate pos).assign data e = n.assign e := by
  match n with
  | .int body =>
    have := intValue_locate hat
    rw [locate] at this ⊢
    cases e <;> simp only [LazyEntry.assign, assign, this]
  | .string len s =>
    rw [locate]
    cases e <;> simp only [LazyEntry.assign, assign, slice_string hat]
  | .list items =>
    have hitems := assignList_locate items hn (pos + 1) (hat.tail (t := listText items ++ [101])).left
    rw [locate, LazyEntry.assign.eq_def, assign.eq_def]
    cases e <;> simp only [hitems]
  | .dict items =>
    have hitems := assignDict_locate items hn (pos + 1) (hat.tail (t := dictText items ++ [101])).left
    rw [locate, LazyEntry.assign.eq_def, assign.eq_def]
    cases e <;> simp only [hitems]

theorem assignList_locate (items : List Bencoded) (hitems : WFList items) (pos : ℕ)
    (hat : TextAt data pos (listText items)) (l : List Entry) :
    LazyEntry.assignList data (locateList pos items) l = assignList items l := by
  match items with
  | [] => rfl
  | n :: items =>
    rw [locateList, LazyEntry.assignList, assignList,
      assign_locate n hitems.1 pos hat.left]
    cases n.assign .undefined with
    | error e => rfl
    | ok v => exact assignList_locate items hitems.2 _ hat.right _

theorem assignDict_locate (items : List (Bytes × Bytes × Bencoded)) (hitems : WFDict items)
    (pos : ℕ) (hat : TextAt data pos (dictText items)) (d : List (Bytes × Entry)) :
    LazyEntry.assignDict data (locateDict pos items) d = assignDict items d := by
  match items with
  | [] => rfl
  | (len, key, n) :: items =>
    rw [locateDict, LazyEntry.assignDict, assignDict, nameOf_locate hitems.2.1 hat.left,
      assign_locate n hitems.2.1 _ hat.left.value]
    cases n.assign ((StdMap.look (key ++ n.surplus) d).getD .undefined) with
    | error e => rfl
    | ok v => exact assignDict_locate items hitems.2.2 _ hat.afterValue _

end

/-! ### Looking into an entry -/

lemma find?_locateDict (name : Bytes) (hitems : WFDict items)
    (hat : TextAt data pos (dictText items)) :
    ((items.find? fun item => item.2.1 ++ item.2.2.surplus = name) = none ∧
      ((locateDict pos items).find? fun item => LazyEntry.nameOf data item = name) = none) ∨
    ∃ len key v p e, (items.find? fun item => item.2.1 ++ item.2.2.surplus = name) =
        some (len, key, v) ∧
      ((locateDict pos items).find? fun item => LazyEntry.nameOf data item = name) = some (p, e) ∧
      e.IsOf data v := by
  induction items generalizing pos with
  | nil => exact Or.inl ⟨rfl, rfl⟩
  | cons item items ih =>
    obtain ⟨len, key, n⟩ := item
    rw [locateDict, List.find?_cons, List.find?_cons, nameOf_locate hitems.2.1 hat.left]
    by_cases h : key ++ n.surplus = name
    · simp only [h, decide_true]
      exact Or.inr ⟨len, key, n, _, _, rfl, rfl, hitems.2.1, _, hat.left.value, rfl⟩
    · simp only [h, decide_false]
      exact ih hitems.2.2 hat.afterValue

section IsOf

variable {e : LazyEntry}

namespace LazyEntry.IsOf

section

variable (h : e.IsOf data n)

include h

lemma dataSection : e.dataSection data = n.span := by
  obtain ⟨hn, pos, hat, rfl⟩ := h
  exact dataSection_locate hn hat

lemma toEntry : e.toEntry data = n.assign .undefined := by
  obtain ⟨hn, pos, hat, rfl⟩ := h
  exact assign_locate n hn pos hat .undefined

lemma isDict : e.isDict = n.isDict := by
  obtain ⟨-, pos, -, rfl⟩ := h
  cases n <;> rfl

lemma dictFind (name : Bytes) : (n.find name = none ∧ e.dictFind data name = none) ∨
      ∃ v e', n.find name = some v ∧ e.dictFind data name = some e' ∧ e'.IsOf data v := by
  obtain ⟨hn, pos, hat, rfl⟩ := h
  cases n with
  | dict items =>
    have hitems : TextAt data (pos + 1) (dictText items) := by
      exact hat.tail.left
    rw [locate, LazyEntry.dictFind, find]
    rcases find?_locateDict name hn hitems with ⟨h1, h2⟩ | ⟨len, key, v, p, e', h1, h2, h3⟩
    · exact Or.inl ⟨by rw [h1]; rfl, by rw [h2]; rfl⟩
    · exact Or.inr ⟨v, e', by rw [h1]; rfl, by rw [h2]; rfl, h3⟩
  | _ => exact Or.inl ⟨rfl, rfl⟩

lemma dictFindString (name : String) :
    e.dictFindString data name = (n.find (ascii name)).bind asString := by
  rcases h.dictFind (ascii name) with ⟨h1, h2⟩ | ⟨v, e', h1, h2, hn, pos, hat, rfl⟩
  · simp [LazyEntry.dictFindString, h1, h2]
  · rw [LazyEntry.dictFindString, h1, h2]
    cases v with
    | string len s =>
      simp only [locate, Option.bind_some, asString, slice_string hat]
    | _ => rfl

lemma dictFindIntValue (name : String) (defaultVal : ℤ) :
    e.dictFindIntValue data name defaultVal = ((n.find (ascii name)).bind asInt).getD defaultVal := by
  rcases h.dictFind (ascii name) with ⟨h1, h2⟩ | ⟨v, e', h1, h2, hn, pos, hat, rfl⟩
  · simp [LazyEntry.dictFindIntValue, h1, h2]
  · rw [LazyEntry.dictFindIntValue, h1, h2]
    cases v with
    | int body =>
      have := intValue_locate hat
      exact this
    | _ => rfl

end

end LazyEntry.IsOf

lemma lazyBdecodeWithin_isOf (h : lazyBdecodeWithin D limit data = .ok e) :
    ∃ n : Bencoded, e.IsOf data n ∧ n.depth ≤ D ∧ n.count < limit := by
  obtain ⟨n, hn, hat, rfl, hdepth, hcount⟩ := lazyBdecodeWithin_ok h
  exact ⟨n, ⟨hn, 0, hat, rfl⟩, hdepth, hcount⟩

lemma LazyEntry.IsOf.decode_dataSection (h : e.IsOf data (.dict items))
    (hdepth : depth (.dict items) ≤ D) (hcount : count (.dict items) < limit) :
    ∃ e', lazyBdecodeWithin D limit (e.dataSection data) = .ok e' ∧
      e'.IsOf (e.dataSection data) (.dict items) := by
  have hat : TextAt (e.dataSection data) 0 (text (.dict items)) := by
    rw [h.dataSection]
    exact ⟨[], by simp [span]⟩
  exact ⟨_, lazyBdecodeWithin_text h.1 hat hdepth hcount, h.1, 0, hat, rfl⟩

/-! ### Trees within trees -/

lemma find_lt {name : Bytes} {v : Bencoded} (h : n.find name = some v) :
    v.depth < n.depth ∧ v.count < n.count := by
  cases n with
  | dict items =>
    rw [find, Option.map_eq_some_iff] at h
    obtain ⟨⟨len, key, v⟩, hfind, rfl⟩ := h
    have hmem := List.mem_of_find?_eq_some hfind
    rw [depth, count]
    clear hfind
    induction items with
    | nil => cases hmem
    | cons item items ih =>
      rw [depthDict, countDict]
      rcases List.mem_cons.mp hmem with heq | hmem
      · cases heq
        dsimp only
        omega
      · have := ih hmem
        omega
  | _ => cases h

end IsOf

end FreechCore
