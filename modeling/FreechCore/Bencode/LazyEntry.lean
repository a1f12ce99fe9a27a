import FreechCore.Lib.Loop
import FreechCore.Core.Validation

/-!
Decoding a bencoded text without copying it: the entries refer to the text by position. The
decoder keeps a stack of the containers it has not yet seen the end of, and stops as soon as
the outermost entry is complete, whatever follows it.

The length of a name in a dictionary is not kept. It is taken to reach up to the beginning of
the value, and the beginning of a string is worked out from its length, so that leading
zeros of a length count as part of the name before it.
-/

namespace FreechCore

def slice (data : Bytes) (pos len : ℕ) : Bytes := (data.drop pos).take len

inductive BdecodeError
  | unexpectedEof
  | expectedString
  | expectedColon
  | expectedValue
  | depthExceeded
  | limitExceeded
  | overflow
  deriving DecidableEq, Repr

/-- A decoded entry. A value in a dictionary comes with the position of its name. -/
inductive LazyEntry
  | int (start size : ℕ)
  | string (start size : ℕ)
  | list (mBegin mLen : ℕ) (items : List LazyEntry)
  | dict (mBegin mLen : ℕ) (items : List (ℕ × LazyEntry))

/-! ### Numbers -/

def int64Max : ℕ := 2 ^ 63 - 1

def numDigits (val : ℕ) : ℕ := (Nat.toDigits 10 val).length

/-- Read digits up to a delimiter, going on from `val`: the number, and how many there were.
At the end of the text the byte behind it is looked at in vain: the length read is refused
whatever stands there. -/
def parseInt (delimiter : UInt8) : Bytes → ℕ → Except BdecodeError (ℕ × ℕ)
  | [], _ => .error .expectedColon
  | c :: l, val =>
    if c = delimiter then .ok (val, 0)
    else if isDigit c = false then .error .expectedString
    else if int64Max / 10 < val then .error .overflow
    else if int64Max - (c.toNat - 48) < val * 10 then .error .overflow
    else (parseInt delimiter l (val * 10 + (c.toNat - 48))).map fun r => (r.1, r.2 + 1)

def findChar (data : Bytes) (start : ℕ) (delimiter : UInt8) : ℕ :=
  start + ((data.drop start).takeWhile (· ≠ delimiter)).length

/-- The length of a string whose first digit is `t`, and the position of the string. -/
def readLength (data : Bytes) (t : UInt8) (start : ℕ) : Except BdecodeError (ℕ × ℕ) :=
  match parseInt 58 (data.drop start) (t.toNat - 48) with
  | .error e => .error e
  | .ok (len, digits) =>
    if data.length - (start + digits) - 1 < len then .error .unexpectedEof
    else if start + digits + 1 = data.length then .error .unexpectedEof
    else .ok (len, start + digits + 1)

/-! ### The decoder -/

/-- A container whose end has not been seen yet, with the position of its own name. -/
inductive OpenEntry
  | list (name mBegin : ℕ) (items : List LazyEntry)
  | dict (name mBegin : ℕ) (items : List (ℕ × LazyEntry))

/-- The decoder between two entries. Nothing is open before the outermost entry. -/
structure Decoder where
  start : ℕ
  stack : List OpenEntry
  itemLimit : ℕ

/-- How a round ends: the decoder goes on, or the decoding is over. -/
abbrev Decoder.Round := Decoder ⊕ Except BdecodeError LazyEntry

def Decoder.fail (e : BdecodeError) : Decoder.Round := .inr (.error e)

/-- A complete entry goes into the container it belongs to. -/
def closeEntry (start itemLimit name : ℕ) (v : LazyEntry) : List OpenEntry → Decoder.Round
  | [] => .inr (.ok v)
  | .list n mBegin items :: stack =>
    .inl ⟨start, .list n mBegin (items ++ [v]) :: stack, itemLimit⟩
  | .dict n mBegin items :: stack =>
    .inl ⟨start, .dict n mBegin (items ++ [(name, v)]) :: stack, itemLimit⟩

/-- Begin an entry whose first byte is `t`, which is before the position `start`. -/
def constructEntry (data : Bytes) (start itemLimit : ℕ) (t : UInt8) (name : ℕ)
    (stack : List OpenEntry) : Decoder.Round :=
  if itemLimit ≤ 1 then Decoder.fail .limitExceeded
  else if t = 100 then .inl ⟨start, .dict name (start - 1) [] :: stack, itemLimit - 1⟩
  else if t = 108 then .inl ⟨start, .list name (start - 1) [] :: stack, itemLimit - 1⟩
  else if t = 105 then
    let stop := findChar data start 101
    if stop = data.length then Decoder.fail .unexpectedEof
    else closeEntry (stop + 1) (itemLimit - 1) name (.int start (stop - start)) stack
  else if isDigit t = false then Decoder.fail .expectedValue
  else
    match readLength data t start with
    | .error e => Decoder.fail e
    | .ok (len, start) => closeEntry (start + len) (itemLimit - 1) name (.string start len) stack

/-- Go on with the byte `t`, which is before the position `start`: the end of the innermost
container, or one more entry. -/
def decodeByte (data : Bytes) (start itemLimit : ℕ) (t : UInt8) :
    List OpenEntry → Decoder.Round
  | [] => constructEntry data start itemLimit t 0 []
  | .list name mBegin items :: stack =>
    if t = 101 then closeEntry start itemLimit name (.list mBegin (start - mBegin) items) stack
    else constructEntry data start itemLimit t 0 (.list name mBegin items :: stack)
  | .dict name mBegin items :: stack =>
    if t = 101 then closeEntry start itemLimit name (.dict mBegin (start - mBegin) items) stack
    else if isDigit t = false then Decoder.fail .expectedString
    else
      match readLength data t start with
      | .error e => Decoder.fail e
      | .ok (len, key) =>
        if data.length ≤ key + len then Decoder.fail .unexpectedEof
        else
          constructEntry data (key + len + 1) itemLimit (data.getD (key + len) 0) key
            (.dict name mBegin items :: stack)

def lazyBdecodeStep (depthLimit : ℕ) (data : Bytes) (s : Decoder) : Decoder.Round :=
  let t := data.getD s.start 0
  if depthLimit < s.stack.length then Decoder.fail .depthExceeded
  else if data.length ≤ s.start then Decoder.fail .unexpectedEof
  else if data.length ≤ s.start + 1 ∧ t ≠ 101 then Decoder.fail .unexpectedEof
  else decodeByte data (s.start + 1) s.itemLimit t s.stack

/-- Decode the entry at the beginning of a text, within the given limits. A round reads at
least one byte, so the rounds do not run out. -/
def lazyBdecodeWithin (depthLimit itemLimit : ℕ) (data : Bytes) : Except BdecodeError LazyEntry :=
  (Loop.doWhile (lazyBdecodeStep depthLimit data) (data.length + 1) ⟨0, [], itemLimit⟩).getD
    (.error .unexpectedEof)

def lazyBdecode (data : Bytes) : Except BdecodeError LazyEntry :=
  lazyBdecodeWithin 1000 1000000 data

/-! ### The decoder returns -/

variable {start itemLimit : ℕ} {stack : List OpenEntry} {s : Decoder} {data : Bytes} {t : UInt8}

lemma closeEntry_start {name : ℕ} {v : LazyEntry}
    (h : closeEntry start itemLimit name v stack = .inl s) : s.start = start := by
  cases stack with
  | nil => cases h
  | cons e stack => cases e <;> (cases h; rfl)

lemma readLength_start {len pos : ℕ} (h : readLength data t start = .ok (len, pos)) :
    start < pos := by
  unfold readLength at h
  split at h
  · cases h
  · split_ifs at h
    cases h
    omega

lemma constructEntry_start {name : ℕ}
    (h : constructEntry data start itemLimit t name stack = .inl s) : start ≤ s.start := by
  unfold constructEntry Decoder.fail at h
  dsimp only at h
  split_ifs at h
  · cases h
    exact le_rfl
  · cases h
    exact le_rfl
  · rw [closeEntry_start h]
    unfold findChar
    omega
  · split at h
    · cases h
    · rename_i hlen
      have := readLength_start hlen
      rw [closeEntry_start h]
      omega

lemma decodeByte_start (h : decodeByte data start itemLimit t stack = .inl s) :
    start ≤ s.start := by
  match stack with
  | [] =>
    exact constructEntry_start h
  | .list name mBegin items :: stack =>
    rw [decodeByte] at h
    split_ifs at h
    · rw [closeEntry_start h]
    · exact constructEntry_start h
  | .dict name mBegin items :: stack =>
    simp only [decodeByte, Decoder.fail] at h
    split_ifs at h
    · rw [closeEntry_start h]
    · split at h
      · cases h
      · rename_i hlen
        split_ifs at h
        have h1 := readLength_start hlen
        have h2 := constructEntry_start h
        omega

lemma lazyBdecodeStep_start {depthLimit : ℕ} {s' : Decoder}
    (h : lazyBdecodeStep depthLimit data s = .inl s') :
    s.start < data.length ∧ s.start < s'.start := by
  unfold lazyBdecodeStep Decoder.fail at h
  dsimp only at h
  split_ifs at h
  exact ⟨by omega, decodeByte_start h⟩

lemma lazyBdecodeWithin_returns (depthLimit itemLimit : ℕ) (data : Bytes) :
    Loop.doWhile (lazyBdecodeStep depthLimit data) (data.length + 1) ⟨0, [], itemLimit⟩ =
      some (lazyBdecodeWithin depthLimit itemLimit data) := by
  obtain ⟨r, hr⟩ : ∃ r, Loop.doWhile (lazyBdecodeStep depthLimit data) (data.length + 1)
      ⟨0, [], itemLimit⟩ = some r := by
    refine Loop.doWhile_returns (μ := fun s => data.length - s.start) (fun s s' h => ?_) (by simp)
    have := lazyBdecodeStep_start h
    omega
  rw [lazyBdecodeWithin, hr, Option.getD_some]

/-! ### Looking into an entry -/

namespace LazyEntry

def isDict : LazyEntry → Bool
  | dict _ _ _ => true
  | _ => false

/-- Where an entry begins. For a string this is worked out from its length. -/
def mBegin : LazyEntry → ℕ
  | int start _ => start - 1
  | string start size => start - 1 - numDigits size
  | list mBegin _ _ => mBegin
  | dict mBegin _ _ => mBegin

def dataSection (data : Bytes) (e : LazyEntry) : Bytes :=
  match e with
  | int start size => slice data (start - 1) (size + 2)
  | string start size => slice data e.mBegin (start - e.mBegin + size)
  | list mBegin mLen _ => slice data mBegin mLen
  | dict mBegin mLen _ => slice data mBegin mLen

def nameOf (data : Bytes) (item : ℕ × LazyEntry) : Bytes :=
  slice data item.1 (item.2.mBegin - item.1)

def stringValue (data : Bytes) : LazyEntry → Bytes
  | string start size => slice data start size
  | _ => []

/-- A number that is not one, or too large, counts as zero. -/
def intValue (data : Bytes) : LazyEntry → ℤ
  | int start size =>
    let negative := data.getD start 0 = 45
    let first := if negative then start + 1 else start
    match parseInt 101 (slice data first (start + size + 1 - first)) 0 with
    | .error _ => 0
    | .ok (val, _) => if negative then -val else val
  | _ => 0

/-- The first value under a name. -/
def dictFind (data : Bytes) (name : Bytes) : LazyEntry → Option LazyEntry
  | dict _ _ items => (items.find? fun item => nameOf data item = name).map Prod.snd
  | _ => none

def dictFindDict (data : Bytes) (e : LazyEntry) (name : String) : Option LazyEntry :=
  match e.dictFind data (ascii name) with
  | some (dict b l items) => some (dict b l items)
  | _ => none

def dictFindList (data : Bytes) (e : LazyEntry) (name : String) : Option (List LazyEntry) :=
  match e.dictFind data (ascii name) with
  | some (list _ _ items) => some items
  | _ => none

def dictFindString (data : Bytes) (e : LazyEntry) (name : String) : Option Bytes :=
  match e.dictFind data (ascii name) with
  | some (string start size) => some (slice data start size)
  | _ => none

def dictFindStringValue (data : Bytes) (e : LazyEntry) (name : String) : Bytes :=
  (e.dictFindString data name).getD []

def dictFindIntValue (data : Bytes) (e : LazyEntry) (name : String) (defaultVal : ℤ) : ℤ :=
  match e.dictFind data (ascii name) with
  | some (int start size) => (int start size).intValue data
  | _ => defaultVal

end LazyEntry

/-- The entry a text decodes to, if it is a dictionary. -/
def bdecodeDict (data : Bytes) : Option LazyEntry :=
  match lazyBdecode data with
  | .ok v => if v.isDict then some v else none
  | .error _ => none

end FreechCore
