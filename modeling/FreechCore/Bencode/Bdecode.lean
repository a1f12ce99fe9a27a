import FreechCore.Bencode.Encode
import FreechCore.Bencode.Syntax

/-!
The other decoder, which makes entries of its own while it reads. It takes numbers with the
functions of the C library, so that it accepts more than decimal numbers, and where a name comes
twice the last value counts. Whatever goes wrong, the result is an entry without a value.
-/

namespace FreechCore

open StdMap

/-! ### Numbers as the C library reads them -/

/-- The number at the beginning of a text, if there is one, cut to the range of 64 bits. -/
def strtoll (s : Bytes) : Option ℤ :=
  let s := (s.takeWhile (· ≠ 0)).dropWhile isSpace
  let negative := s.head? = some 45
  let digits := (if negative ∨ s.head? = some 43 then s.tail else s).takeWhile fun c => isDigit c
  let val : ℤ := Bencoded.digitsValue digits
  if digits = [] then none
  else some (if negative then max (-val) (-2 ^ 63) else min val (2 ^ 63 - 1))

def atoi (s : Bytes) : Int32 := Int32.ofInt ((strtoll s).getD 0)

/-! ### The decoder -/

/-- The text up to a token, and what comes after the token. -/
def readUntil (token : UInt8) : Bytes → Option (Bytes × Bytes)
  | [] => none
  | c :: l => if c = token then some ([], l) else (readUntil token l).map fun r => (c :: r.1, r.2)

def readString (len : ℤ) (l : Bytes) : Option (Bytes × Bytes) :=
  if l.length < len then none else some (l.take len.toNat, l.drop len.toNat)

mutual

/-- Read an entry, and what is left of the text. A name that is not a string ends a dictionary
without an error. -/
def bdecodeRecursive : (fuel depth : ℕ) → Bytes → Option (Entry × Bytes)
  | 0, _, _ => none
  | _ + 1, _, [] => none
  | fuel + 1, depth, c :: l =>
    if 100 ≤ depth then none
    else if c = 105 then
      match readUntil 101 l with
      | none => none
      | some (val, rest) => (strtoll val).map fun v => (.int v, rest)
    else if c = 108 then (bdecodeItems fuel depth l []).map fun r => (.list r.1, r.2)
    else if c = 100 then (bdecodeFields fuel depth l []).map fun r => (.dict r.1, r.2)
    else if isDigit c then
      match readUntil 58 (c :: l) with
      | none => none
      | some (lens, rest) =>
        (readString (atoi lens).toInt rest).map fun r => (.string r.1, r.2)
    else none

def bdecodeItems : (fuel depth : ℕ) → Bytes → List Entry → Option (List Entry × Bytes)
  | 0, _, _, _ => none
  | _ + 1, _, [], _ => none
  | fuel + 1, depth, c :: l, done =>
    if c = 101 then some (done, l)
    else
      match bdecodeRecursive fuel (depth + 1) (c :: l) with
      | none => none
      | some (e, rest) => bdecodeItems fuel depth rest (done ++ [e])

def bdecodeFields : (fuel depth : ℕ) → Bytes → List (Bytes × Entry) →
    Option (List (Bytes × Entry) × Bytes)
  | 0, _, _, _ => none
  | _ + 1, _, [], _ => none
  | fuel + 1, depth, c :: l, done =>
    if c = 101 then some (done, l)
    else
      match bdecodeRecursive fuel (depth + 1) (c :: l) with
      | none => none
      | some (.string key, rest) =>
        match bdecodeRecursive fuel (depth + 1) rest with
        | none => none
        | some (e, rest) => bdecodeFields fuel depth rest (put key e done)
      | some (_, rest) => some (done, rest)

end

/-- Decode a text. A step reads at least one byte, so the steps do not run out. -/
def bdecode (data : Bytes) : Entry :=
  match bdecodeRecursive (data.length + 1) 0 data with
  | some (e, _) => e
  | none => .undefined

end FreechCore
