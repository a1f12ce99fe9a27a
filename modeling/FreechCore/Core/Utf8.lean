import FreechCore.Core.Script

/-!
Counting the characters of a UTF-8 text. A sequence is refused when its lead byte is not
one, when a trail byte is missing or wrong, when the code point is out of range or a
surrogate, and when a shorter sequence would have done.
-/

namespace FreechCore

lemma except_bind_eq_ok {ε α β : Type} {f : α → Except ε β} {r : Except ε α} {b : β} :
    r >>= f = .ok b ↔ ∃ a, r = .ok a ∧ f a = .ok b := by
  cases r <;> simp [bind, Except.bind]

lemma except_map_eq_ok {ε α β : Type*} {f : α → β} {r : Except ε α} {b : β} :
    r.map f = .ok b ↔ ∃ a, r = .ok a ∧ f a = b := by
  cases r <;> simp [Except.map]

namespace Utf8

inductive UtfError
  | notEnoughRoom
  | invalidLead
  | incompleteSequence
  | overlongSequence
  | invalidCodePoint
  deriving DecidableEq, Repr

def codePointMax : ℕ := 0x10ffff

def isTrail (oc : UInt8) : Bool := oc.toNat / 64 = 2

def isSurrogate (cp : ℕ) : Bool := 0xd800 ≤ cp ∧ cp ≤ 0xdfff

def isCodePointValid (cp : ℕ) : Bool := cp ≤ codePointMax ∧ isSurrogate cp = false

def sequenceLength (lead : UInt8) : ℕ :=
  if lead.toNat < 0x80 then 1
  else if lead.toNat / 32 = 0x6 then 2
  else if lead.toNat / 16 = 0xe then 3
  else if lead.toNat / 8 = 0x1e then 4
  else 0

def isOverlongSequence (cp length : ℕ) : Bool :=
  if cp < 0x80 then length ≠ 1
  else if cp < 0x800 then length ≠ 2
  else if cp < 0x10000 then length ≠ 3
  else false

/-- The next byte, which must be a trail byte. -/
def increaseSafely : Bytes → Except UtfError (ℕ × Bytes)
  | [] => .error .notEnoughRoom
  | b :: l => if isTrail b then .ok (b.toNat, l) else .error .incompleteSequence

/-- The code point of a sequence of the given length, and what follows the sequence. -/
def getSequence (length lead : ℕ) (rest : Bytes) : Except UtfError (ℕ × Bytes) :=
  match length with
  | 0 => .error .invalidLead
  | 1 => .ok (lead, rest)
  | 2 => do
    let (b, rest) ← increaseSafely rest
    return (lead * 64 % 0x800 + b % 64, rest)
  | 3 => do
    let (b, rest) ← increaseSafely rest
    let (c, rest) ← increaseSafely rest
    return (lead * 4096 % 0x10000 + b * 64 % 0x1000 + c % 64, rest)
  | _ => do
    let (b, rest) ← increaseSafely rest
    let (c, rest) ← increaseSafely rest
    let (d, rest) ← increaseSafely rest
    return (lead * 262144 % 0x200000 + b * 4096 % 0x40000 + c * 64 % 0x1000 + d % 64, rest)

def validateNext : Bytes → Except UtfError Bytes
  | [] => .error .notEnoughRoom
  | b :: l =>
    let length := sequenceLength b
    match getSequence length b.toNat l with
    | .error err => .error err
    | .ok (cp, rest) =>
      if isCodePointValid cp then
        if isOverlongSequence cp length then .error .overlongSequence else .ok rest
      else .error .invalidCodePoint

/-- Count characters, each of at least one byte, on top of `count`. -/
def countCharacters : ℕ → ℤ → Bytes → ℤ
  | _, count, [] => count
  | 0, _, _ :: _ => -1
  | fuel + 1, count, b :: l =>
    match validateNext (b :: l) with
    | .error _ => -1
    | .ok rest => countCharacters fuel (count + 1) rest

/-- The number of characters of a text, and `-1` if it is not UTF-8. -/
def numCharacters (s : Bytes) : ℤ := countCharacters s.length 0 s

end Utf8

end FreechCore
