import Mathlib.Algebra.GroupWithZero.Nat
import Mathlib.Data.List.Basic

/-!
Byte strings and the scripts that carry a transaction's texts: a script is a byte string
read as a sequence of push operations. Reading stops at the first malformed push, and an
opcode above `OP_16` makes the whole script unreadable.
-/

namespace FreechCore

abbrev Bytes := List UInt8

def ascii (s : String) : Bytes := s.toList.map fun c => UInt8.ofNat c.toNat

lemma ascii_append (s t : String) : ascii (s ++ t) = ascii s ++ ascii t := by
  rw [ascii, String.toList_append, List.map_append]
  rfl

lemma ascii_ofList (l : List Char) :
    ascii (String.ofList l) = l.map fun c => UInt8.ofNat c.toNat := by
  rw [ascii, String.toList_ofList]

/-- A string as it is read through its address: the part before the first zero byte. -/
def cStr (s : Bytes) : Bytes := s.takeWhile (· ≠ 0)

/-- A byte string as it is written into a log. -/
def logText (s : Bytes) : String := String.ofList (s.map fun c => Char.ofNat c.toNat)

abbrev CScript := Bytes

namespace CScript

def opPushData1 : ℕ := 0x4c
def opPushData2 : ℕ := 0x4d
def opPushData4 : ℕ := 0x4e
def op16 : ℕ := 0x60

def readLE : Bytes → ℕ
  | [] => 0
  | b :: l => b.toNat + 256 * readLE l

/-- Take `nSize` bytes of operand, if there are as many; what is left is counted in 32 bits. -/
def takeOperand (opcode nSize : ℕ) (pc : Bytes) : Option (ℕ × Bytes × Bytes) :=
  if pc.length % 2 ^ 32 < nSize then none else some (opcode, pc.take nSize, pc.drop nSize)

/-- Read an operand whose size stands in the next `w` bytes. -/
def takeSized (opcode w : ℕ) (pc : Bytes) : Option (ℕ × Bytes × Bytes) :=
  if pc.length < w then none else takeOperand opcode (readLE (pc.take w)) (pc.drop w)

/-- One instruction: its opcode, the bytes it pushes, and what follows it. -/
def getOp2 : Bytes → Option (ℕ × Bytes × Bytes)
  | [] => none
  | op :: pc =>
    let opcode := op.toNat
    if opcode < opPushData1 then takeOperand opcode opcode pc
    else if opcode = opPushData1 then takeSized opcode 1 pc
    else if opcode = opPushData2 then takeSized opcode 2 pc
    else if opcode = opPushData4 then takeSized opcode 4 pc
    else some (opcode, [], pc)

/-- The pushes of a script, with a bound on the number of instructions. -/
def extractPushDataUpTo : ℕ → Bytes → Option (List Bytes)
  | _, [] => some []
  | 0, _ :: _ => none
  | fuel + 1, b :: l =>
    match getOp2 (b :: l) with
    | none => none
    | some (opcode, vch, rest) =>
      if op16 < opcode then none
      else (extractPushDataUpTo fuel rest).map (vch :: ·)

/-- The pushes of a script; an instruction takes at least one byte of it. -/
def extractPushData (s : CScript) : Option (List Bytes) := extractPushDataUpTo s.length s

/-- The script is one push of fewer than 76 bytes. -/
def isSmallString : CScript → Bool
  | [] => false
  | op :: data => decide (op.toNat < opPushData1 ∧ data.length = op.toNat)

/-- The text of a small string, and the empty text for any other script. -/
def extractSmallString (s : CScript) : Bytes := if isSmallString s then s.drop 1 else []

/-- The `n`-th push of a script, and the empty text where there is none. -/
def extractPushDataString (s : CScript) (n : ℕ) : Bytes :=
  match extractPushData s with
  | some vData => (vData[n]?).getD []
  | none => []

end CScript

end FreechCore
