import FreechCore.Bencode.Entry

/-!
Writing an entry as a bencoded text, and reading the parts of an entry by name. A dictionary is
written in the order it is kept in, the order of the names.
-/

namespace FreechCore

open StdMap

/-! ### Writing -/

def decDigits (n : ℕ) : Bytes := (Nat.toDigits 10 n).map fun c => UInt8.ofNat c.toNat

/-- The smallest number cannot be negated: it stays negative, and its digits are taken away from
the character of zero instead of added to it. -/
def integerToStr (val : ℤ) : Bytes :=
  if val = -(2 ^ 63) then 45 :: (decDigits (2 ^ 63)).map fun c => 96 - c
  else if val < 0 then 45 :: decDigits val.natAbs
  else decDigits val.natAbs

def writeString (s : Bytes) : Bytes := decDigits s.length ++ 58 :: s

mutual

/-- An entry without a value is written as nothing. -/
def bencode : Entry → Bytes
  | .undefined => []
  | .int v => 105 :: integerToStr v ++ [101]
  | .string s => writeString s
  | .list l => 108 :: bencodeList l ++ [101]
  | .dict d => 100 :: bencodeDict d ++ [101]

def bencodeList : List Entry → Bytes
  | [] => []
  | e :: l => bencode e ++ bencodeList l

def bencodeDict : List (Bytes × Entry) → Bytes
  | [] => []
  | (key, e) :: d => writeString key ++ bencode e ++ bencodeDict d

end

/-! ### Reading the parts of an entry -/

namespace Entry

/-- The value under a name; only a dictionary is asked. -/
def findKey (key : String) : Entry → Option Entry
  | dict d => look (ascii key) d
  | _ => none

end Entry

def safeGetEntryString (e : Entry) (key : String) : Bytes :=
  match e.findKey key with
  | some (.string s) => s
  | _ => []

/-- The number is cut to 32 bits. -/
def safeGetEntryInt (e : Entry) (key : String) : Int32 :=
  match e.findKey key with
  | some (.int v) => Int32.ofInt v
  | _ => 0

def safeGetEntryDict (e : Entry) (key : String) : Entry :=
  match e.findKey key with
  | some (.dict d) => .dict d
  | _ => .dict []

/-! ### Making binary texts readable -/

def hexDigit (n : ℕ) : UInt8 := UInt8.ofNat (if n < 10 then 48 + n else 87 + n)

def hexStr (s : Bytes) : Bytes := s.flatMap fun c => [hexDigit (c.toNat / 16), hexDigit (c.toNat % 16)]

def Entry.modifyKey (key : String) (f : Entry → Entry) (e : Entry) : Entry :=
  match e with
  | .dict d =>
    match look (ascii key) d with
    | some v => .dict (put (ascii key) (f v) d)
    | none => e
  | _ => e

def findAndHexcape (key : String) (e : Entry) : Entry :=
  e.modifyKey key fun
    | .string s => .string (hexStr s)
    | v => v

def hexcapeSecret (e : Entry) : Entry :=
  findAndHexcape "mac" (findAndHexcape "key" (findAndHexcape "body" e))

def hexcapeUserpost (userpost : Entry) : Entry :=
  let userpost := findAndHexcape "sig_fav" (findAndHexcape "sig_rt" userpost)
  match userpost.findKey "dm" with
  | some _ => userpost.modifyKey "dm" hexcapeSecret
  | none => userpost.modifyKey "pfav" hexcapeSecret

def hexcapePost (e : Entry) : Entry :=
  (findAndHexcape "sig_wort" (findAndHexcape "sig_userpost" e)).modifyKey "userpost" hexcapeUserpost

def hexcapeDht (e : Entry) : Entry :=
  (findAndHexcape "sig_p" e).modifyKey "p" fun p => p.modifyKey "v" hexcapePost

end FreechCore
